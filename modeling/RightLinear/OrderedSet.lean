/-!
# Finite sets in ascending order

A transition carries a set of symbols and a run carries a set of state ids.
Both are shown in ascending order, so a set is stored as the strictly ascending
list of its members: two sets with the same members are equal, and the list
that is printed is the list that is stored.

* `OrderedSet.insert`, `OrderedSet.ofList`: the operations that build sets.
* `mem_insert`, `mem_ofList`: their members, the only view later proofs need.
-/

namespace RightLinear

variable {α : Type} [LT α]

/-- A finite set, stored as the strictly ascending list of its members. -/
structure OrderedSet (α : Type) [LT α] where
  toList : List α
  ascending : toList.Pairwise (· < ·)

namespace OrderedSet

instance [DecidableEq α] : DecidableEq (OrderedSet α) := fun s t =>
  decidable_of_iff (s.toList = t.toList) (by cases s; cases t; simp)

instance : Membership α (OrderedSet α) := ⟨fun s a => a ∈ s.toList⟩

instance [DecidableEq α] (a : α) (s : OrderedSet α) : Decidable (a ∈ s) :=
  inferInstanceAs (Decidable (a ∈ s.toList))

@[simp] theorem mem_toList {a : α} {s : OrderedSet α} : a ∈ s.toList ↔ a ∈ s := Iff.rfl

/-- The set without members. -/
def empty : OrderedSet α := ⟨[], .nil⟩

instance : EmptyCollection (OrderedSet α) := ⟨empty⟩

instance : Inhabited (OrderedSet α) := ⟨empty⟩

@[simp] theorem toList_empty : (∅ : OrderedSet α).toList = [] := rfl

@[simp] theorem not_mem_empty (a : α) : a ∉ (∅ : OrderedSet α) := List.not_mem_nil

/-- Whether the set has no member. -/
def isEmpty (s : OrderedSet α) : Bool := s.toList.isEmpty

/-- The set with one member. -/
def singleton (a : α) : OrderedSet α := ⟨[a], by simp⟩

@[simp] theorem mem_singleton {a b : α} : b ∈ singleton a ↔ b = a := List.mem_singleton

/-! ## Insertion -/

variable [DecidableLT α]

/-- Place `a` before the first larger element, unless it is there already. -/
def insertInto (a : α) : List α → List α
  | [] => [a]
  | b :: rest =>
    if a < b then a :: b :: rest
    else if b < a then b :: insertInto a rest
    else b :: rest

theorem eq_or_mem_of_mem_insertInto {a b : α} :
    ∀ {l : List α}, b ∈ insertInto a l → b = a ∨ b ∈ l
  | [], h => by simpa [insertInto] using h
  | c :: rest, h => by
    unfold insertInto at h
    split at h
    · simpa using h
    · split at h
      · rcases List.mem_cons.mp h with rfl | h
        · exact Or.inr List.mem_cons_self
        · exact (eq_or_mem_of_mem_insertInto h).imp_right (List.mem_cons_of_mem _)
      · exact Or.inr h

theorem mem_insertInto_of_mem {a b : α} :
    ∀ {l : List α}, b ∈ l → b ∈ insertInto a l
  | c :: rest, h => by
    unfold insertInto
    split
    · exact List.mem_cons_of_mem _ h
    · split
      · rcases List.mem_cons.mp h with rfl | h
        · exact List.mem_cons_self
        · exact List.mem_cons_of_mem _ (mem_insertInto_of_mem h)
      · exact h

/-- An insertion leaves the list strictly ascending. -/
theorem pairwise_insertInto [Trans (α := α) (· < ·) (· < ·) (· < ·)] {a : α} :
    ∀ {l : List α}, l.Pairwise (· < ·) → (insertInto a l).Pairwise (· < ·)
  | [], _ => by simp [insertInto]
  | b :: rest, h => by
    have ⟨below, restSorted⟩ := List.pairwise_cons.mp h
    unfold insertInto
    split
    · next lt =>
      refine List.pairwise_cons.mpr ⟨fun c hc => ?_, h⟩
      rcases List.mem_cons.mp hc with rfl | hc
      · exact lt
      · exact Trans.trans lt (below c hc)
    · split
      · next lt =>
        refine List.pairwise_cons.mpr ⟨fun c hc => ?_, pairwise_insertInto restSorted⟩
        rcases eq_or_mem_of_mem_insertInto hc with rfl | hc
        · exact lt
        · exact below c hc
      · exact h

/-- Where neither of two elements is smaller they are the same, so the element is there already. -/
theorem self_mem_insertInto [Std.Trichotomous (α := α) (· < ·)] {a : α} :
    ∀ {l : List α}, a ∈ insertInto a l
  | [] => by simp [insertInto]
  | b :: rest => by
    unfold insertInto
    split
    · exact List.mem_cons_self
    · split
      · exact List.mem_cons_of_mem _ self_mem_insertInto
      · next notLt notGt =>
        rw [Std.Trichotomous.trichotomous (r := (· < ·)) a b notLt notGt]
        exact List.mem_cons_self

variable [Trans (α := α) (· < ·) (· < ·) (· < ·)]

/-- The set with `a` as a further member. -/
def insert (a : α) (s : OrderedSet α) : OrderedSet α :=
  ⟨insertInto a s.toList, pairwise_insertInto s.ascending⟩

/-- The set of the elements of a list. -/
def ofList (l : List α) : OrderedSet α := l.foldl (fun s a => s.insert a) ∅

section

variable [Std.Trichotomous (α := α) (· < ·)]

@[simp] theorem mem_insert {a b : α} {s : OrderedSet α} : b ∈ s.insert a ↔ b = a ∨ b ∈ s :=
  ⟨eq_or_mem_of_mem_insertInto, fun h =>
    h.elim (fun e => e ▸ self_mem_insertInto) mem_insertInto_of_mem⟩

theorem mem_foldl_insert {b : α} :
    ∀ {l : List α} {s : OrderedSet α},
      b ∈ l.foldl (fun s a => s.insert a) s ↔ b ∈ l ∨ b ∈ s
  | [], s => by simp
  | a :: l, s => by
    rw [List.foldl_cons, mem_foldl_insert, mem_insert, List.mem_cons]
    exact ⟨fun h => by rcases h with h | rfl | h <;> simp [*],
      fun h => by rcases h with (rfl | h) | h <;> simp [*]⟩

@[simp] theorem mem_ofList {b : α} {l : List α} : b ∈ ofList l ↔ b ∈ l := by
  simp [ofList, mem_foldl_insert]

end

omit [DecidableLT α] in
/-- Two ascending lists with the same members are the same list, so a set is
determined by its members. -/
theorem ext [Std.Irrefl (α := α) (· < ·)] {s t : OrderedSet α} (h : ∀ a, a ∈ s ↔ a ∈ t) :
    s = t := by
  have key : ∀ {l m : List α}, l.Pairwise (· < ·) → m.Pairwise (· < ·) →
      (∀ a, a ∈ l ↔ a ∈ m) → l = m := by
    intro l
    induction l with
    | nil =>
      intro m _ _ same
      cases m with
      | nil => rfl
      | cons b m => exact absurd ((same b).mpr List.mem_cons_self) List.not_mem_nil
    | cons a l ih =>
      intro m sortedL sortedM same
      cases m with
      | nil => exact absurd ((same a).mp List.mem_cons_self) List.not_mem_nil
      | cons b m =>
        have ⟨belowA, tailL⟩ := List.pairwise_cons.mp sortedL
        have ⟨belowB, tailM⟩ := List.pairwise_cons.mp sortedM
        have irrefl : ∀ c : α, ¬ c < c := Std.Irrefl.irrefl
        have head : a = b := by
          rcases List.mem_cons.mp ((same a).mp List.mem_cons_self) with rfl | inM
          · rfl
          · rcases List.mem_cons.mp ((same b).mpr List.mem_cons_self) with rfl | inL
            · rfl
            · exact absurd (Trans.trans (belowB a inM) (belowA b inL)) (irrefl b)
        subst head
        refine congrArg (a :: ·) (ih tailL tailM fun c => ?_)
        have := same c
        simp only [List.mem_cons] at this
        constructor
        · intro inL
          rcases this.mp (Or.inr inL) with rfl | inM
          · exact absurd (belowA c inL) (irrefl c)
          · exact inM
        · intro inM
          rcases this.mpr (Or.inr inM) with rfl | inL
          · exact absurd (belowB c inM) (irrefl c)
          · exact inL
  cases s; cases t
  simpa using key ‹_› ‹_› h

end OrderedSet

/-! ## Characters and numbers as members -/

instance transCharLt : Trans (α := Char) (· < ·) (· < ·) (· < ·) := ⟨fun h k => Char.lt_trans h k⟩

instance trichotomousCharLt : Std.Trichotomous (α := Char) (· < ·) := Char.ltTrichotomous

instance transNatLt : Trans (α := Nat) (· < ·) (· < ·) (· < ·) := ⟨fun h k => Nat.lt_trans h k⟩

end RightLinear
