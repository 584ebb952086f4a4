import RightLinear.Expr.Simplified
import RightLinear.Proofs.Expr.Language
import RightLinear.Proofs.List.EraseDups

/-!
# Simplified trees

A simplified tree is known by its items: a sequence and a choice are put together from
theirs again, and anything else is its own single item, save that the empty word has none
in a sequence. The operations join such items and put the result together, so what is to
be shown of them is only that joined items are fit to be items again. Nothing else is
simplified: the items of a sequence, of a choice and of a repetition give it back when the
operations are applied to them one by one.

* `Expr.Factor`, `Expr.Branches`: what can be the items of a sequence and of a choice.
* `Expr.kept`, `Expr.Branches.kept`: the items that a choice keeps are fit.
* `Expr.Simplified.followedBy`, `Expr.Simplified.or`, `Expr.Simplified.repeated`: the
  operations on simplified trees.
* `Expr.built_iff_simplified`: simplified trees are those that the operations build.
-/

namespace RightLinear

namespace Expr

variable {e f inner : Expr} {items others : List Expr}

theorem two_le_length (some : items ≠ []) (more : ∀ e, items ≠ [e]) : 2 ≤ items.length := by
  match items, some, more with
  | [], some, _ => exact absurd rfl some
  | [e], _, more => exact absurd rfl (more e)
  | _ :: _ :: _, _, _ => exact Nat.le_add_left 2 _

theorem ne_nil_of_two (two : 2 ≤ items.length) : items ≠ [] :=
  List.ne_nil_of_length_pos (Nat.lt_of_lt_of_le Nat.zero_lt_two two)

/-! ## Sequences -/

/-- A simplified expression that is one item of any sequence. -/
structure Factor (e : Expr) : Prop where
  some : e ≠ epsilon
  single : ¬ e.isConcat
  simplified : e.Simplified

theorem Factor.sequenceItems (factor : e.Factor) : e.sequenceItems = [e] := by
  obtain ⟨some, single, -⟩ := factor
  cases e with
  | epsilon => exact absurd rfl some
  | concat items => exact absurd rfl single
  | _ => rfl

theorem ofSequence_of_two (two : 2 ≤ items.length) : ofSequence items = concat items := by
  match items, two with
  | _ :: _ :: _, _ => rfl

theorem sequenceItems_ofSequence (factors : ∀ e ∈ items, e.Factor) :
    (ofSequence items).sequenceItems = items := by
  unfold ofSequence
  split
  · rfl
  · exact (factors _ (List.mem_singleton_self _)).sequenceItems
  · rfl

theorem Simplified.ofSequence_sequenceItems (simplified : e.Simplified) :
    ofSequence e.sequenceItems = e := by
  cases simplified with
  | concat two _ _ _ => exact ofSequence_of_two two
  | _ => rfl

theorem Simplified.factors (simplified : e.Simplified) : ∀ f ∈ e.sequenceItems, f.Factor := by
  cases e with
  | epsilon => exact fun _ mem => absurd mem List.not_mem_nil
  | concat items =>
    cases simplified with
    | concat _ some single simplified =>
      exact fun f mem => ⟨fun none => some (none ▸ mem), single f mem, simplified f mem⟩
  | _ => exact List.forall_mem_singleton.mpr ⟨Expr.noConfusion, Bool.false_ne_true, simplified⟩

theorem simplified_ofSequence (factors : ∀ e ∈ items, e.Factor) :
    (ofSequence items).Simplified := by
  unfold ofSequence
  split
  · exact .epsilon
  · exact (factors _ (List.mem_singleton_self _)).simplified
  · next some more =>
    exact .concat (two_le_length some more) (fun mem => (factors _ mem).some rfl)
      (fun e mem => (factors e mem).single) fun e mem => (factors e mem).simplified

theorem Simplified.joined_factors (first : e.Simplified) (second : f.Simplified) :
    ∀ g ∈ e.sequenceItems ++ f.sequenceItems, g.Factor :=
  fun g mem => (List.mem_append.mp mem).elim (first.factors g) (second.factors g)

theorem Simplified.followedBy (first : e.Simplified) (second : f.Simplified) :
    (e.followedBy f).Simplified :=
  simplified_ofSequence (first.joined_factors second)

/-! ## Branches -/

/-- Simplified expressions that can be the items of a choice together. -/
structure Branches (items : List Expr) : Prop where
  distinct : items.Nodup
  single : ∀ e ∈ items, ¬ e.isAlt
  absorbed : epsilon ∈ items → ∀ e ∈ items, ¬ e.isStar
  simplified : ∀ e ∈ items, e.Simplified

theorem Branches.singleton (single : ¬ e.isAlt) (simplified : e.Simplified) : Branches [e] where
  distinct := List.nodup_singleton e
  single := List.forall_mem_singleton.mpr single
  absorbed mem := by
    obtain rfl := List.mem_singleton.mp mem
    exact List.forall_mem_singleton.mpr Bool.false_ne_true
  simplified := List.forall_mem_singleton.mpr simplified

theorem Branches.sublist (fit : Branches items) (sublist : others.Sublist items) :
    Branches others where
  distinct := fit.distinct.sublist sublist
  single e mem := fit.single e (sublist.subset mem)
  absorbed none e mem := fit.absorbed (sublist.subset none) e (sublist.subset mem)
  simplified e mem := fit.simplified e (sublist.subset mem)

theorem ofAlternatives_of_two (two : 2 ≤ items.length) : ofAlternatives items = alt items := by
  match items, two with
  | _ :: _ :: _, _ => rfl

theorem alternativeItems_eq_self (single : ¬ e.isAlt) : e.alternativeItems = [e] := by
  cases e with
  | alt items => exact absurd rfl single
  | _ => rfl

theorem alternativeItems_ofAlternatives (single : ∀ e ∈ items, ¬ e.isAlt) :
    (ofAlternatives items).alternativeItems = items := by
  unfold ofAlternatives
  split
  · exact alternativeItems_eq_self (single _ (List.mem_singleton_self _))
  · rfl

theorem Simplified.ofAlternatives_alternativeItems (simplified : e.Simplified) :
    ofAlternatives e.alternativeItems = e := by
  cases simplified with
  | alt two _ _ _ _ => exact ofAlternatives_of_two two
  | _ => rfl

theorem Simplified.branches (simplified : e.Simplified) : Branches e.alternativeItems := by
  cases e with
  | alt items =>
    cases simplified with
    | alt _ distinct single absorbed simplified =>
      exact ⟨distinct, single, absorbed, simplified⟩
  | _ => exact .singleton Bool.false_ne_true simplified

theorem Simplified.alternativeItems_ne_nil (simplified : e.Simplified) :
    e.alternativeItems ≠ [] := by
  cases simplified with
  | alt two _ _ _ _ => exact ne_nil_of_two two
  | _ => exact List.cons_ne_nil _ _

theorem simplified_ofAlternatives (some : items ≠ []) (fit : Branches items) :
    (ofAlternatives items).Simplified := by
  unfold ofAlternatives
  split
  · exact fit.simplified _ (List.mem_singleton_self _)
  · next more =>
    exact .alt (two_le_length some more) fit.distinct fit.single fit.absorbed fit.simplified

theorem isStar_ofAlternatives (none : ∀ e ∈ items, ¬ e.isStar) :
    ¬ (ofAlternatives items).isStar := by
  unfold ofAlternatives
  split
  · exact none _ (List.mem_singleton_self _)
  · exact Bool.false_ne_true

/-! ### Items that are kept -/

/-- The items that a choice between some items keeps. -/
def kept (items : List Expr) : List Expr := absorbEpsilon items.eraseDups

theorem or_eq : e.or f = ofAlternatives (kept (e.alternativeItems ++ f.alternativeItems)) := rfl

theorem dropEpsilon_sublist : (dropEpsilon items).Sublist items := List.filter_sublist

theorem dropEpsilon_eq_self (some : epsilon ∉ items) : dropEpsilon items = items :=
  List.filter_eq_self.mpr fun _ mem => decide_eq_true fun none => some (none ▸ mem)

theorem absorbEpsilon_sublist : (absorbEpsilon items).Sublist items := by
  unfold absorbEpsilon
  split
  · exact dropEpsilon_sublist
  · exact List.Sublist.refl items

theorem absorbEpsilon_absorbed (none : epsilon ∈ absorbEpsilon items) :
    ∀ e ∈ absorbEpsilon items, ¬ e.isStar := by
  unfold absorbEpsilon at none ⊢
  split at none
  · exact absurd rfl (mem_dropEpsilon.mp none).2
  · next unstarred =>
    rw [if_neg unstarred]
    exact fun e mem star => unstarred (List.any_eq_true.mpr ⟨e, mem, star⟩)

theorem mem_of_mem_kept (mem : e ∈ kept items) : e ∈ items :=
  List.mem_eraseDups.mp (absorbEpsilon_sublist.subset mem)

theorem Branches.kept (single : ∀ e ∈ items, ¬ e.isAlt)
    (simplified : ∀ e ∈ items, e.Simplified) : Branches (kept items) where
  distinct := (nodup_eraseDups items).sublist absorbEpsilon_sublist
  single e mem := single e (mem_of_mem_kept mem)
  absorbed := absorbEpsilon_absorbed
  simplified e mem := simplified e (mem_of_mem_kept mem)

theorem Branches.kept_eq_self (fit : Branches items) : Expr.kept items = items := by
  rw [Expr.kept, eraseDups_eq_self fit.distinct, absorbEpsilon]
  split
  · next starred =>
    obtain ⟨e, mem, star⟩ := List.any_eq_true.mp starred
    exact dropEpsilon_eq_self fun none => fit.absorbed none e mem star
  · rfl

theorem ne_epsilon_of_isStar (star : e.isStar) : e ≠ epsilon := by
  rintro rfl
  cases star

/-- Of some items one is kept: the empty word is dropped only beside another item. -/
theorem kept_ne_nil (some : items ≠ []) : kept items ≠ [] := by
  obtain ⟨e, mem⟩ := List.exists_mem_of_ne_nil items some
  unfold kept absorbEpsilon
  split
  · next starred =>
    obtain ⟨s, memS, star⟩ := List.any_eq_true.mp starred
    exact List.ne_nil_of_mem (mem_dropEpsilon.mpr ⟨memS, ne_epsilon_of_isStar star⟩)
  · exact List.ne_nil_of_mem (List.mem_eraseDups.mpr mem)

theorem Simplified.joined_branches (first : e.Simplified) (second : f.Simplified) :
    Branches (kept (e.alternativeItems ++ f.alternativeItems)) := by
  obtain ⟨-, single, -, simplified⟩ := first.branches
  obtain ⟨-, single', -, simplified'⟩ := second.branches
  refine .kept (fun g mem => ?_) fun g mem => ?_
  · exact (List.mem_append.mp mem).elim (single g) (single' g)
  · exact (List.mem_append.mp mem).elim (simplified g) (simplified' g)

theorem Simplified.or (first : e.Simplified) (second : f.Simplified) : (e.or f).Simplified := by
  have some : e.alternativeItems ++ f.alternativeItems ≠ [] :=
    List.append_ne_nil_of_left_ne_nil first.alternativeItems_ne_nil _
  exact simplified_ofAlternatives (kept_ne_nil some) (first.joined_branches second)

/-! ## Repetitions -/

/-- What is no repetition is repeated without the empty word among its alternatives. -/
theorem repeated_eq_ite (once : ¬ e.isStar) :
    e.repeated = if dropEpsilon e.alternativeItems = [] then epsilon
      else star (ofAlternatives (dropEpsilon e.alternativeItems)) := by
  cases e with
  | epsilon => rfl
  | literal => rfl
  | star => exact absurd rfl once
  | concat items =>
    have alone : dropEpsilon (concat items).alternativeItems = [concat items] :=
      List.filter_cons_of_pos (decide_eq_true Expr.noConfusion)
    rw [alone]
    rfl
  | alt items =>
    rw [repeated, alternativeItems]
    split
    · next none => rw [if_pos none]
    · next some => rw [if_neg some]

theorem Simplified.repeated_eq_star (simplified : e.Simplified) (once : ¬ e.isStar)
    (some : Expr.epsilon ∉ e.alternativeItems) : e.repeated = Expr.star e := by
  rw [repeated_eq_ite once, dropEpsilon_eq_self some, if_neg simplified.alternativeItems_ne_nil,
    simplified.ofAlternatives_alternativeItems]

theorem Simplified.isStar_dropEpsilon (simplified : e.Simplified) (once : ¬ e.isStar) :
    ¬ (ofAlternatives (dropEpsilon e.alternativeItems)).isStar := by
  by_cases none : Expr.epsilon ∈ e.alternativeItems
  · exact isStar_ofAlternatives fun f mem =>
      simplified.branches.absorbed none f (mem_dropEpsilon.mp mem).1
  · rw [dropEpsilon_eq_self none, simplified.ofAlternatives_alternativeItems]
    exact once

/-- A repetition is simplified again: it is of nothing empty, of no repetition, and of no choice
with the empty word. -/
theorem Simplified.repeated (simplified : e.Simplified) : e.repeated.Simplified := by
  by_cases once : e.isStar
  · cases e with
    | star inner => exact simplified
    | _ => cases once
  have fit := simplified.branches.sublist dropEpsilon_sublist
  rw [repeated_eq_ite once]
  split
  · exact .epsilon
  · next left =>
    refine .star (simplified.isStar_dropEpsilon once) ?_ (simplified_ofAlternatives left fit)
    rw [alternativeItems_ofAlternatives fit.single]
    exact fun mem => (mem_dropEpsilon.mp mem).2 rfl

theorem Built.simplified (built : e.Built) : e.Simplified := by
  induction built with
  | epsilon => exact .epsilon
  | literal => exact .literal
  | followedBy _ _ first second => exact first.followedBy second
  | or _ _ first second => exact first.or second
  | repeated _ inner => exact inner.repeated

/-! ## Building simplified trees -/

theorem ofSequence_cons (first : e.Factor) (factors : ∀ f ∈ items, f.Factor) :
    ofSequence (e :: items) = e.followedBy (ofSequence items) := by
  rw [Expr.followedBy, first.sequenceItems, sequenceItems_ofSequence factors]
  rfl

theorem built_ofSequence (factors : ∀ e ∈ items, e.Factor) (built : ∀ e ∈ items, e.Built) :
    (ofSequence items).Built := by
  induction items with
  | nil => exact .epsilon
  | cons e items ih =>
    obtain ⟨first, factors⟩ := List.forall_mem_cons.mp factors
    obtain ⟨firstBuilt, built⟩ := List.forall_mem_cons.mp built
    rw [ofSequence_cons first factors]
    exact .followedBy firstBuilt (ih factors built)

theorem ofAlternatives_cons (fit : Branches (e :: items)) :
    ofAlternatives (e :: items) = e.or (ofAlternatives items) := by
  obtain ⟨single, others⟩ := List.forall_mem_cons.mp fit.single
  rw [or_eq, alternativeItems_eq_self single, alternativeItems_ofAlternatives others,
    List.singleton_append, fit.kept_eq_self]

theorem built_ofAlternatives (some : items ≠ []) (fit : Branches items)
    (built : ∀ e ∈ items, e.Built) : (ofAlternatives items).Built := by
  induction items with
  | nil => exact absurd rfl some
  | cons e items ih =>
    obtain ⟨first, others⟩ := List.forall_mem_cons.mp built
    by_cases last : items = []
    · rw [last]
      exact first
    · rw [ofAlternatives_cons fit]
      exact .or first (ih last (fit.sublist (List.sublist_cons_self e items)) others)

/-- A simplified tree is what the operations give when they are applied to its items one by one. -/
theorem Simplified.built (simplified : e.Simplified) : e.Built := by
  induction simplified with
  | epsilon => exact .epsilon
  | literal => exact .literal
  | concat two some single simplified ih =>
    rw [← ofSequence_of_two two]
    exact built_ofSequence (fun e mem => ⟨fun none => some (none ▸ mem), single e mem,
      simplified e mem⟩) ih
  | alt two distinct single absorbed simplified ih =>
    rw [← ofAlternatives_of_two two]
    exact built_ofAlternatives (ne_nil_of_two two) ⟨distinct, single, absorbed, simplified⟩ ih
  | star once some simplified ih =>
    rw [← simplified.repeated_eq_star once some]
    exact .repeated ih

/-- The operations build exactly the trees in which no node could be written in a shorter
way. -/
theorem built_iff_simplified (e : Expr) : e.Built ↔ e.Simplified :=
  ⟨Built.simplified, Simplified.built⟩

end Expr

end RightLinear
