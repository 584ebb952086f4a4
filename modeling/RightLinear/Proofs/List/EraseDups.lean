import Mathlib.Data.List.Nodup

/-!
# Lists without repetitions

`List.eraseDups` keeps the first of equal items, in order. What is left has no
repetitions, a list without repetitions is left alone, and repetitions may as well be
dropped before items are selected, or before more items are put in front or behind.
-/

namespace RightLinear

variable {α : Type} [BEq α]

theorem length_eraseDups_le (l : List α) : l.eraseDups.length ≤ l.length := by
  cases l with
  | nil => exact Nat.le_refl 0
  | cons a l =>
    have kept := List.length_filter_le (fun b => !b == a) l
    have shorter := length_eraseDups_le (l.filter fun b => !b == a)
    rw [List.eraseDups_cons, List.length_cons, List.length_cons]
    omega
termination_by l.length

variable [LawfulBEq α]

theorem nodup_eraseDups (l : List α) : l.eraseDups.Nodup := by
  cases l with
  | nil => exact .nil
  | cons a l =>
    have shorter := List.length_filter_le (fun b => !b == a) l
    rw [List.eraseDups_cons, List.nodup_cons]
    refine ⟨fun mem => ?_, nodup_eraseDups _⟩
    obtain ⟨_, other⟩ := List.mem_filter.mp (List.mem_eraseDups.mp mem)
    simp at other
termination_by l.length

theorem eraseDups_eq_self {l : List α} (nodup : l.Nodup) : l.eraseDups = l := by
  induction l with
  | nil => rfl
  | cons a l ih =>
    obtain ⟨absent, nodup⟩ := List.nodup_cons.mp nodup
    have others : l.filter (fun b => !b == a) = l := by
      refine List.filter_eq_self.mpr fun b mem => ?_
      have other : b ≠ a := fun same => absent (same ▸ mem)
      simp [other]
    rw [List.eraseDups_cons, others, ih nodup]

/-- It does not matter whether items are dropped before or after repeated ones. -/
theorem filter_eraseDups (p : α → Bool) (l : List α) :
    l.eraseDups.filter p = (l.filter p).eraseDups := by
  cases l with
  | nil => rfl
  | cons a l =>
    have shorter := List.length_filter_le (fun b => !b == a) l
    have rest := filter_eraseDups p (l.filter fun b => !b == a)
    rw [List.eraseDups_cons]
    cases kept : p a with
    | true =>
      rw [List.filter_cons_of_pos kept, List.filter_cons_of_pos kept, List.eraseDups_cons, rest,
        List.filter_filter, List.filter_filter]
      simp only [Bool.and_comm]
    | false =>
      -- none of the items that are equal to the first is selected either
      have unequal : (l.filter fun b => !b == a).filter p = l.filter p := by
        rw [List.filter_filter]
        refine List.filter_congr fun b _ => ?_
        by_cases same : b = a
        · rw [same, kept, Bool.false_and]
        · simp [same]
      rw [List.filter_cons_of_neg (by simp [kept]), List.filter_cons_of_neg (by simp [kept]), rest,
        unequal]
termination_by l.length

theorem any_eraseDups (p : α → Bool) (l : List α) : l.eraseDups.any p = l.any p := by
  rw [Bool.eq_iff_iff, List.any_eq_true, List.any_eq_true]
  simp only [List.mem_eraseDups]

theorem removeAll_eraseDups (l m : List α) : m.removeAll l.eraseDups = m.removeAll l := by
  refine List.filter_congr fun a _ => ?_
  rw [Bool.eq_iff_iff]
  simp

theorem eraseDups_append_left (l m : List α) :
    (l.eraseDups ++ m).eraseDups = (l ++ m).eraseDups := by
  rw [List.eraseDups_append, List.eraseDups_append, eraseDups_eq_self (nodup_eraseDups l),
    removeAll_eraseDups]

theorem eraseDups_append_right (l m : List α) :
    (l ++ m.eraseDups).eraseDups = (l ++ m).eraseDups := by
  rw [List.eraseDups_append, List.eraseDups_append, List.removeAll, List.removeAll,
    filter_eraseDups, eraseDups_eq_self (nodup_eraseDups _)]

/-- Items that are there already may be put behind. -/
theorem eraseDups_append_of_subset {l m : List α} (subset : ∀ a ∈ m, a ∈ l) :
    (l ++ m).eraseDups = l.eraseDups := by
  have none : m.removeAll l = [] := by
    refine List.filter_eq_nil_iff.mpr fun a mem => ?_
    simp [subset a mem]
  rw [List.eraseDups_append, none, List.eraseDups_nil, List.append_nil]

end RightLinear
