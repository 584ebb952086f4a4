import RightLinear.Proofs.Expr.Simplified

/-!
# Laws of the simplifying operations

Simplified trees with the same items are the same, so a law is an equation between lists of
items. For sequences that is all there is to say. A choice drops items, and it does so at
every step: which of them are gone after the first of two steps depends on what has been
joined so far. In the end nothing depends on it, since a repetition that is kept by the first
step is still there in the second, and then the empty word goes whenever it was met.

* `Expr.kept_append`: keeping items in one step or in two.
* `Expr.Simplified.sequenceItems_followedBy`, `Expr.Simplified.alternativeItems_or`: the
  items of a result.
* `Expr.laws_of_built`: the laws.
-/

namespace RightLinear

namespace Expr

variable {e f g : Expr} {items others : List Expr}

/-! ## Items kept in several steps -/

theorem dropEpsilon_append :
    dropEpsilon (items ++ others) = dropEpsilon items ++ dropEpsilon others :=
  List.filter_append items others

theorem dropEpsilon_eraseDups : dropEpsilon items.eraseDups = (dropEpsilon items).eraseDups :=
  filter_eraseDups _ items

theorem dropEpsilon_absorbEpsilon : dropEpsilon (absorbEpsilon items) = dropEpsilon items := by
  unfold absorbEpsilon
  split
  · exact dropEpsilon_eq_self fun mem => (mem_dropEpsilon.mp mem).2 rfl
  · rfl

theorem dropEpsilon_kept : dropEpsilon (kept items) = (dropEpsilon items).eraseDups := by
  rw [kept, dropEpsilon_absorbEpsilon, dropEpsilon_eraseDups]

/-- A repetition is always kept. -/
theorem any_isStar_kept : (kept items).any isStar = items.any isStar := by
  rw [Bool.eq_iff_iff, List.any_eq_true, List.any_eq_true]
  refine ⟨fun h => ?_, fun h => ?_⟩
  · obtain ⟨s, mem, star⟩ := h
    exact ⟨s, mem_of_mem_kept mem, star⟩
  · obtain ⟨s, mem, star⟩ := h
    have left : s ∈ dropEpsilon (kept items) := by
      rw [dropEpsilon_kept]
      exact List.mem_eraseDups.mpr (mem_dropEpsilon.mpr ⟨mem, ne_epsilon_of_isStar star⟩)
    exact ⟨s, (mem_dropEpsilon.mp left).1, star⟩

theorem kept_of_isStar (starred : items.any isStar = true) :
    kept items = (dropEpsilon items).eraseDups := by
  rw [kept, absorbEpsilon, any_eraseDups, if_pos starred, dropEpsilon_eraseDups]

theorem kept_of_not_isStar (unstarred : items.any isStar = false) :
    kept items = items.eraseDups := by
  rw [kept, absorbEpsilon, any_eraseDups, if_neg (Bool.eq_false_iff.mp unstarred)]

/-- What is dropped from parts of a list would have been dropped from the whole, either as a
repeated item or because of a repetition that the part has and the whole as well. -/
theorem kept_append : kept (kept items ++ kept others) = kept (items ++ others) := by
  have same : (kept items ++ kept others).any isStar = (items ++ others).any isStar := by
    rw [List.any_append, List.any_append, any_isStar_kept, any_isStar_kept]
  cases starred : (items ++ others).any isStar with
  | true =>
    rw [kept_of_isStar starred, kept_of_isStar (same.trans starred), dropEpsilon_append,
      dropEpsilon_append, dropEpsilon_kept, dropEpsilon_kept, eraseDups_append_left,
      eraseDups_append_right]
  | false =>
    obtain ⟨first, second⟩ := Bool.or_eq_false_iff.mp (List.any_append.symm.trans starred)
    rw [kept_of_not_isStar starred, kept_of_not_isStar (same.trans starred),
      kept_of_not_isStar first, kept_of_not_isStar second, eraseDups_append_left,
      eraseDups_append_right]

theorem kept_append_of_subset (subset : ∀ e ∈ others, e ∈ items) :
    kept (items ++ others) = kept items := by
  rw [kept, kept, eraseDups_append_of_subset subset]

/-! ## Items of results -/

theorem Simplified.sequenceItems_followedBy (first : e.Simplified) (second : f.Simplified) :
    (e.followedBy f).sequenceItems = e.sequenceItems ++ f.sequenceItems :=
  sequenceItems_ofSequence (first.joined_factors second)

theorem Simplified.alternativeItems_or (first : e.Simplified) (second : f.Simplified) :
    (e.or f).alternativeItems = kept (e.alternativeItems ++ f.alternativeItems) :=
  alternativeItems_ofAlternatives (first.joined_branches second).single

/-! ## Laws -/

theorem Simplified.followedBy_assoc (first : e.Simplified) (second : f.Simplified)
    (third : g.Simplified) :
    (e.followedBy f).followedBy g = e.followedBy (f.followedBy g) :=
  calc (e.followedBy f).followedBy g
    _ = ofSequence (e.sequenceItems ++ f.sequenceItems ++ g.sequenceItems) := by
      rw [← first.sequenceItems_followedBy second]
      rfl
    _ = ofSequence (e.sequenceItems ++ (f.followedBy g).sequenceItems) := by
      rw [List.append_assoc, second.sequenceItems_followedBy third]

theorem Simplified.epsilon_followedBy (simplified : e.Simplified) :
    Expr.epsilon.followedBy e = e :=
  simplified.ofSequence_sequenceItems

theorem Simplified.followedBy_epsilon (simplified : e.Simplified) :
    e.followedBy Expr.epsilon = e :=
  (congrArg ofSequence (List.append_nil _)).trans simplified.ofSequence_sequenceItems

theorem Simplified.or_assoc (first : e.Simplified) (second : f.Simplified)
    (third : g.Simplified) : (e.or f).or g = e.or (f.or g) :=
  calc (e.or f).or g
    _ = ofAlternatives (kept (kept (e.alternativeItems ++ f.alternativeItems) ++
          kept g.alternativeItems)) := by
      rw [or_eq, first.alternativeItems_or second, third.branches.kept_eq_self]
    _ = ofAlternatives (kept (kept e.alternativeItems ++
          kept (f.alternativeItems ++ g.alternativeItems))) := by
      rw [kept_append, kept_append, List.append_assoc]
    _ = e.or (f.or g) := by
      rw [or_eq, second.alternativeItems_or third, first.branches.kept_eq_self]

/-- Items that are there already add nothing. -/
theorem Simplified.or_of_subset (simplified : e.Simplified)
    (subset : ∀ h ∈ f.alternativeItems, h ∈ e.alternativeItems) : e.or f = e := by
  rw [or_eq, kept_append_of_subset subset, simplified.branches.kept_eq_self,
    simplified.ofAlternatives_alternativeItems]

theorem dropEpsilon_beside_epsilon :
    dropEpsilon (items ++ epsilon.alternativeItems) = dropEpsilon items :=
  dropEpsilon_append.trans (List.append_nil _)

/-- The empty word adds nothing beside a repetition. -/
theorem Simplified.or_epsilon (simplified : e.Simplified)
    (starred : e.alternativeItems.any isStar = true) : e.or Expr.epsilon = e := by
  have beside : (e.alternativeItems ++ Expr.epsilon.alternativeItems).any isStar = true := by
    rw [List.any_append, starred, Bool.true_or]
  rw [or_eq, kept_of_isStar beside, dropEpsilon_beside_epsilon, ← kept_of_isStar starred,
    simplified.branches.kept_eq_self, simplified.ofAlternatives_alternativeItems]

theorem not_isStar_of_any (unstarred : e.alternativeItems.any isStar = false) : ¬ e.isStar := by
  cases e with
  | star inner => cases unstarred
  | _ => exact Bool.false_ne_true

theorem repeated_repeated : e.repeated.repeated = e.repeated := by
  by_cases once : e.isStar
  · cases e with
    | star inner => rfl
    | _ => cases once
  · rw [repeated_eq_ite once]
    split
    · rfl
    · rfl

/-- Under a repetition it does not matter whether the empty word is among the alternatives. -/
theorem Simplified.repeated_or_epsilon (simplified : e.Simplified) :
    (e.or Expr.epsilon).repeated = e.repeated := by
  cases starred : e.alternativeItems.any isStar with
  | true => rw [simplified.or_epsilon starred]
  | false =>
    -- neither side is a repetition, and they have the same items but for the empty word
    have items := simplified.alternativeItems_or .epsilon
    have unstarred : (e.or Expr.epsilon).alternativeItems.any isStar = false := by
      rw [items, any_isStar_kept, List.any_append, starred]
      rfl
    have distinct := (simplified.branches.sublist dropEpsilon_sublist).distinct
    rw [repeated_eq_ite (not_isStar_of_any unstarred), repeated_eq_ite (not_isStar_of_any starred),
      items, dropEpsilon_kept, dropEpsilon_beside_epsilon, eraseDups_eq_self distinct]

/-- Trees that the operations build from the empty word and from characters obey these laws
as trees, not only in what they denote. -/
theorem laws_of_built {a b c : Expr} (first : a.Built) (second : b.Built) (third : c.Built) :
    (a.followedBy b).followedBy c = a.followedBy (b.followedBy c) ∧
    epsilon.followedBy a = a ∧ a.followedBy epsilon = a ∧
    (a.or b).or c = a.or (b.or c) ∧ a.or a = a ∧
    a.repeated.repeated = a.repeated ∧ (a.or epsilon).repeated = a.repeated := by
  have one := first.simplified
  have two := second.simplified
  have three := third.simplified
  exact ⟨one.followedBy_assoc two three, one.epsilon_followedBy, one.followedBy_epsilon,
    one.or_assoc two three, one.or_of_subset fun _ mem => mem, repeated_repeated,
    one.repeated_or_epsilon⟩

/-- A choice with the empty word on either side of a repetition, which absorbs the one at the
first step and the other at the second, or the other way round. -/
theorem laws_of_built_of_absorbed :
    let a := alt [literal 'x', epsilon]
    let b := star (literal 'y')
    let c := alt [epsilon, literal 'y']
    a.Built ∧ b.Built ∧ c.Built ∧
      (a.followedBy b).followedBy c = a.followedBy (b.followedBy c) ∧
      epsilon.followedBy a = a ∧ a.followedBy epsilon = a ∧
      (a.or b).or c = a.or (b.or c) ∧ a.or a = a ∧
      a.repeated.repeated = a.repeated ∧ (a.or epsilon).repeated = a.repeated ∧
      a.or b = alt [literal 'x', star (literal 'y')] ∧
      (a.or b).or c = alt [literal 'x', star (literal 'y'), literal 'y'] := by
  intro a b c
  have first : a.Built := Built.or .literal .epsilon
  have second : b.Built := Built.repeated .literal
  have third : c.Built := Built.or .epsilon .literal
  obtain ⟨sequence, before, behind, choice, same, again, without⟩ :=
    laws_of_built first second third
  exact ⟨first, second, third, sequence, before, behind, choice, same, again, without,
    by decide, by decide⟩

end Expr

end RightLinear
