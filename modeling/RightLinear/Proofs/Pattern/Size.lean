import RightLinear.Proofs.Pattern.Anchored

/-!
# The space that programs take

The states of a program are counted along the tree of its pattern. Sequences and choices
add up what their parts have, and a group has what is in it, so between the marks a
pattern has the two states for the marks more than it has alone. A tree that is low enough
but has too many states is refused for its size.

* `Pattern.tally_ofSequence`, `Pattern.tally_ofBranches`, `Pattern.states_anchored`: counting.
* `Pattern.height_ofSequence_le`, `Pattern.height_ofBranches_le`: the height of what is put
  together.
* `Pattern.counting_fits_iff`, `Pattern.compile_counting_of_big`: what is left to compile.
-/

namespace RightLinear.Pattern

variable {text : List Char} {p : Pattern} {items more branches : List Pattern}

/-! ## Counting along trees -/

section Tally

variable {weight : Atom → Nat} {times : Count → Nat}

theorem tallyAll_append :
    tallyAll weight times (items ++ more) =
      tallyAll weight times items + tallyAll weight times more := by
  induction items with
  | nil => exact (Nat.zero_add _).symm
  | cons p items ih => rw [List.cons_append, tallyAll, ih, tallyAll, Nat.add_assoc]

theorem tally_ofSequence :
    (ofSequence items).tally weight times = tallyAll weight times items := by
  unfold ofSequence
  split
  · rfl
  · rfl
  · rw [tally]

theorem tally_ofBranches :
    (ofBranches branches).tally weight times = tallyAll weight times branches := by
  unfold ofBranches
  split
  · rfl
  · rw [tally]

end Tally

theorem heightAll_append : heightAll (items ++ more) = max (heightAll items) (heightAll more) := by
  induction items with
  | nil => exact (Nat.zero_max _).symm
  | cons p items ih => rw [List.cons_append, heightAll, ih, heightAll, Nat.max_assoc]

theorem height_ofSequence_le : (ofSequence items).height ≤ heightAll items + 1 := by
  unfold ofSequence
  split
  · exact Nat.zero_le _
  · rw [heightAll, heightAll, Nat.max_zero]
    exact Nat.le_succ _
  · exact Nat.le_of_eq (by rw [height])

theorem height_ofBranches_le : (ofBranches branches).height ≤ heightAll branches + 1 := by
  unfold ofBranches
  split
  · rw [heightAll, heightAll, Nat.max_zero]
    exact Nat.le_succ _
  · exact Nat.le_of_eq (by rw [height])

/-! ## Programs between the marks -/

/-- Between the marks a program has two states more. -/
theorem states_anchored : (anchored p).states = p.states + 2 := by
  simp only [states, anchored, tally, tallyAll, Atom.bytes, Atom.marks]
  omega

theorem size_counting (parsed : parse? text = some p) :
    Engine.counting.size text = p.states * stateSize :=
  congrArg (fun tree? => tree?.elim 0 fun q : Pattern => q.states * stateSize) parsed

/-- Where states are counted, the marks are the first to take too much space. -/
theorem counting_fits_iff (parsed : parse? text = some p) :
    Engine.counting.Fits text ↔ p.states + 2 ≤ 327680 := by
  rw [Engine.Fits, size_counting parsed, size_counting (parse?_anchor parsed), states_anchored,
    sizeLimit, stateSize]
  omega

/-- A tree that is low enough and has too many states is refused for its size. -/
theorem compile_counting_of_big (parsed : parse? text = some p) (low : p.height ≤ 248)
    (big : 327678 < p.states) : compile .counting text = .error (.oversized sizeLimit) := by
  have space : ¬ Engine.counting.Fits text := by
    rw [counting_fits_iff parsed]
    omega
  cases eq : compile .counting text with
  | ok q => exact absurd ((compile_eq_ok_iff parsed).mp eq).2.2 space
  | error refusal =>
    rcases compile_eq_error parsed eq with ⟨-, high⟩ | ⟨rfl, -⟩
    · exact absurd high (Nat.not_lt_of_le low)
    · rfl

end RightLinear.Pattern
