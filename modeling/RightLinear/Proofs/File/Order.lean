import Mathlib.Data.List.Perm.Basic
import Mathlib.Data.List.Sort
import RightLinear.Proofs.Automaton.File
import RightLinear.Proofs.File.Joined

/-!
# The order of lines in an automaton file

Lines act on an automaton that grows. A state is added by the first line that mentions
it, and a line that names an initial state undoes those before it. All the same, states
end up in the order of their ids, and moves and final states are gathered from all lines,
so only lines that name an initial state can get in each other's way. With one of them at
most, the lines may stand in any order.

A line that moves to the end of its text or away from it gains or loses its end, and one
with a carriage return at the end of the text loses that too when a line feed follows.
So a text is taken for any way of writing its lines down.

* `Text.Writes`: the ways to write lines down.
* `Holds.rearranged`: what is read from the same lines in another order.
* `Directive.isInitialLine`: lines that name an initial state.
* `Automaton.agrees_of_perm`, `Automaton.flags_eq_of_perm`: lines applied in another order.
* `Automaton.read_rearranged`: files.
-/

namespace RightLinear

open Text (lines isRuleLine)

/-! ## Lines written down -/

namespace Text

variable {text : List Char} {l : List (List Char)}

/-- The text consists of these lines, each with a line feed or with a carriage return and
a line feed after it, unless it is the last. -/
inductive Writes : List (List Char) → List Char → Prop
  | nil : Writes [] []
  | last {line : List Char} : '\n' ∉ line → Writes [line] line
  | more {line ending rest : List Char} {l : List (List Char)} :
    '\n' ∉ line → ending = [] ∨ ending = ['\r'] → Writes l rest →
    Writes (line :: l) (line ++ ending ++ '\n' :: rest)

/-- A text consists of its lines. -/
theorem writes_lines (text : List Char) : Writes (lines text) text := by
  induction text using split_induction '\n' with
  | @last line unbroken =>
    by_cases empty : line = []
    · rw [empty]
      exact .nil
    · rw [lines_singleton empty unbroken]
      exact .last unbroken
  | @more line rest unbroken ih =>
    obtain ⟨first, taken, ends⟩ := @exists_lines_append line rest unbroken
    rw [taken]
    rcases ends with rfl | rfl
    · have written : Writes (line :: lines rest) (line ++ [] ++ '\n' :: rest) :=
        .more unbroken (Or.inl rfl) ih
      rwa [List.append_nil] at written
    · exact .more (fun mem => unbroken (List.mem_append_left _ mem)) (Or.inr rfl) ih

end Text

section

variable {α : Type} {read : List Char → Except Fault α} {text other : List Char}
  {l m : List (List Char)} (overlooks : ∀ line, read (line ++ ['\r']) = read line)

include overlooks

/-- Lines are answered alike in every text that consists of them. -/
theorem Text.Writes.entries_lines (writes : Text.Writes l text) {first : Nat} :
    entries read first (lines text) = entries read first l := by
  rw [RightLinear.entries_lines overlooks]
  induction writes generalizing first with
  | nil => rfl
  | last unbroken => rw [List.splitOn_eq_singleton unbroken]
  | @more line ending rest l unbroken ends _ ih =>
    have unbrokenEnded : '\n' ∉ line ++ ending := by
      rcases ends with rfl | rfl
      · simpa using unbroken
      · simpa using unbroken
    have sameShown : isRuleLine (line ++ ending) = isRuleLine line := by
      rcases ends with rfl | rfl
      · rw [List.append_nil]
      · exact Text.isRuleLine_concat_blank rfl line
    have sameRead : read (line ++ ending) = read line := by
      rcases ends with rfl | rfl
      · rw [List.append_nil]
      · exact overlooks line
    rw [List.splitOn_append_cons_self_of_not_mem unbrokenEnded, entries_cons, entries_cons, ih,
      sameShown, sameRead]

theorem Text.Writes.holds_iff (writes : Text.Writes l text) {said : List α} :
    Holds read text said ↔ (l.filter isRuleLine).map read = said.map .ok := by
  have items := congrArg (List.map Text.Numbered.item)
    (@Text.Writes.entries_lines α read text l overlooks writes 1)
  rw [map_item_entries, map_item_entries] at items
  rw [Holds, items]

/-- The same lines say the same in another order. -/
theorem Holds.rearranged (written : Text.Writes l text) (writtenOther : Text.Writes m other)
    (rearranged : l.Perm m) {said : List α} (holds : Holds read text said) :
    ∃ retold, Holds read other retold ∧ said.Perm retold := by
  rw [written.holds_iff overlooks] at holds
  have answers : ((m.filter isRuleLine).map read).Perm (said.map .ok) :=
    holds ▸ ((rearranged.filter _).map read).symm
  have told := congrFun₂ (List.eq_map_comp_perm (Except.ok (ε := Fault)))
    ((m.filter isRuleLine).map read) said
  obtain ⟨retold, isRead, perm⟩ := told.mpr answers
  exact ⟨retold, (writtenOther.holds_iff overlooks).mpr isRead, perm.symm⟩

end

/-! ## Lines that name an initial state -/

namespace Directive

variable {line : List Char} {d : Directive}

/-- Whether the first word of a line is the one that announces the initial state. -/
def isInitialLine (line : List Char) : Bool :=
  (Text.words (spaceOut (Text.stripComment line))).head? = some "initial".toList

/-- No other line names an initial state. -/
theorem isInitialLine_of_read (isRead : read line = .ok d) (named : d.start?.isSome) :
    isInitialLine line := by
  have wording := wording_of_ofWords isRead
  rw [isInitialLine]
  generalize Text.words (spaceOut (Text.stripComment line)) = words at wording
  cases wording with
  | initial _ => exact decide_eq_true rfl
  | state _ => cases named
  | final _ => cases named
  | transition _ _ _ _ => cases named

end Directive

/-- A text names no more initial states than it has lines for that. -/
theorem Holds.length_filterMap_start?_le {text : List Char} {said : List Directive}
    (holds : Holds Directive.read text said) :
    (said.filterMap Directive.start?).length ≤ (lines text).countP Directive.isInitialLine := by
  -- whether an answer names an initial state
  let names : Except Fault Directive → Bool := fun answer =>
    answer.toOption.any fun d => d.start?.isSome
  have answers : (said.filterMap Directive.start?).length =
      (((lines text).filter isRuleLine).map Directive.read).countP names := by
    rw [holds, List.countP_map, List.length_filterMap_eq_countP]
    rfl
  rw [answers, List.countP_map, List.countP_filter]
  refine List.countP_mono_left fun line _ named => ?_
  obtain ⟨named, _⟩ := Bool.and_eq_true_iff.mp named
  cases isRead : Directive.read line with
  | error fault =>
    rw [Function.comp_apply, isRead] at named
    cases named
  | ok d =>
    rw [Function.comp_apply, isRead] at named
    exact Directive.isInitialLine_of_read isRead named

/-! ## Lines applied in another order -/

namespace Automaton

section

variable {said retold : List Directive} (perm : said.Perm retold)
  (single : (said.filterMap Directive.start?).length ≤ 1)

include perm

/-- States are listed by their ids, whatever line mentions them first. -/
theorem ids_eq_of_perm :
    (ofDirectives said).states.map State.id = (ofDirectives retold).states.map State.id := by
  refine List.Pairwise.eq_of_mem_iff ascending_ofDirectives ascending_ofDirectives fun id => ?_
  rw [← declares_iff_mem_ids, ← declares_iff_mem_ids]
  simp only [declares_ofDirectives, perm.mem_iff]

include single

theorem getLast?_start?_of_perm :
    (said.filterMap Directive.start?).getLast? = (retold.filterMap Directive.start?).getLast? := by
  have starts := perm.filterMap Directive.start?
  rcases Nat.le_one_iff_eq_zero_or_eq_one.mp single with none | one
  · rw [List.length_eq_zero_iff] at none
    rw [none] at starts ⊢
    rw [← starts.nil_eq]
  · obtain ⟨id, one⟩ := List.length_eq_one_iff.mp one
    rw [one] at starts ⊢
    rw [List.singleton_perm.mp starts]

theorem agrees_of_perm : (ofDirectives said).Agrees (ofDirectives retold) where
  isStart q := by
    rw [isStart_ofDirectives, isStart_ofDirectives, getLast?_start?_of_perm perm single]
  joins p c q := by simp only [joins_ofDirectives, perm.mem_iff]
  isFinal q := by simp only [isFinal_ofDirectives, perm.mem_iff]

theorem flags_eq_of_perm : (ofDirectives said).flags = (ofDirectives retold).flags := by
  have agrees := agrees_of_perm perm single
  refine flags_eq_of_ids ascending_ofDirectives.nodup (ids_eq_of_perm perm) (fun q => ?_)
    agrees.isFinal
  rw [startsAt_ofDirectives.mem_initialFlags_iff, startsAt_ofDirectives.mem_initialFlags_iff]
  exact agrees.isStart q

end

/-! ## Files -/

/-- With at most one line whose first word announces the initial state, the lines of a
file may be put in any order. Either order can be read if the other can, and then it gives
the same states, the same of them initial and final, and an automaton that accepts the same
words. -/
theorem read_rearranged (text other : List Char) (m : List (List Char))
    (rearranged : (lines text).Perm m) (written : Text.Writes m other)
    (single : (lines text).countP Directive.isInitialLine ≤ 1) :
    ((∃ A, read text = .ok A) ↔ ∃ B, read other = .ok B) ∧
    ∀ A B, read text = .ok A → read other = .ok B →
      A.flags = B.flags ∧ ∀ w, A.accepts w = B.accepts w := by
  have overlooks := Directive.read_concat_blank (c := '\r') rfl
  have retell : ∀ {said : List Directive}, Holds Directive.read text said →
      ∃ retold, Holds Directive.read other retold ∧ said.Perm retold :=
    Holds.rearranged overlooks (Text.writes_lines text) written rearranged
  refine ⟨⟨fun h => ?_, fun h => ?_⟩, fun A B isRead isReadOther => ?_⟩
  · obtain ⟨A, isRead⟩ := h
    obtain ⟨said, holds, rfl⟩ := read_eq_ok.mp isRead
    obtain ⟨retold, holdsOther, _⟩ := retell holds
    exact ⟨_, read_eq_ok.mpr ⟨retold, holdsOther, rfl⟩⟩
  · obtain ⟨B, isRead⟩ := h
    obtain ⟨said, holds, rfl⟩ := read_eq_ok.mp isRead
    obtain ⟨retold, holdsText, _⟩ :=
      holds.rearranged overlooks written (Text.writes_lines text) rearranged.symm
    exact ⟨_, read_eq_ok.mpr ⟨retold, holdsText, rfl⟩⟩
  · obtain ⟨said, holds, rfl⟩ := read_eq_ok.mp isRead
    obtain ⟨retold, holdsOther, perm⟩ := retell holds
    have same : B = ofDirectives retold := by
      rw [read_eq_ok.mpr ⟨retold, holdsOther, rfl⟩] at isReadOther
      exact (Except.ok.inj isReadOther).symm
    have atMostOne := Nat.le_trans holds.length_filterMap_start?_le single
    rw [same]
    exact ⟨flags_eq_of_perm perm atMostOne, (agrees_of_perm perm atMostOne).accepts⟩

/-- A file from its last line to its first, with other line ends: its states are declared by
other lines, and the initial one is named last. -/
theorem read_rearranged_of_reversed :
    let text := "initial 1\n1 -> 0 : a\nfinal 0 2 ; both\n\n0->2:b,c\r".toList
    let other := "0->2:b,c\r\n\nfinal 0 2 ; both\r\n1 -> 0 : a\ninitial 1".toList
    let A := ofDirectives [.initial 1, .transition 1 0 ['a'], .final [0, 2],
      .transition 0 2 ['b', 'c']]
    let B := ofDirectives [.transition 0 2 ['b', 'c'], .final [0, 2], .transition 1 0 ['a'],
      .initial 1]
    (lines text).countP Directive.isInitialLine = 1 ∧ Text.Writes (lines text).reverse other ∧
      read text = .ok A ∧ read other = .ok B ∧ A.flags = B.flags ∧
      ∀ w, A.accepts w = B.accepts w := by
  intro text other A B
  have single : (lines text).countP Directive.isInitialLine = 1 := by decide
  have reversed : (lines text).reverse = ["0->2:b,c\r".toList, [], "final 0 2 ; both".toList,
      "1 -> 0 : a".toList, "initial 1".toList] := by decide
  have written : Text.Writes (lines text).reverse other := by
    rw [reversed]
    exact @Text.Writes.more "0->2:b,c\r".toList [] _ _ (by decide) (Or.inl rfl) <|
      @Text.Writes.more [] [] _ _ (by decide) (Or.inl rfl) <|
      @Text.Writes.more "final 0 2 ; both".toList ['\r'] _ _ (by decide) (Or.inr rfl) <|
      @Text.Writes.more "1 -> 0 : a".toList [] _ _ (by decide) (Or.inl rfl) <|
      @Text.Writes.last "initial 1".toList (by decide)
  have isRead : read text = .ok A := rfl
  have isReadOther : read other = .ok B := rfl
  obtain ⟨_, same⟩ := read_rearranged text other _ (List.reverse_perm _).symm written
    (Nat.le_of_eq single)
  obtain ⟨flags, accepts⟩ := same A B isRead isReadOther
  exact ⟨single, written, isRead, isReadOther, flags, accepts⟩

end Automaton

end RightLinear
