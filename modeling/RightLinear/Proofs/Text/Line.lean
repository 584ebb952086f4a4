import Mathlib.Algebra.Ring.Nat
import Mathlib.Data.List.Forall2
import Mathlib.Data.List.TakeWhile
import RightLinear.Fault

/-!
# Lines that are put together and taken apart

A file that is written line by line is read line by line: a line without line ends
in it comes back as it was, and so do words with blanks between them. Numbers of
lines only serve reports, so a file that can be read is described by the list of
its lines alone.

* `Text.lines_flatMap_newline`: the lines of a written text.
* `Text.words_append`: the first word of a line.
* `Holds`, `exists_readLines_iff`: what all lines of a text say.
* `Holds.sum_le`: items weigh no more than their text if no line's item does.
* `holds_flatMap`: what a written text says.
-/

namespace RightLinear

namespace Text

/-! ## Letters and digits -/

section

variable {c : Char}

theorem isAlphanum_of_isUpper (upper : c.isUpper) : c.isAlphanum := by
  delta Char.isAlphanum Char.isAlpha
  rw [upper, Bool.true_or, Bool.true_or]

theorem isAlphanum_of_isLower (lower : c.isLower) : c.isAlphanum := by
  delta Char.isAlphanum Char.isAlpha
  rw [lower, Bool.or_true, Bool.true_or]

theorem isAlphanum_of_isDigit (digit : c.isDigit) : c.isAlphanum := by
  delta Char.isAlphanum
  rw [digit, Bool.or_true]

end

/-! ## Lines -/

theorem lines_append_newline {line rest : List Char} (oneLine : ∀ c ∈ line, c ≠ '\n' ∧ c ≠ '\r') :
    lines (line ++ '\n' :: rest) = line :: lines rest := by
  induction line with
  | nil => rfl
  | cons c line ih =>
    obtain ⟨notFeed, notReturn⟩ := oneLine c List.mem_cons_self
    have onward := ih fun d mem => oneLine d (List.mem_cons_of_mem c mem)
    rw [List.cons_append, lines, if_neg notFeed, if_neg (by simp [notReturn]), onward]

/-- Lines without line ends in them, each ended by a line feed, are the lines of the
text they make. -/
theorem lines_flatMap_newline {l : List (List Char)}
    (oneLine : ∀ line ∈ l, ∀ c ∈ line, c ≠ '\n' ∧ c ≠ '\r') :
    lines (l.flatMap (· ++ ['\n'])) = l := by
  induction l with
  | nil => rfl
  | cons line l ih =>
    rw [List.flatMap_cons, List.append_assoc, List.singleton_append,
      lines_append_newline (oneLine line List.mem_cons_self),
      ih fun other mem => oneLine other (List.mem_cons_of_mem line mem)]

/-- The lines of a text hold no more characters of a kind than the text. -/
theorem sum_countP_lines_le (counts : Char → Bool) (text : List Char) :
    ((lines text).map (List.countP counts)).sum ≤ text.countP counts := by
  fun_induction lines text with
  | case1 => exact Nat.le_refl 0
  | case2 rest ih =>
    simp only [List.map_cons, List.countP_nil, List.sum_cons, List.countP_cons]
    omega
  | case3 c rest _ _ ih =>
    rw [List.countP_cons]
    omega
  | case4 c rest _ _ none ih =>
    simp only [List.map_cons, List.map_nil, List.sum_cons, List.sum_nil, List.countP_cons,
      List.countP_nil]
    omega
  | case5 c rest _ _ line others some ih =>
    rw [some] at ih
    simp only [List.map_cons, List.sum_cons, List.countP_cons] at ih ⊢
    omega

/-! ## Comments and blank lines -/

theorem stripComment_eq_self {line : List Char} (uncommented : ∀ c ∈ line, c ≠ ';') :
    stripComment line = line := by
  rw [stripComment, List.takeWhile_eq_self_iff]
  simpa using uncommented

/-- A comment is cut off where it begins. -/
theorem stripComment_append_comment {line : List Char} (uncommented : ';' ∉ line)
    (comment : List Char) : stripComment (line ++ ';' :: comment) = line := by
  have known : ∀ c ∈ line, decide (c ≠ ';') = true := fun c mem =>
    decide_eq_true (ne_of_mem_of_not_mem mem uncommented)
  rw [stripComment, List.takeWhile_append_of_pos known, List.takeWhile_cons_of_neg (by simp),
    List.append_nil]

theorem ne_semicolon_of_mem_stripComment {line : List Char} {c : Char}
    (mem : c ∈ stripComment line) : c ≠ ';' := by
  simpa using List.mem_takeWhile_imp mem

theorem countP_stripComment_le (counts : Char → Bool) (line : List Char) :
    (stripComment line).countP counts ≤ line.countP counts :=
  (List.takeWhile_prefix _).sublist.countP_le

theorem isRuleLine_of_mem {line : List Char} {c : Char} (mem : c ∈ stripComment line)
    (shown : isBlank c = false) : isRuleLine line = true :=
  List.any_eq_true.mpr ⟨c, mem, by rw [shown]; rfl⟩

theorem map_item_ruleLines (text : List Char) :
    (ruleLines text).map Numbered.item = (lines text).filter isRuleLine := by
  rw [ruleLines, List.map_map]
  have unnumbered : Numbered.item ∘ (fun line : List Char × Nat => ⟨line.2, line.1⟩) = Prod.fst :=
    rfl
  have numbered := List.filter_map (p := isRuleLine) (f := Prod.fst) (l := (lines text).zipIdx 1)
  rw [List.zipIdx_map_fst] at numbered
  rw [unnumbered, numbered]
  rfl

/-! ## Words -/

theorem words_blank {c : Char} {rest : List Char} (blank : isBlank c = true) :
    words (c :: rest) = words rest := by
  rw [words, if_pos blank]

/-- A run of characters that are not blank, before a blank or the end, is the first
word. -/
theorem words_append {word rest : List Char} (nonempty : word ≠ [])
    (shown : ∀ c ∈ word, isBlank c = false) (gap : rest.head?.all isBlank = true) :
    words (word ++ rest) = word :: words rest := by
  induction word with
  | nil => exact absurd rfl nonempty
  | cons c word ih =>
    have shownFirst := shown c List.mem_cons_self
    cases word with
    | nil =>
      rw [List.singleton_append, words, if_neg (by rw [shownFirst]; exact Bool.false_ne_true),
        if_pos gap]
    | cons d word =>
      have shownRest := fun e mem => shown e (List.mem_cons_of_mem c mem)
      have follows : ¬ (d :: word ++ rest).head?.all isBlank = true := by
        rw [List.cons_append, List.head?_cons, Option.all_some, shownRest d List.mem_cons_self]
        exact Bool.false_ne_true
      rw [List.cons_append, words, if_neg (by rw [shownFirst]; exact Bool.false_ne_true),
        if_neg follows, ih (List.cons_ne_nil d word) shownRest]

end Text

/-! ## Lowercase letters and digits -/

/-- A lowercase letter or digit of ASCII. -/
def IsLetter (c : Char) : Prop := c.isLower ∨ c.isDigit

instance (c : Char) : Decidable (IsLetter c) := inferInstanceAs (Decidable (c.isLower ∨ c.isDigit))

theorem IsLetter.isAlphanum {c : Char} (letter : IsLetter c) : c.isAlphanum := by
  rcases letter with lower | digit
  · exact Text.isAlphanum_of_isLower lower
  · exact Text.isAlphanum_of_isDigit digit

theorem IsLetter.not_isUpper {c : Char} (letter : IsLetter c) : ¬ c.isUpper := by
  delta IsLetter Char.isLower Char.isDigit at letter
  delta Char.isUpper
  simp only [Bool.and_eq_true, decide_eq_true_eq, ge_iff_le, UInt32.le_iff_toNat_le] at letter ⊢
  have bounds : 'Z'.val.toNat = 90 ∧ 'a'.val.toNat = 97 ∧ 'A'.val.toNat = 65 ∧ '9'.val.toNat = 57 :=
    ⟨rfl, rfl, rfl, rfl⟩
  omega

/-! ## Pieces of a text -/

/-- A list is taken apart at its separators, the first one first. -/
@[elab_as_elim]
theorem split_induction {α : Type} [DecidableEq α] (separator : α) {P : List α → Prop}
    (last : ∀ {piece}, separator ∉ piece → P piece)
    (more : ∀ {piece rest}, separator ∉ piece → P rest → P (piece ++ separator :: rest))
    (l : List α) : P l := by
  by_cases separated : separator ∈ l
  · obtain ⟨piece, rest, split, unseparated⟩ := List.eq_append_cons_of_mem separated
    rw [split]
    exact more unseparated (split_induction separator last more rest)
  · exact last separated
termination_by l.length
decreasing_by
  rw [split, List.length_append, List.length_cons]
  omega

/-- What stands in pieces with separators between them stands in a separator or in
a piece. -/
theorem mem_of_mem_intercalate {α : Type} {separator : List α} {pieces : List (List α)} {a : α}
    (mem : a ∈ separator.intercalate pieces) : a ∈ separator ∨ ∃ piece ∈ pieces, a ∈ piece := by
  induction pieces with
  | nil => cases mem
  | cons piece rest ih =>
    cases rest with
    | nil =>
      rw [List.intercalate_singleton] at mem
      exact Or.inr ⟨piece, List.mem_cons_self, mem⟩
    | cons next rest =>
      rw [List.intercalate_cons_cons, List.mem_append, List.mem_append] at mem
      rcases mem with (first | between) | later
      · exact Or.inr ⟨piece, List.mem_cons_self, first⟩
      · exact Or.inl between
      · refine (ih later).imp_right fun found => ?_
        obtain ⟨other, inRest, mem⟩ := found
        exact ⟨other, List.mem_cons_of_mem _ inRest, mem⟩

/-! ## Results that may be faults -/

section

variable {ε α β : Type} {x : Except ε α} {b : β}

theorem map_eq_ok {f : α → β} : f <$> x = .ok b ↔ ∃ a, x = .ok a ∧ f a = b := by
  cases x <;> simp [Functor.map, Except.map]

theorem bind_eq_ok {f : α → Except ε β} : x >>= f = .ok b ↔ ∃ a, x = .ok a ∧ f a = .ok b := by
  cases x <;> simp [bind, Except.bind]

end

/-! ## Reading all lines -/

section

open Text (Numbered lines isRuleLine ruleLines)

variable {α : Type} {read : List Char → Except Fault α}

/-- Items are read from all lines if no line has a fault. -/
theorem exists_filterMap_iff {l : List (Numbered (List Char))} {said : List α} :
    ((l.filterMap fun line => match read line.item with
        | .ok _ => none
        | .error fault => some (⟨line.line, fault⟩ : Numbered Fault)) = [] ∧
      (l.filterMap fun line => match read line.item with
        | .ok item => some (⟨line.line, item⟩ : Numbered α)
        | .error _ => none).map Numbered.item = said) ↔
      (l.map fun line => read line.item) = said.map .ok := by
  induction l generalizing said with
  | nil => simp [eq_comm]
  | cons line l ih =>
    cases isRead : read line.item with
    | error fault =>
      simp only [List.filterMap_cons, isRead, List.map_cons]
      refine ⟨fun h => absurd h.1 (List.cons_ne_nil _ _), fun h => ?_⟩
      cases said with
      | nil => cases h
      | cons a said => cases (List.cons.inj h).1
    | ok a =>
      simp only [List.filterMap_cons, isRead, List.map_cons]
      cases said with
      | nil => simp
      | cons b said =>
        rw [List.map_cons, List.cons.injEq, List.cons.injEq, ← ih, Except.ok.injEq]
        exact and_left_comm

/-- The lines of a text that hold something are read as these items, one by one. -/
def Holds (read : List Char → Except Fault α) (text : List Char) (said : List α) : Prop :=
  ((lines text).filter isRuleLine).map read = said.map .ok

/-- A text is read if every line that counts tells an item, and the items are those. -/
theorem exists_readLines_iff {text : List Char} {said : List α} :
    (∃ items, readLines read text = .ok items ∧ items.map Numbered.item = said) ↔
      Holds read text said := by
  rw [Holds, ← Text.map_item_ruleLines, List.map_map]
  refine Iff.trans ?_ (@exists_filterMap_iff _ read (ruleLines text) said)
  rw [readLines]
  split
  · next none =>
    refine ⟨fun h => ?_, fun h => ⟨_, rfl, h.2⟩⟩
    obtain ⟨items, same, said⟩ := h
    cases same
    exact ⟨none, said⟩
  · next some =>
    refine ⟨fun h => ?_, fun h => absurd h.1 some⟩
    obtain ⟨_, absurd, _⟩ := h
    cases absurd

theorem Holds.exists_line {text : List Char} {said : List α} (holds : Holds read text said) {a : α}
    (mem : a ∈ said) : ∃ line ∈ lines text, read line = .ok a := by
  have isRead : Except.ok a ∈ ((lines text).filter isRuleLine).map read := by
    rw [holds]
    exact List.mem_map_of_mem mem
  obtain ⟨line, inLines, isRead⟩ := List.mem_map.mp isRead
  exact ⟨line, List.mem_of_mem_filter inLines, isRead⟩

/-- What the items of a text weigh, the text weighs, if this is so line by line. -/
theorem Holds.sum_le {text : List Char} {said : List α} {weight : α → Nat} {counts : Char → Bool}
    (each : ∀ {line a}, read line = .ok a → weight a ≤ line.countP counts)
    (holds : Holds read text said) : (said.map weight).sum ≤ text.countP counts := by
  refine Nat.le_trans ?_ (Text.sum_countP_lines_le counts text)
  rw [Holds] at holds
  generalize lines text = l at holds
  induction l generalizing said with
  | nil =>
    rw [List.filter_nil, List.map_nil, eq_comm, List.map_eq_nil_iff] at holds
    rw [holds]
    exact Nat.le_refl 0
  | cons line l ih =>
    rw [List.map_cons, List.sum_cons]
    by_cases shown : isRuleLine line = true
    · rw [List.filter_cons_of_pos shown, List.map_cons, eq_comm, List.map_eq_cons_iff] at holds
      obtain ⟨first, rest, rfl, isRead, holds⟩ := holds
      have here := each isRead.symm
      have later := ih holds.symm
      rw [List.map_cons, List.sum_cons]
      omega
    · rw [List.filter_cons_of_neg shown] at holds
      have later := ih holds
      omega

/-- The faults with which a text is refused, none if it can be read. -/
def faultsIn {β : Type} : Except Faults β → Faults
  | .ok _ => []
  | .error faults => faults

theorem faultsIn_map {β : Type} (f : α → β) (result : Except Faults α) :
    faultsIn (f <$> result) = faultsIn result := by
  cases result with
  | ok _ => rfl
  | error _ => rfl

theorem faultsIn_readLines (read : List Char → Except Fault α) (text : List Char) :
    faultsIn (readLines read text) = faultsOf read text := by
  rw [readLines]
  split
  · next none => exact none.symm
  · rfl

theorem eq_error_of_faultsIn {result : Except Faults α} {faults : Faults}
    (refused : faultsIn result = faults) (some : faults ≠ []) : result = .error faults := by
  cases result with
  | ok _ => exact absurd refused.symm some
  | error _ => exact congrArg Except.error refused

/-- A line that says something and can stand in a text among others. -/
structure Tells (read : List Char → Except Fault α) (line : List Char) (a : α) : Prop where
  reads : read line = .ok a
  shown : isRuleLine line = true
  oneLine : ∀ c ∈ line, c ≠ '\n' ∧ c ≠ '\r'

/-- A text that is written line by line is read line by line. -/
theorem holds_flatMap {l : List (List Char)} {said : List α}
    (tells : List.Forall₂ (Tells read) l said) : Holds read (l.flatMap (· ++ ['\n'])) said := by
  have oneLine : ∀ line ∈ l, ∀ c ∈ line, c ≠ '\n' ∧ c ≠ '\r' := by
    induction tells with
    | nil => exact fun _ mem => absurd mem List.not_mem_nil
    | cons first _ ih =>
      intro line mem
      rcases List.mem_cons.mp mem with rfl | later
      · exact first.oneLine
      · exact ih line later
  rw [Holds, Text.lines_flatMap_newline oneLine]
  clear oneLine
  induction tells with
  | nil => rfl
  | cons first _ ih =>
    rw [List.filter_cons_of_pos first.shown, List.map_cons, List.map_cons, first.reads, ih]

end

end RightLinear
