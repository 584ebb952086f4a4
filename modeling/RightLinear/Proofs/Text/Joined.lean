import RightLinear.Proofs.Text.Line

/-!
# Texts with a line feed between them

Every line is read on its own, so two texts with a line feed between them are read like
one text after the other, the second with its line numbers raised. Only the end of the
first text is delicate. A carriage return there belongs to the last line as long as
nothing follows, and to the end of that line once a line feed does. Then the text may
also end in an empty line that it did not have before. Neither makes a difference to a
reader that overlooks blanks at the end of a line.

* `entries`, `entries_lines`: the answers to all lines, taken from the pieces of a text
  between its line feeds.
* `faultsOf_joined`, `Holds.joined`: the faults and the items of a joined text.
* `pairwise_faultsOf`: faults stand in the order of their lines.
-/

namespace RightLinear

namespace Text

/-! ## The lines of a joined text -/

variable {line rest text : List Char} {c : Char}

/-- A text without a line break is a single line. -/
theorem lines_singleton (nonempty : line ≠ []) (unbroken : '\n' ∉ line) : lines line = [line] := by
  induction line with
  | nil => exact absurd rfl nonempty
  | cons c line ih =>
    rw [List.mem_cons, not_or] at unbroken
    obtain ⟨notFeed, unbroken⟩ := unbroken
    have noFeedNext : line.head? ≠ some '\n' := fun atHead =>
      unbroken (List.mem_of_mem_head? atHead)
    rw [lines, if_neg fun same => notFeed same.symm, if_neg (by simp [noFeedNext])]
    cases line with
    | nil => rfl
    | cons d line => rw [ih (List.cons_ne_nil d line) unbroken]

/-- The first line of a text with a line feed is what stands before it, except for a
carriage return at its end. -/
theorem exists_lines_append (unbroken : '\n' ∉ line) :
    ∃ first, lines (line ++ '\n' :: rest) = first :: lines rest ∧
      (line = first ∨ line = first ++ ['\r']) := by
  induction line with
  | nil => exact ⟨[], rfl, Or.inl rfl⟩
  | cons c line ih =>
    rw [List.mem_cons, not_or] at unbroken
    obtain ⟨notFeed, unbroken⟩ := unbroken
    obtain ⟨first, taken, ends⟩ := ih unbroken
    rw [List.cons_append, lines, if_neg fun same => notFeed same.symm]
    split
    · next ended =>
      rw [Bool.and_eq_true, decide_eq_true_eq, decide_eq_true_eq] at ended
      obtain ⟨rfl, feedNext⟩ := ended
      cases line with
      | nil => exact ⟨[], rfl, Or.inr rfl⟩
      | cons d line =>
        obtain rfl : d = '\n' := by simpa using feedNext
        exact absurd List.mem_cons_self unbroken
    · rw [taken]
      refine ⟨c :: first, rfl, ?_⟩
      rcases ends with rfl | rfl
      · exact Or.inl rfl
      · exact Or.inr rfl

theorem length_splitOn_newline (text : List Char) :
    (text.splitOn '\n').length = text.count '\n' + 1 := by
  induction text using split_induction '\n' with
  | last unbroken =>
    rw [List.splitOn_eq_singleton unbroken, List.count_eq_zero.mpr unbroken]
    rfl
  | more unbroken ih =>
    rw [List.splitOn_append_cons_self_of_not_mem unbroken, List.length_cons, ih,
      List.count_append, List.count_eq_zero.mpr unbroken, List.count_cons_self, Nat.zero_add]

/-! ## A blank at the end of a line -/

theorem ne_of_isBlank {d : Char} (blank : isBlank c) (shown : isBlank d = false) : c ≠ d := by
  rintro rfl
  rw [shown] at blank
  cases blank

/-- A character at the end of a line is part of its comment or comes last before it. -/
theorem stripComment_concat (uncommented : c ≠ ';') (line : List Char) :
    stripComment (line ++ [c]) = stripComment line ∨
      stripComment (line ++ [c]) = stripComment line ++ [c] := by
  by_cases commented : ';' ∈ line
  · refine Or.inl ?_
    obtain ⟨before, after, rfl, unlike⟩ := List.eq_append_cons_of_mem commented
    rw [List.append_assoc, List.cons_append, stripComment_append_comment unlike,
      stripComment_append_comment unlike]
  · refine Or.inr ?_
    have unlike : ∀ d ∈ line, d ≠ ';' := fun d mem same => commented (same ▸ mem)
    rw [stripComment_eq_self unlike, stripComment_eq_self]
    intro d mem
    rcases List.mem_append.mp mem with old | last
    · exact unlike d old
    · rw [List.mem_singleton.mp last]
      exact uncommented

/-- What is read from a line without its comment is read without a blank at its end. -/
theorem stripComment_concat_blank {β : Type} {read : List Char → β}
    (overlooks : ∀ line, read (line ++ [c]) = read line) (blank : isBlank c) (line : List Char) :
    read (stripComment (line ++ [c])) = read (stripComment line) := by
  rcases stripComment_concat (ne_of_isBlank blank rfl) line with same | last
  · rw [same]
  · rw [last, overlooks]

theorem isRuleLine_concat_blank (blank : isBlank c) (line : List Char) :
    isRuleLine (line ++ [c]) = isRuleLine line :=
  @stripComment_concat_blank c Bool (fun line => line.any fun c => !isBlank c)
    (fun line => by simp [blank]) blank line

/-- Something so many lines further down. -/
def Numbered.raise {α : Type} (amount : Nat) (entry : Numbered α) : Numbered α :=
  ⟨entry.line + amount, entry.item⟩

end Text

open Text (Numbered lines isRuleLine ruleLines)

/-! ## The answers to all lines -/

variable {α : Type}

/-- What lines are answered with, from the line number `first` on. -/
def entries (read : List Char → Except Fault α) (first : Nat) (l : List (List Char)) :
    List (Numbered (Except Fault α)) :=
  ((l.zipIdx first).filter fun line => isRuleLine line.1).map fun line => ⟨line.2, read line.1⟩

/-- The fault of a line, at its number. -/
def fault? (entry : Numbered (Except Fault α)) : Option (Numbered Fault) :=
  match entry.item with
  | .ok _ => none
  | .error fault => some ⟨entry.line, fault⟩

section

variable {read : List Char → Except Fault α} {first amount : Nat} {l m : List (List Char)}
  {text other : List Char}

theorem entries_cons {line : List Char} :
    entries read first (line :: l) =
      (if isRuleLine line then [⟨first, read line⟩] else []) ++ entries read (first + 1) l := by
  rw [entries, entries, List.zipIdx_cons, List.filter_cons]
  split
  · rfl
  · rfl

theorem entries_append :
    entries read first (l ++ m) = entries read first l ++ entries read (first + l.length) m := by
  rw [entries, List.zipIdx_append, List.filter_append, List.map_append, entries, entries]

theorem entries_raise :
    entries read (first + amount) l = (entries read first l).map (·.raise amount) := by
  induction l generalizing first with
  | nil => rfl
  | cons line l ih =>
    rw [entries_cons, entries_cons, List.map_append, ← ih, Nat.add_right_comm]
    split
    · rfl
    · rfl

theorem map_item_entries :
    (entries read first l).map Numbered.item = (l.filter isRuleLine).map read := by
  induction l generalizing first with
  | nil => rfl
  | cons line l ih =>
    rw [entries_cons, List.map_append, ih, List.filter_cons]
    split
    · rfl
    · rfl

theorem pairwise_entries :
    (entries read first l).Pairwise fun entry later => entry.line < later.line := by
  have numbers : (l.zipIdx first).Pairwise fun line later => line.2 < later.2 := by
    rw [← List.pairwise_map, List.zipIdx_map_snd]
    exact List.pairwise_lt_range'
  exact List.pairwise_map.mpr (numbers.filter _)

theorem faultsOf_eq_filterMap :
    faultsOf read text = (entries read 1 (lines text)).filterMap fault? := by
  rw [faultsOf, ruleLines, entries, List.filterMap_map, List.filterMap_map]
  rfl

/-- Faults stand in the order of their lines, one on each line at most. -/
theorem pairwise_faultsOf (read : List Char → Except Fault α) (text : List Char) :
    (faultsOf read text).Pairwise fun fault later => fault.line < later.line := by
  have line : ∀ {entry : Numbered (Except Fault α)} {fault : Numbered Fault},
      fault? entry = some fault → fault.line = entry.line := by
    intro entry fault found
    rw [fault?] at found
    split at found
    · cases found
    · cases found
      rfl
  rw [faultsOf_eq_filterMap]
  refine pairwise_entries.filterMap _ fun entry later lt fault found other foundLater => ?_
  rw [line found, line foundLater]
  exact lt

/-- A text of a single line is answered as this line. -/
theorem entries_singleton {line : List Char} (shown : isRuleLine line) (unbroken : '\n' ∉ line) :
    entries read 1 (lines line) = [⟨1, read line⟩] := by
  have nonempty : line ≠ [] := by
    rintro rfl
    cases shown
  rw [Text.lines_singleton nonempty unbroken, entries_cons, if_pos shown]
  rfl

theorem holds_singleton {line : List Char} {a : α} (isRead : read line = .ok a)
    (shown : isRuleLine line) (unbroken : '\n' ∉ line) : Holds read line [a] := by
  have single := congrArg (List.map Numbered.item)
    (@entries_singleton α read line shown unbroken)
  rw [map_item_entries] at single
  rw [Holds, single, List.map_singleton, List.map_singleton, isRead]

theorem faultsOf_singleton {line : List Char} {fault : Fault} (refused : read line = .error fault)
    (shown : isRuleLine line) (unbroken : '\n' ∉ line) : faultsOf read line = [⟨1, fault⟩] := by
  rw [faultsOf_eq_filterMap, entries_singleton shown unbroken, refused]
  rfl

/-! ## The answers to a joined text -/

variable (overlooks : ∀ line, read (line ++ ['\r']) = read line)

include overlooks

/-- Lines are answered like the pieces of their text between line feeds. -/
theorem entries_lines :
    entries read first (lines text) = entries read first (text.splitOn '\n') := by
  induction text using split_induction '\n' generalizing first with
  | @last line unbroken =>
    rw [List.splitOn_eq_singleton unbroken]
    by_cases empty : line = []
    · rw [empty]
      rfl
    · rw [Text.lines_singleton empty unbroken]
  | @more line rest unbroken ih =>
    obtain ⟨shown, taken, ends⟩ := @Text.exists_lines_append line rest unbroken
    have sameShown : isRuleLine shown = isRuleLine line := by
      rcases ends with rfl | rfl
      · rfl
      · exact (Text.isRuleLine_concat_blank rfl shown).symm
    have sameRead : read shown = read line := by
      rcases ends with rfl | rfl
      · rfl
      · exact (overlooks shown).symm
    rw [taken, List.splitOn_append_cons_self_of_not_mem unbroken, entries_cons, entries_cons, ih,
      sameShown, sameRead]

theorem entries_joined :
    entries read 1 (lines (text ++ '\n' :: other)) =
      entries read 1 (lines text) ++
        (entries read 1 (lines other)).map (·.raise (text.count '\n' + 1)) := by
  rw [entries_lines overlooks, entries_lines overlooks, entries_lines overlooks,
    List.splitOn_append_cons_self, entries_append, Text.length_splitOn_newline, entries_raise]

/-- The faults of a joined text are those of its first part and those of its second, which
begins as many lines further down as the first has line feeds, and one more. -/
theorem faultsOf_joined :
    faultsOf read (text ++ '\n' :: other) =
      faultsOf read text ++ (faultsOf read other).map (·.raise (text.count '\n' + 1)) := by
  have raised : ∀ entry : Numbered (Except Fault α), fault? (entry.raise (text.count '\n' + 1)) =
      (fault? entry).map (·.raise (text.count '\n' + 1)) := by
    rintro ⟨line, item⟩
    cases item with
    | ok _ => rfl
    | error _ => rfl
  rw [faultsOf_eq_filterMap, faultsOf_eq_filterMap, faultsOf_eq_filterMap,
    entries_joined overlooks, List.filterMap_append, List.filterMap_map, List.map_filterMap]
  exact congrArg _ (List.filterMap_congr fun entry _ => raised entry)

/-- What the two parts of a joined text say is said by the whole, one after the other. -/
theorem Holds.joined {said more : List α} (holds : Holds read text said)
    (holdsMore : Holds read other more) : Holds read (text ++ '\n' :: other) (said ++ more) := by
  have joined := congrArg (List.map Numbered.item)
    (@entries_joined α read text other overlooks)
  have unraised : Numbered.item ∘ Numbered.raise (text.count '\n' + 1) =
      (Numbered.item : Numbered (Except Fault α) → _) := rfl
  rw [List.map_append, List.map_map, unraised, map_item_entries, map_item_entries,
    map_item_entries] at joined
  rw [Holds, joined, holds, holdsMore, List.map_append]

end

end RightLinear
