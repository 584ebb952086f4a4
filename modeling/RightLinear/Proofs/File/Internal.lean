import RightLinear.Proofs.Automaton.File
import RightLinear.Proofs.Rule.File

/-!
# Faults of the reader itself

Two faults say that the reader went wrong, not the file: a line without words that was
read all the same, and alternatives that were not split. Lines are left out beforehand if
they hold nothing, but that is decided on the line as it stands, and the reader of an
automaton line puts blanks in place of the commas first. So a line of commas is kept and
then found blank. Nothing else goes wrong: a rule line that is kept has a token, and the
tokens between two bars hold no bar.

* `BlamesFile`: whose fault it is when reading fails.
* `Rule.blamesFile_read`, `Directive.read_eq_blankLine_iff`: one line.
* `internal_faults`: whole files.
-/

namespace RightLinear

open Text (lines isRuleLine stripComment)

/-- The fault is a problem of the reader, not of the file. -/
inductive Fault.IsInternal : Fault → Prop
  | blankLine : IsInternal blankLine
  | unsplitAlternatives : IsInternal unsplitAlternatives

/-- If reading fails, the file is to blame. -/
inductive BlamesFile {α : Type} : Except Fault α → Prop
  | ok (a : α) : BlamesFile (.ok a)
  | error {fault : Fault} : ¬ fault.IsInternal → BlamesFile (.error fault)

namespace BlamesFile

variable {α β : Type} {result : Except Fault α}

theorem not_isInternal {fault : Fault} (blames : BlamesFile result)
    (failed : result = .error fault) : ¬ fault.IsInternal := by
  subst failed
  cases blames with
  | error external => exact external

theorem map (blames : BlamesFile result) (f : α → β) : BlamesFile (f <$> result) := by
  cases blames with
  | ok a => exact ok (f a)
  | error external => exact error external

theorem bind {f : α → Except Fault β} (blames : BlamesFile result)
    (onward : ∀ a, BlamesFile (f a)) : BlamesFile (result >>= f) := by
  cases blames with
  | ok a => exact onward a
  | error external => exact error external

theorem elim {found : Option α} {fault : Fault} (external : ¬ fault.IsInternal) :
    BlamesFile (found.elim (.error fault) .ok) := by
  cases found with
  | none => exact error external
  | some a => exact ok a

end BlamesFile

/-! ## Rule lines -/

/-- A fault that is found in reading tokens is the fault of the file. -/
theorem Token.blamesFile_read (line : List Char) : BlamesFile (read line) := by
  fun_induction read line with
  | case1 => exact .ok []
  | case2 rest ih => exact ih.map _
  | case3 rest _ ih => exact ih.map _
  | case4 rest _ _ => exact .error (by rintro ⟨⟩)
  | case5 rest _ _ ih => exact ih.map _
  | case6 rest _ _ _ ih => exact ih.map _
  | case7 quote rest _ _ _ _ _ none => exact .error (by rintro ⟨⟩)
  | case8 quote rest _ _ _ _ _ d after found ih => exact ih.map _
  | case9 d rest _ _ _ _ _ _ ih => exact ih.map _
  | case10 d rest _ _ _ _ _ _ _ ih => exact ih
  | case11 d rest _ _ _ _ _ _ _ => exact .error (by rintro ⟨⟩)

/-- A line without tokens holds only blanks. -/
theorem Token.isBlank_of_line_nil {line : List Char} {tokens : List Token}
    (spelled : Line line tokens) (none : tokens = []) : ∀ c ∈ line, Text.isBlank c := by
  induction spelled with
  | nil => exact fun c mem => absurd mem List.not_mem_nil
  | blank blank _ ih => exact List.forall_mem_cons.mpr ⟨blank, ih none⟩
  | token _ _ _ _ => cases none

theorem Body.blamesFile_read (text : List Char) : BlamesFile (Body.read text) := by
  unfold Body.read
  dsimp only
  split
  · exact .ok _
  · split
    · exact .ok _
    · split
      · exact .error nofun
      · exact .ok _

namespace Rule

/-- Between bars there is no bar, so the case that is none of the file does not occur. -/
theorem blamesFile_text {tokens : List Token} (unbarred : Token.bar ∉ tokens) :
    BlamesFile (Rule.text tokens) := by
  induction tokens with
  | nil => exact .ok []
  | cons token tokens ih =>
    rw [List.mem_cons, not_or] at unbarred
    obtain ⟨notBar, unbarred⟩ := unbarred
    cases token with
    | separator => exact .error nofun
    | bar => exact absurd rfl notBar
    | empty => exact ih unbarred
    | word word => exact (ih unbarred).map _

/-- No alternative holds a bar, so none is found to be unsplit. -/
theorem blamesFile_readBodies (tokens : List Token) :
    BlamesFile (readBodies (alternatives tokens)) := by
  have first : ∀ {tokens : List Token} {rest : List (List Token)}, Token.bar ∉ tokens →
      BlamesFile (readBodies rest) → BlamesFile (readBodies (tokens :: rest)) := by
    intro tokens rest unbarred onward
    rw [readBodies]
    refine (blamesFile_text unbarred).bind fun text => ?_
    refine (Body.blamesFile_read text).bind fun body => ?_
    exact onward.bind fun bodies => .ok (body :: bodies)
  induction tokens using split_induction Token.bar with
  | last unbarred =>
    rw [alternatives_of_not_mem unbarred]
    exact first unbarred (.ok [])
  | more unbarred ih =>
    rw [alternatives_append_bar unbarred]
    exact first unbarred ih

theorem blamesFile_ofTokens {tokens : List Token} (some : tokens ≠ []) :
    BlamesFile (ofTokens tokens) := by
  unfold ofTokens
  split
  · exact absurd rfl some
  · split
    · split
      · exact (blamesFile_readBodies _).map _
      · exact .error nofun
    · exact .error nofun
  · exact .error nofun

/-- A rule line that is not left out has a token. -/
theorem blamesFile_read {line : List Char} (shown : isRuleLine line) :
    BlamesFile (Rule.read line) := by
  cases isRead : Token.read (stripComment line) with
  | error fault =>
    rw [Rule.read, isRead]
    exact .error ((Token.blamesFile_read _).not_isInternal isRead)
  | ok tokens =>
    rw [read_of_tokens isRead]
    refine blamesFile_ofTokens fun none => ?_
    obtain ⟨c, mem, notBlank⟩ := List.any_eq_true.mp shown
    have blank := Token.isBlank_of_line_nil (Token.read_eq_ok.mp isRead) none c mem
    rw [blank] at notBlank
    cases notBlank

end Rule

/-! ## Automaton lines -/

/-- Only a text of blanks has no words. -/
theorem Text.words_eq_nil_iff {text : List Char} : words text = [] ↔ ∀ c ∈ text, isBlank c := by
  induction text with
  | nil => exact iff_of_true rfl fun c mem => absurd mem List.not_mem_nil
  | cons c rest ih =>
    rw [List.forall_mem_cons]
    by_cases blank : isBlank c
    · rw [words_blank blank, ih, and_iff_right blank]
    · refine iff_of_false (fun none => ?_) fun all => blank all.1
      rw [words, if_neg blank] at none
      split at none
      · cases none
      · split at none
        · cases none
        · cases none

namespace Directive

variable {line : List Char}

/-- Commas are blanks to the reader, and of the other signs something is left. -/
theorem isBlank_spaceOut_iff {text : List Char} :
    (∀ c ∈ spaceOut text, Text.isBlank c) ↔ ∀ c ∈ text, Text.isBlank c ∨ c = ',' := by
  fun_induction spaceOut text with
  | case1 =>
    exact iff_of_true (fun c mem => absurd mem List.not_mem_nil)
      (fun c mem => absurd mem List.not_mem_nil)
  | case2 rest ih =>
    refine iff_of_false (fun all => ?_) fun all => ?_
    · exact absurd (all '-' (by simp)) (by decide)
    · exact absurd (all '-' List.mem_cons_self) (by decide)
  | case3 rest _ ih =>
    refine iff_of_false (fun all => ?_) fun all => ?_
    · exact absurd (all ':' (by simp)) (by decide)
    · exact absurd (all ':' List.mem_cons_self) (by decide)
  | case4 rest _ _ ih =>
    rw [List.forall_mem_cons, List.forall_mem_cons, ih]
    exact and_congr (iff_of_true rfl (Or.inr rfl)) Iff.rfl
  | case5 c rest _ _ notComma ih =>
    rw [List.forall_mem_cons, List.forall_mem_cons, ih, or_iff_left notComma]

theorem blamesFile_readId (word : List Char) : BlamesFile (readId word) := .elim nofun

theorem blamesFile_readCoordinate (word : List Char) : BlamesFile (readCoordinate word) :=
  .elim nofun

theorem blamesFile_readIds (words : List (List Char)) : BlamesFile (readIds words) := by
  induction words with
  | nil => exact .ok []
  | cons word rest ih =>
    rw [readIds]
    exact (blamesFile_readId word).bind fun id => ih.bind fun ids => .ok (id :: ids)

theorem blamesFile_readSymbols : ∀ words : List (List Char), BlamesFile (readSymbols words)
  | [] => .ok []
  | [] :: _ => .error nofun
  | [_] :: rest => (blamesFile_readSymbols rest).map _
  | (_ :: _ :: _) :: _ => .error nofun

theorem blamesFile_readState (words : List (List Char)) : BlamesFile (readState words) := by
  unfold readState
  split
  · exact .error nofun
  · exact (blamesFile_readId _).map _
  · exact (blamesFile_readId _).bind fun _ => .error nofun
  · exact (blamesFile_readId _).bind fun _ => (blamesFile_readCoordinate _).bind fun _ =>
      (blamesFile_readCoordinate _).bind fun _ => .ok _

theorem blamesFile_readInitial (words : List (List Char)) : BlamesFile (readInitial words) := by
  unfold readInitial
  split
  · exact .error nofun
  · exact (blamesFile_readId _).map _

theorem blamesFile_readFinal (words : List (List Char)) : BlamesFile (readFinal words) := by
  unfold readFinal
  split
  · exact .error nofun
  · exact (blamesFile_readIds _).map _

/-- A transition line is only ever refused for what it says. -/
theorem blamesFile_readTransition (source : List Char) (words : List (List Char)) :
    BlamesFile (readTransition source words) := by
  unfold readTransition
  refine (blamesFile_readId source).bind fun id => ?_
  split
  · split
    · exact .error nofun
    · refine (blamesFile_readId _).bind fun target => ?_
      split
      · refine (blamesFile_readSymbols _).bind fun symbols => ?_
        split
        · exact .error nofun
        · exact .ok _
      · exact .error nofun
  · exact .error nofun

/-- Once there is a word the line cannot be blank, which is the other case that is none of the
file. -/
theorem blamesFile_ofWords {words : List (List Char)} (some : words ≠ []) :
    BlamesFile (ofWords words) := by
  unfold ofWords
  split
  · exact absurd rfl some
  · split
    · exact blamesFile_readState _
    · split
      · exact blamesFile_readInitial _
      · split
        · exact blamesFile_readFinal _
        · split
          · exact blamesFile_readTransition _ _
          · exact .error nofun

/-- A line is found blank by the reader if it holds nothing but blanks and commas. -/
theorem read_eq_blankLine_iff :
    Directive.read line = .error .blankLine ↔
      ∀ c ∈ stripComment line, Text.isBlank c ∨ c = ',' := by
  rw [← isBlank_spaceOut_iff, ← Text.words_eq_nil_iff, Directive.read]
  refine ⟨fun refused => ?_, fun none => by rw [none]; rfl⟩
  by_contra some
  exact (blamesFile_ofWords some).not_isInternal refused .blankLine

theorem read_ne_unsplitAlternatives : Directive.read line ≠ .error .unsplitAlternatives := by
  intro refused
  by_cases none : Text.words (spaceOut (stripComment line)) = []
  · rw [Directive.read, none] at refused
    cases refused
  · exact (blamesFile_ofWords none).not_isInternal refused .unsplitAlternatives

end Directive

/-! ## Files -/

/-- A fault is that of some line which is neither blank nor a comment, under its number. -/
theorem mem_faultsOf {α : Type} {read : List Char → Except Fault α} {text : List Char} {n : Nat}
    {fault : Fault} :
    ⟨n, fault⟩ ∈ faultsOf read text ↔
      ∃ line, (line, n) ∈ (lines text).zipIdx 1 ∧ isRuleLine line ∧ read line = .error fault := by
  simp only [faultsOf, Text.ruleLines, List.mem_filterMap, List.mem_map, List.mem_filter]
  refine ⟨fun h => ?_, fun h => ?_⟩
  · obtain ⟨_, ⟨⟨line, number⟩, ⟨listed, shown⟩, rfl⟩, refused⟩ := h
    dsimp only at refused
    split at refused
    · cases refused
    · next isFault =>
      cases refused
      exact ⟨line, listed, shown, isFault⟩
  · obtain ⟨line, listed, shown, refused⟩ := h
    exact ⟨_, ⟨_, ⟨listed, shown⟩, rfl⟩, by rw [refused]⟩

/-- No rule line is refused with a fault of the reader itself. A line of an automaton file
is, exactly if it holds commas and otherwise only blanks before its comment, and then it is
found blank. -/
theorem internal_faults (text : List Char) (n : Nat) :
    ⟨n, .blankLine⟩ ∉ faultsIn (Grammar.read text) ∧
    ⟨n, .unsplitAlternatives⟩ ∉ faultsIn (Grammar.read text) ∧
    ⟨n, .unsplitAlternatives⟩ ∉ faultsIn (Automaton.read text) ∧
    (⟨n, .blankLine⟩ ∈ faultsIn (Automaton.read text) ↔
      ∃ line, (line, n) ∈ (lines text).zipIdx 1 ∧ ',' ∈ stripComment line ∧
        ∀ c ∈ stripComment line, Text.isBlank c ∨ c = ',') := by
  have ruled : ∀ {fault : Fault}, fault.IsInternal →
      ⟨n, fault⟩ ∉ faultsIn (Grammar.read text) := by
    intro fault internal mem
    rw [Grammar.faultsIn_read] at mem
    obtain ⟨line, _, shown, refused⟩ := mem_faultsOf.mp mem
    exact (Rule.blamesFile_read shown).not_isInternal refused internal
  refine ⟨ruled .blankLine, ruled .unsplitAlternatives, fun mem => ?_, ?_⟩
  · rw [Automaton.faultsIn_read] at mem
    obtain ⟨line, _, _, refused⟩ := mem_faultsOf.mp mem
    exact Directive.read_ne_unsplitAlternatives refused
  · rw [Automaton.faultsIn_read, mem_faultsOf]
    refine exists_congr fun line => and_congr_right fun _ => ?_
    rw [Directive.read_eq_blankLine_iff]
    refine and_congr_left fun all => ⟨fun shown => ?_, fun comma => ?_⟩
    · obtain ⟨c, mem, notBlank⟩ := List.any_eq_true.mp shown
      rcases all c mem with blank | rfl
      · rw [blank] at notBlank
        cases notBlank
      · exact mem
    · exact Text.isRuleLine_of_mem comma rfl

/-- A comma alone on its line. -/
theorem faultsIn_read_of_comma :
    faultsIn (Automaton.read ",\n".toList) = [⟨1, .blankLine⟩] := rfl

end RightLinear
