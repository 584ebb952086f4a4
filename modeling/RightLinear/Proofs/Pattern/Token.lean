import RightLinear.Pattern.Text
import RightLinear.Pattern.Token

/-!
# Reading tokens one after another

A token never reaches beyond a closing parenthesis or a bar that follows the text it
was read from: neither a count nor a bracketed set nor a lazy mark takes one in. So a
pattern that can be read on its own is read the same inside a group and as a branch.

* `Pattern.EndsBranch`: the two marks.
* `Pattern.Token.readAll?_append`: reading on behind such a mark.
* `Pattern.Token.feasible_of_readAll?`: the counts of tokens are feasible.
* `Pattern.Token.readAll?_escapeChar`: an escaped character is read as itself.
-/

namespace RightLinear.Pattern

variable {c mark : Char} {text rest more : List Char}

/-! ## Behind a closing parenthesis or a bar -/

/-- A mark that ends the branch before it. -/
def EndsBranch (mark : Char) : Prop := mark = ')' ∨ mark = '|'

namespace EndsBranch

theorem ne (ends : EndsBranch mark) (closing : c ≠ ')' := by decide)
    (bar : c ≠ '|' := by decide) : mark ≠ c := by
  rcases ends with rfl | rfl
  · exact closing.symm
  · exact bar.symm

theorem eq_false {P : Char → Bool} (ends : EndsBranch mark)
    (closing : P ')' = false := by decide) (bar : P '|' = false := by decide) :
    P mark = false := by
  rcases ends with rfl | rfl
  · exact closing
  · exact bar

end EndsBranch

section Stop

variable {P : Char → Bool}

theorem takeWhile_append_stop (stop : P c = false) :
    (text ++ c :: more).takeWhile P = text.takeWhile P := by
  rw [List.takeWhile_append, List.takeWhile_cons_of_neg (by rw [stop]; exact Bool.false_ne_true)]
  split
  · next all => rw [List.append_nil, (List.takeWhile_prefix P).eq_of_length all]
  · rfl

theorem dropWhile_append_stop (stop : P c = false) :
    (text ++ c :: more).dropWhile P = text.dropWhile P ++ c :: more := by
  rw [List.dropWhile_append, List.dropWhile_cons_of_neg (by rw [stop]; exact Bool.false_ne_true)]
  split
  · next none => rw [List.isEmpty_iff.mp none]; rfl
  · rfl

end Stop

theorem classChar?_append {d : Char} (h : classChar? text = some (d, rest)) :
    classChar? (text ++ more) = some (d, rest ++ more) := by
  unfold classChar? at h
  split at h
  · cases h
  · split at h
    · cases h
    · obtain ⟨e, escaped, same⟩ := Option.map_eq_some_iff.mp h
      cases same
      simp [classChar?, escaped]
  · cases h
    simp [classChar?]

section EndsBranch

variable (ends : EndsBranch mark)

include ends

theorem dropLazy_append : dropLazy (text ++ mark :: more) = dropLazy text ++ mark :: more := by
  cases text with
  | nil =>
    have lazy : mark ≠ '?' := ends.ne
    simp [dropLazy, lazy]
  | cons d text =>
    by_cases lazy : d = '?'
    · rw [lazy]
      rfl
    · simp [dropLazy, lazy]

theorem decimal_append :
    decimal (text ++ mark :: more) = ((decimal text).1, (decimal text).2 ++ mark :: more) := by
  have blank : Text.isBlank mark = false := ends.eq_false
  have digit : Char.isDigit mark = false := ends.eq_false
  simp only [decimal, dropWhile_append_stop blank, dropWhile_append_stop digit,
    takeWhile_append_stop digit]

/-- A count that is read from a text is read from the longer text as well. -/
theorem count?_append {count : Count} (h : count? text = some (count, rest)) :
    count? (text ++ mark :: more) = some (count, rest ++ mark :: more) := by
  unfold count? at h ⊢
  rw [decimal_append ends]
  split at h
  · next eq => cases h; rw [eq]; rfl
  · next eq => cases h; rw [eq]; rfl
  · next least after other eq =>
    -- behind the comma comes a number, so this is not the count without a limit
    have stays : ∀ l, after ++ mark :: more = '\x7d' :: l → False := by
      intro l same
      cases after with
      | nil =>
        have closes : mark ≠ '\x7d' := ends.ne
        exact closes (List.cons.inj same).1
      | cons d after =>
        cases same
        exact other after rfl
    split at h
    · next limit closes =>
      split at h
      · next le =>
        cases h
        simp [eq, decimal_append ends, closes, le]
      · cases h
    · cases h
  · cases h

/-! ### Bracketed sets -/

/-- So is a range of a set, which ends before the mark that follows. -/
theorem classRange?_append {range : Char × Char} (h : classRange? text = some (range, rest)) :
    classRange? (text ++ mark :: more) = some (range, rest ++ mark :: more) := by
  unfold classRange? at h ⊢
  split at h
  · cases h
  · next low after first =>
    rw [classChar?_append first]
    dsimp only
    split at h
    · cases h; rfl
    · cases h; rfl
    · next after noBracket noHyphen =>
      split at h
      · cases h
      · next high last second =>
        split at h
        · next le =>
          cases h
          cases after with
          | nil => cases second
          | cons d after =>
            have bracket : d ≠ ']' := fun eq => noBracket after (eq ▸ rfl)
            have hyphen : d ≠ '-' := fun eq => noHyphen after (eq ▸ rfl)
            have second : classChar? (d :: (after ++ mark :: more)) =
                some (high, rest ++ mark :: more) := classChar?_append second
            simp [second, le, bracket, hyphen]
        · cases h
    · next plain =>
      cases h
      cases rest with
      | nil =>
        have hyphen : mark ≠ '-' := ends.ne
        simp [hyphen]
      | cons d after =>
        have hyphen : d ≠ '-' := fun eq => plain after (by rw [eq])
        simp [hyphen]

/-- Whether a set begins with one of the combinations that are refused can be told from its first
characters. -/
theorem startsCombination_append (some : text ≠ []) :
    startsCombination (text ++ mark :: more) = startsCombination text := by
  have two (d e : Char) (l : List Char) :
      startsCombination (d :: e :: l) =
        (d = '&' && e = '&' || d = '-' && e = '-' || d = '~' && e = '~') := by
    unfold startsCombination
    split <;> simp_all
  cases text with
  | nil => exact absurd rfl some
  | cons d text =>
    cases text with
    | nil =>
      have ampersand : mark ≠ '&' := ends.ne
      have hyphen : mark ≠ '-' := ends.ne
      have tilde : mark ≠ '~' := ends.ne
      simp [startsCombination, ampersand, hyphen, tilde]
    | cons e text => rw [List.cons_append, List.cons_append, two, two]

/-- So are all ranges of a set, up to the bracket that closes it. -/
theorem classRanges?_append {ranges : List (Char × Char)}
    (h : classRanges? text = some (ranges, rest)) :
    classRanges? (text ++ mark :: more) = some (ranges, rest ++ mark :: more) := by
  fun_induction classRanges? text generalizing ranges with
  | case1 => cases h; simp [classRanges?]
  | case2 => cases h
  | case3 => cases h
  | case4 => cases h
  | case5 text noClosing noOpening single range after item ih =>
    obtain ⟨found, eq, same⟩ := Option.map_eq_some_iff.mp h
    cases same
    cases text with
    | nil => cases item
    | cons d text =>
      have closing : d ≠ ']' := fun eq => noClosing text (by rw [eq])
      have opening : d ≠ '[' := fun eq => noOpening text (by rw [eq])
      have single : startsCombination (d :: (text ++ mark :: more)) = false :=
        (startsCombination_append ends (List.cons_ne_nil d text)).trans
          (Bool.eq_false_iff.mpr single)
      have item : classRange? (d :: (text ++ mark :: more)) =
          some (range, after ++ mark :: more) := classRange?_append ends item
      rw [List.cons_append]
      rw [classRanges?]
      · rw [single, if_neg Bool.false_ne_true]
        split
        · next none => cases item.symm.trans none
        · next some =>
          cases item.symm.trans some
          rw [ih eq]
          rfl
      · exact fun l same => closing (List.cons.inj same).1
      · exact fun l same => opening (List.cons.inj same).1

theorem dropCaret_append : dropCaret (text ++ mark :: more) = dropCaret text ++ mark :: more := by
  cases text with
  | nil =>
    have caret : mark ≠ '^' := ends.ne
    simp [dropCaret, caret]
  | cons d text =>
    by_cases caret : d = '^'
    · rw [caret]
      rfl
    · simp [dropCaret, caret]

/-- The brackets and hyphens at the beginning of a set do not reach into what follows. -/
theorem leading_append :
    leading (text ++ mark :: more) = ((leading text).1, (leading text).2 ++ mark :: more) := by
  have hyphen : mark ≠ '-' := ends.ne
  have stop : decide (mark = '-') = false := decide_eq_false hyphen
  cases text with
  | nil =>
    have bracket : mark ≠ ']' := ends.ne
    simp [leading, bracket, hyphen]
  | cons d text =>
    by_cases bracket : d = ']'
    · rw [bracket]
      rfl
    · have plain (l : List Char) : leading (d :: l) =
          ((d :: l).takeWhile (· = '-'), (d :: l).dropWhile (· = '-')) := by
        simp [leading, bracket]
      rw [plain, List.cons_append, plain, ← List.cons_append, takeWhile_append_stop stop,
        dropWhile_append_stop stop]

/-- A set that is read from a text is read from the longer text as well. -/
theorem class?_append {set : Class} (h : class? text = some (set, rest)) :
    class? (text ++ mark :: more) = some (set, rest ++ mark :: more) := by
  have eq (text : List Char) : class? text =
      (classRanges? (leading (dropCaret text)).2).map fun found =>
        (⟨text.head? = some '^', (leading (dropCaret text)).1.map (fun c => (c, c)) ++ found.1⟩,
          found.2) := rfl
  have caret : decide ((text ++ mark :: more).head? = some '^') =
      decide (text.head? = some '^') := by
    cases text with
    | nil =>
      have caret : mark ≠ '^' := ends.ne
      simp [caret]
    | cons d text => rfl
  rw [eq] at h ⊢
  rw [dropCaret_append ends, leading_append ends, caret]
  obtain ⟨found, ranges, same⟩ := Option.map_eq_some_iff.mp h
  cases same
  rw [classRanges?_append ends ranges]
  rfl

end EndsBranch

namespace Token

/-! ### Tokens -/

theorem ofEscape?_append {token : Token} (h : ofEscape? text = some (token, rest)) :
    ofEscape? (text ++ more) = some (token, rest ++ more) := by
  unfold ofEscape? at h
  split at h
  · cases h
  · next d rest =>
    obtain ⟨e, escaped, same⟩ := Option.map_eq_some_iff.mp h
    cases same
    simp [ofEscape?, escaped]

theorem readAll?_nil : readAll? [] = some [] := by
  rw [readAll?]

theorem readAll?_cons {token : Token} (h : next? c text = some (token, rest)) :
    readAll? (c :: text) = (readAll? rest).map (token :: ·) := by
  rw [readAll?]
  split
  · next none => cases h.symm.trans none
  · next some =>
    cases h.symm.trans some
    rfl

section EndsBranch

variable (ends : EndsBranch mark)

include ends

/-- What an opening parenthesis is read as does not depend on what follows the text. -/
theorem ofGroup?_append {token : Token} (h : ofGroup? text = some (token, rest)) :
    ofGroup? (text ++ mark :: more) = some (token, rest ++ mark :: more) := by
  unfold ofGroup? at h
  split at h
  · cases h; rfl
  · cases h
  · next marked =>
    cases h
    cases text with
    | nil =>
      have plain : mark ≠ '?' := ends.ne
      simp [ofGroup?, plain]
    | cons d text =>
      have plain : d ≠ '?' := fun eq => marked text (by rw [eq])
      simp [ofGroup?, plain]

/-- A token that is read from a text is read from the longer text as well. -/
theorem next?_append {token : Token} (h : next? c text = some (token, rest)) :
    next? c (text ++ mark :: more) = some (token, rest ++ mark :: more) := by
  unfold next? at h ⊢
  split at h
  case h_1 => exact ofGroup?_append ends h
  case h_7 =>
    obtain ⟨found, eq, same⟩ := Option.map_eq_some_iff.mp h
    cases same
    simp only [count?_append ends eq, dropLazy_append ends, Option.map_some]
  case h_8 =>
    obtain ⟨found, eq, same⟩ := Option.map_eq_some_iff.mp h
    cases same
    simp only [class?_append ends eq, Option.map_some]
  case h_12 => exact ofEscape?_append h
  all_goals
    cases h
    simp only [dropLazy_append ends]

theorem readAll?_append {tokens : List Token} (h : readAll? text = some tokens) :
    readAll? (text ++ mark :: more) = (readAll? (mark :: more)).map (tokens ++ ·) := by
  fun_induction readAll? text generalizing tokens with
  | case1 =>
    cases h
    simp
  | case2 => cases h
  | case3 c text token rest next ih =>
    obtain ⟨found, eq, rfl⟩ := Option.map_eq_some_iff.mp h
    rw [List.cons_append, readAll?_cons (next?_append ends next), ih eq, Option.map_map]
    rfl

end EndsBranch

/-! ## Counts -/

end Token

/-- Some number of repetitions is allowed. -/
def Count.Feasible (count : Count) : Prop := ∀ most, count.most = some most → count.least ≤ most

/-- If the token repeats anything, then as often as is possible. -/
def Token.Feasible : Token → Prop
  | repeated count => count.Feasible
  | _ => True

/-- A count that is read asks for no more rounds than it allows. -/
theorem feasible_of_count? {count : Count} (h : count? text = some (count, rest)) :
    count.Feasible := by
  unfold count? at h
  split at h
  · cases h
    exact fun most limited => Nat.le_of_eq (Option.some.inj limited)
  · cases h
    exact fun most limited => nomatch limited
  · split at h
    · split at h
      · next le =>
        cases h
        exact fun most limited => Option.some.inj limited ▸ le
      · cases h
    · cases h
  · cases h

namespace Token

/-- Counts that can be read are feasible, and no other token has any. -/
theorem feasible_of_next? {token : Token} (h : next? c text = some (token, rest)) :
    token.Feasible := by
  have unlimited (least : Nat) : Count.Feasible ⟨least, none⟩ := fun _ limited => nomatch limited
  unfold next? at h
  split at h
  case h_1 =>
    unfold ofGroup? at h
    split at h <;> cases h <;> trivial
  case h_4 => cases h; exact unlimited 0
  case h_5 => cases h; exact unlimited 1
  case h_6 => cases h; exact fun _ _ => Nat.zero_le _
  case h_7 =>
    obtain ⟨found, eq, same⟩ := Option.map_eq_some_iff.mp h
    cases same
    exact feasible_of_count? eq
  case h_8 =>
    obtain ⟨found, -, same⟩ := Option.map_eq_some_iff.mp h
    cases same
    trivial
  case h_12 =>
    unfold ofEscape? at h
    split at h
    · cases h
    · obtain ⟨d, -, same⟩ := Option.map_eq_some_iff.mp h
      cases same
      trivial
  all_goals
    cases h
    trivial

theorem feasible_of_readAll? {tokens : List Token} (h : readAll? text = some tokens) :
    ∀ token ∈ tokens, token.Feasible := by
  fun_induction readAll? text generalizing tokens with
  | case1 =>
    cases h
    exact fun _ mem => absurd mem List.not_mem_nil
  | case2 => cases h
  | case3 c text token rest next ih =>
    obtain ⟨found, eq, rfl⟩ := Option.map_eq_some_iff.mp h
    exact List.forall_mem_cons.mpr ⟨feasible_of_next? next, ih eq⟩

/-! ## Escaped characters -/

/-- Whatever is escaped may be escaped, and stands for itself. -/
theorem escaped?_of_mem (special : c ∈ metacharacters) : escaped? c = some c := by
  have each : (metacharacters.all fun c => decide (escaped? c = some c)) = true := by decide
  exact of_decide_eq_true (List.all_eq_true.mp each c special)

/-- Whatever has a meaning in patterns is escaped. -/
theorem next?_of_not_mem (plain : c ∉ metacharacters) :
    next? c text = some (atom (.literal c), text) := by
  unfold next?
  split
  case h_13 => rfl
  all_goals exact absurd (by decide) plain

/-- An escaped character is read as the character itself, whichever it is. -/
theorem readAll?_escapeChar :
    readAll? (escapeChar c ++ text) = (readAll? text).map (atom (.literal c) :: ·) := by
  unfold escapeChar
  split
  · next special =>
    have escaped := escaped?_of_mem (List.contains_iff_mem.mp special)
    have read : next? '\\' (c :: text) = some (atom (.literal c), text) := by
      change ofEscape? (c :: text) = _
      rw [ofEscape?, escaped]
      rfl
    exact readAll?_cons read
  · next plain =>
    exact readAll?_cons (next?_of_not_mem (by simpa using plain))

end Token

end RightLinear.Pattern
