import RightLinear.Text.Blank

/-!
# Tokens of a pattern

A pattern is a sequence of groups, bars, repetitions and atoms. No token depends
on the tokens around it, so a pattern is cut into tokens before its groups are
matched up; an escape, a bracketed class or a count that is not complete makes
the pattern unreadable.

* `Atom`, `Count`, `Token`: what a pattern is made of.
* `Token.readAll?`: the tokens of a text.
-/

namespace RightLinear.Pattern

/-- A set of characters in brackets: ranges, with both ends, and whether the set
is everything outside of them. -/
structure Class where
  negated : Bool
  ranges : List (Char × Char)
deriving DecidableEq, Repr

/-- Whether a character belongs to a bracketed set. -/
def Class.contains (set : Class) (c : Char) : Bool :=
  set.negated != set.ranges.any fun range => range.1 ≤ c && c ≤ range.2

/-- What stands for at most one character. -/
inductive Atom where
  /-- A character that stands for itself. -/
  | literal (c : Char)
  /-- Any character but a line feed. -/
  | dot
  /-- A character of a bracketed set. -/
  | oneOf (set : Class)
  /-- The beginning of the text. -/
  | textStart
  /-- The end of the text. -/
  | textEnd
deriving DecidableEq, Repr

/-- How often something is repeated: at least so often, and at most so often if
there is a limit. -/
structure Count where
  least : Nat
  most : Option Nat
deriving DecidableEq, Repr

/-- A token of a pattern. -/
inductive Token where
  | opening
  | closing
  | bar
  | atom (atom : Atom)
  | repeated (count : Count)
deriving DecidableEq, Repr

/-! ## Escapes -/

/-- The control characters that have a letter of their own. -/
def controlEscape? : Char → Option Char
  | 'a' => some '\x07'
  | 'f' => some '\x0c'
  | 'n' => some '\n'
  | 'r' => some '\r'
  | 't' => some '\t'
  | 'v' => some '\x0b'
  | _ => none

/-- The character that an escaped character stands for: punctuation stands for
itself, some letters for control characters, and nothing else may be escaped. -/
def escaped? (c : Char) : Option Char :=
  if c.toNat < 128 && !c.isAlphanum && c ≠ '<' && c ≠ '>' then some c else controlEscape? c

/-! ## Bracketed sets -/

/-- One character of a bracketed set, escaped or plain, and what follows it. -/
def classChar? : List Char → Option (Char × List Char)
  | [] => none
  | '\\' :: rest =>
    match rest with
    | [] => none
    | c :: rest => (escaped? c).map (·, rest)
  | c :: rest => some (c, rest)

theorem length_classChar? {text rest : List Char} {c : Char}
    (h : classChar? text = some (c, rest)) : rest.length < text.length := by
  unfold classChar? at h
  split at h
  · cases h
  · split at h
    · cases h
    · obtain ⟨d, -, eq⟩ := Option.map_eq_some_iff.mp h
      cases eq
      simp only [List.length_cons]
      omega
  · cases h
    simp

/-- The range at the beginning of a text, and what follows it. A hyphen before a
closing bracket or before another hyphen does not join two characters. -/
def classRange? (text : List Char) : Option ((Char × Char) × List Char) :=
  match classChar? text with
  | none => none
  | some (low, rest) =>
    match rest with
    | '-' :: ']' :: _ | '-' :: '-' :: _ => some ((low, low), rest)
    | '-' :: rest =>
      match classChar? rest with
      | none => none
      | some (high, rest) => if low ≤ high then some ((low, high), rest) else none
    | rest => some ((low, low), rest)

/-- A range takes at least one character of the text. -/
theorem length_classRange? {text rest : List Char} {range : Char × Char}
    (h : classRange? text = some (range, rest)) : rest.length < text.length := by
  unfold classRange? at h
  split at h
  · cases h
  · next eq =>
    have first := length_classChar? eq
    split at h
    · cases h; exact first
    · cases h; exact first
    · split at h
      · cases h
      · next eq =>
        have second := length_classChar? eq
        split at h
        · cases h
          simp only [List.length_cons] at first
          omega
        · cases h
    · cases h; exact first

/-- Whether a text begins with one of the doubled marks that combine sets. Such
combinations are not read. -/
def startsCombination : List Char → Bool
  | '&' :: '&' :: _ | '-' :: '-' :: _ | '~' :: '~' :: _ => true
  | _ => false

/-- The ranges up to the closing bracket, and what follows the bracket. A further
opening bracket is not read. -/
def classRanges? (text : List Char) : Option (List (Char × Char) × List Char) :=
  match text with
  | ']' :: rest => some ([], rest)
  | '[' :: _ => none
  | text =>
    if startsCombination text then none
    else
      match _item : classRange? text with
      | none => none
      | some (range, rest) =>
        (classRanges? rest).map fun found => (range :: found.1, found.2)
termination_by text.length
decreasing_by exact length_classRange? _item

theorem length_classRanges? {text rest : List Char} {ranges : List (Char × Char)}
    (h : classRanges? text = some (ranges, rest)) : rest.length < text.length := by
  fun_induction classRanges? text generalizing ranges with
  | case1 rest => cases h; simp
  | case2 => cases h
  | case3 => cases h
  | case4 => cases h
  | case5 text _ _ _ range after item ih =>
    obtain ⟨found, eq, same⟩ := Option.map_eq_some_iff.mp h
    cases same
    exact Nat.lt_trans (ih eq) (length_classRange? item)

/-- What follows the caret that negates a set, if there is one. -/
def dropCaret : List Char → List Char
  | '^' :: text => text
  | text => text

theorem length_dropCaret_le (text : List Char) : (dropCaret text).length ≤ text.length := by
  unfold dropCaret
  split
  · simp
  · exact Nat.le_refl _

/-- The characters that stand for themselves only because they come first in a
set, a closing bracket or hyphens, and what follows them. -/
def leading : List Char → List Char × List Char
  | ']' :: text => ([']'], text)
  | text => (text.takeWhile (· = '-'), text.dropWhile (· = '-'))

theorem length_leading_le (text : List Char) : (leading text).2.length ≤ text.length := by
  unfold leading
  split
  · simp
  · exact (List.dropWhile_suffix _).length_le

/-- The bracketed set after an opening bracket, and what follows it. -/
def class? (text : List Char) : Option (Class × List Char) :=
  let (first, inner) := leading (dropCaret text)
  (classRanges? inner).map fun found =>
    (⟨text.head? = some '^', first.map (fun c => (c, c)) ++ found.1⟩, found.2)

theorem length_class? {text rest : List Char} {set : Class}
    (h : class? text = some (set, rest)) : rest.length < text.length := by
  obtain ⟨found, eq, same⟩ := Option.map_eq_some_iff.mp h
  cases same
  exact Nat.lt_of_lt_of_le (length_classRanges? eq)
    (Nat.le_trans (length_leading_le _) (length_dropCaret_le _))

/-! ## Counts -/

/-- Counts are below this bound. -/
def countBound : Nat := 0x100000000

/-- A decimal between blanks, if there is one, and what follows it. -/
def decimal (text : List Char) : Option Nat × List Char :=
  let text := text.dropWhile Text.isBlank
  let digits := text.takeWhile Char.isDigit
  let rest := (text.dropWhile Char.isDigit).dropWhile Text.isBlank
  let value := Nat.ofDigitChars 10 digits 0
  (if digits ≠ [] ∧ value < countBound then some value else none, rest)

/-- The count after an opening brace, and what follows its closing brace. -/
def count? (text : List Char) : Option (Count × List Char) :=
  match decimal text with
  | (some least, '\x7d' :: rest) => some (⟨least, some least⟩, rest)
  | (some least, ',' :: '\x7d' :: rest) => some (⟨least, none⟩, rest)
  | (some least, ',' :: rest) =>
    match decimal rest with
    | (some most, '\x7d' :: rest) =>
      if least ≤ most then some (⟨least, some most⟩, rest) else none
    | _ => none
  | _ => none

theorem length_decimal_le (text : List Char) : (decimal text).2.length ≤ text.length := by
  unfold decimal
  exact Nat.le_trans (List.dropWhile_suffix _).length_le
    (Nat.le_trans (List.dropWhile_suffix _).length_le (List.dropWhile_suffix _).length_le)

/-- A count takes at least the brace that closes it. -/
theorem length_count? {text rest : List Char} {count : Count}
    (h : count? text = some (count, rest)) : rest.length < text.length := by
  have outer := length_decimal_le text
  unfold count? at h
  split at h
  · next eq => cases h; rw [eq, List.length_cons] at outer; omega
  · next eq => cases h; rw [eq, List.length_cons, List.length_cons] at outer; omega
  · next after _ eq =>
    rw [eq, List.length_cons] at outer
    have inner := length_decimal_le after
    split at h
    · next eq =>
      split at h
      · cases h; rw [eq, List.length_cons] at inner; omega
      · cases h
    · cases h
  · cases h

/-! ## Tokens -/

/-- What follows a repetition, without the mark that makes it lazy. -/
def dropLazy : List Char → List Char
  | '?' :: rest => rest
  | rest => rest

theorem length_dropLazy_le (text : List Char) : (dropLazy text).length ≤ text.length := by
  unfold dropLazy
  split
  · simp
  · exact Nat.le_refl _

namespace Token

/-- The token that an opening parenthesis begins. Of the groups that begin with a
question mark only the one that captures nothing is read. -/
def ofGroup? : List Char → Option (Token × List Char)
  | '?' :: ':' :: rest => some (opening, rest)
  | '?' :: _ => none
  | rest => some (opening, rest)

/-- The token that a backslash begins. -/
def ofEscape? : List Char → Option (Token × List Char)
  | [] => none
  | c :: rest => (escaped? c).map fun c => (atom (.literal c), rest)

/-- The token that a character begins, and what follows it. -/
def next? (c : Char) (rest : List Char) : Option (Token × List Char) :=
  match c with
  | '(' => ofGroup? rest
  | ')' => some (closing, rest)
  | '|' => some (bar, rest)
  | '*' => some (repeated ⟨0, none⟩, dropLazy rest)
  | '+' => some (repeated ⟨1, none⟩, dropLazy rest)
  | '?' => some (repeated ⟨0, some 1⟩, dropLazy rest)
  | '\x7b' => (count? rest).map fun found => (repeated found.1, dropLazy found.2)
  | '[' => (class? rest).map fun found => (atom (.oneOf found.1), found.2)
  | '.' => some (atom .dot, rest)
  | '^' => some (atom .textStart, rest)
  | '$' => some (atom .textEnd, rest)
  | '\\' => ofEscape? rest
  | c => some (atom (.literal c), rest)

theorem length_ofGroup? {text rest : List Char} {token : Token}
    (h : ofGroup? text = some (token, rest)) : rest.length ≤ text.length := by
  unfold ofGroup? at h
  split at h
  · cases h; simp only [List.length_cons]; omega
  · cases h
  · cases h; exact Nat.le_refl _

theorem length_ofEscape? {text rest : List Char} {token : Token}
    (h : ofEscape? text = some (token, rest)) : rest.length ≤ text.length := by
  unfold ofEscape? at h
  split at h
  · cases h
  · obtain ⟨_, -, eq⟩ := Option.map_eq_some_iff.mp h
    cases eq
    simp

/-- Whatever a token needs besides its first character is taken from the rest of the text. -/
theorem length_next? {c : Char} {text rest : List Char} {token : Token}
    (h : next? c text = some (token, rest)) : rest.length ≤ text.length := by
  unfold next? at h
  split at h
  case h_1 => exact length_ofGroup? h
  case h_7 =>
    obtain ⟨found, eq, same⟩ := Option.map_eq_some_iff.mp h
    cases same
    exact Nat.le_of_lt (Nat.lt_of_le_of_lt (length_dropLazy_le _) (length_count? eq))
  case h_8 =>
    obtain ⟨found, eq, same⟩ := Option.map_eq_some_iff.mp h
    cases same
    exact Nat.le_of_lt (length_class? eq)
  case h_12 => exact length_ofEscape? h
  all_goals
    cases h
    first
      | exact Nat.le_refl _
      | exact length_dropLazy_le _

/-- The tokens of a text. -/
def readAll? : List Char → Option (List Token)
  | [] => some []
  | c :: text =>
    match _token : next? c text with
    | none => none
    | some (token, rest) => (readAll? rest).map (token :: ·)
termination_by text => text.length
decreasing_by exact Nat.lt_succ_of_le (length_next? _token)

end Token

end RightLinear.Pattern
