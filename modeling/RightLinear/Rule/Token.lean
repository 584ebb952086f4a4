import RightLinear.Fault

/-!
# Tokens of a rule line

A rule line is a sequence of words, separators and bars. A word is a run of
ASCII letters and digits, or any text between two equal quotes; `ε` and empty
quotes stand for the empty word.

* `Token`: the tokens.
* `Token.read`: the tokens of a line without its comment, or its first fault.
-/

namespace RightLinear

/-- A token of a rule line. -/
inductive Token where
  /-- The separator `->` or `=` between a nonterminal and its alternatives. -/
  | separator
  /-- The bar between two alternatives. -/
  | bar
  /-- The empty word, written `ε` or as empty quotes. -/
  | empty
  /-- A nonempty word. -/
  | word (text : List Char)
deriving DecidableEq, Repr

namespace Token

/-- Whether a character opens and closes quoted text. -/
def isQuote (c : Char) : Bool := c = '\x22' || c = '\x27'

/-- The token of a quoted text. -/
def quoted (text : List Char) : Token := if text = [] then .empty else .word text

/-- The tokens of a line, up to the first fault. -/
def read : List Char → Except Fault (List Token)
  | [] => .ok []
  | c :: rest =>
    if c = '=' then (.separator :: ·) <$> read rest
    else if c = '-' then
      match rest with
      | '>' :: rest => (.separator :: ·) <$> read rest
      | _ => .error (.invalidCharacter '-')
    else if c = '|' then (.bar :: ·) <$> read rest
    else if c = 'ε' then (.empty :: ·) <$> read rest
    else if isQuote c then
      match _h : rest.dropWhile (· ≠ c) with
      | [] => .error .unmatchedQuote
      | _ :: after => (quoted (rest.takeWhile (· ≠ c)) :: ·) <$> read after
    else if c.isAlphanum then
      (.word (c :: rest.takeWhile Char.isAlphanum) :: ·) <$> read (rest.dropWhile Char.isAlphanum)
    else if Text.isBlank c then read rest
    else .error (.invalidCharacter c)
termination_by line => line.length
decreasing_by
  all_goals simp only [List.length_cons]
  · omega
  · omega
  · omega
  · omega
  · have := (List.dropWhile_suffix (l := rest) (· ≠ c)).length_le
    rw [_h, List.length_cons] at this
    omega
  · have := (List.dropWhile_suffix (l := rest) Char.isAlphanum).length_le
    omega
  · omega

end Token

end RightLinear
