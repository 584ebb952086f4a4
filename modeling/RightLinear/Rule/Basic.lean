import RightLinear.Grammar.Basic
import RightLinear.Rule.Token

/-!
# Rules

A rule line names a nonterminal and gives its alternatives. The words of one
alternative are read as a single run of text, in which the first uppercase
letter begins the nonterminal.

* `isNonterminal`: the names that may head a rule.
* `Body.read`: the alternative that a run of text stands for.
* `Rule.read`: the rule on a line.
-/

namespace RightLinear

/-- Whether a text is the name of a nonterminal: an uppercase ASCII letter, then
any number of digits. -/
def isNonterminal : List Char → Bool
  | [] => false
  | c :: rest => c.isUpper && rest.all Char.isDigit

/-- The alternative that a run of text stands for. -/
def Body.read (text : List Char) : Except Fault Body :=
  let before := text.takeWhile fun c => !c.isUpper
  let next := text.dropWhile fun c => !c.isUpper
  if text = [] then .ok .empty
  else if next = [] then .ok (.terminal text)
  else if before = [] || !isNonterminal next then .error (.notRightLinear text)
  else .ok (.continued before next)

/-- A nonterminal with the alternatives that one line gives it. -/
structure Rule where
  head : Name
  bodies : List Body
deriving DecidableEq, Repr

namespace Rule

/-- The tokens between the bars; there is one more alternative than there are
bars. -/
def alternatives : List Token → List (List Token)
  | [] => [[]]
  | .bar :: rest => [] :: alternatives rest
  | token :: rest =>
    match alternatives rest with
    | [] => [[token]]
    | first :: others => (token :: first) :: others

/-- The text of one alternative. -/
def text : List Token → Except Fault (List Char)
  | [] => .ok []
  | .separator :: _ => .error .unexpectedSeparator
  | .bar :: _ => .error .unsplitAlternatives
  | .empty :: rest => text rest
  | .word word :: rest => (word ++ ·) <$> text rest

/-- The alternatives of a rule, up to the first that cannot be read. -/
def readBodies : List (List Token) → Except Fault (List Body)
  | [] => .ok []
  | tokens :: rest => do
    let body ← Body.read (← text tokens)
    return body :: (← readBodies rest)

/-- The rule that a line's tokens form. -/
def ofTokens : List Token → Except Fault Rule
  | [] => .error .blankLine
  | .word head :: rest =>
    if isNonterminal head then
      match rest with
      | .separator :: rest => (⟨head, ·⟩) <$> readBodies (alternatives rest)
      | _ => .error .missingSeparator
    else .error .missingNonterminal
  | _ :: _ => .error .missingNonterminal

/-- The rule on a line. -/
def read (line : List Char) : Except Fault Rule :=
  Token.read (Text.stripComment line) >>= ofTokens

end Rule

end RightLinear
