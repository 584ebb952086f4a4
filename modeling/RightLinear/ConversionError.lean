import RightLinear.Grammar.Basic
import RightLinear.Pattern.Anchored
import RightLinear.Report

/-!
# Why a conversion fails

Not every grammar and not every automaton can be written as a pattern, and an
automaton needs an initial state to be written at all. What is written is given to the
engine, which may refuse it.

* `ConversionError`: the reasons.
* `Pattern.checked`: a text that was written as a pattern, if the engine compiles it.
-/

namespace RightLinear

/-- Why a conversion fails. -/
inductive ConversionError where
  /-- A nonterminal without alternatives is used. -/
  | undefinedNonterminal (name : Name)
  /-- A nonterminal continues with itself, in one step or more. -/
  | cycle (name : Name)
  /-- No state of the automaton is initial. -/
  | noInitialState
  /-- The automaton accepts no word, and no pattern describes that. -/
  | emptyLanguage
  /-- The resulting pattern is refused by the engine, with this message. -/
  | invalidPattern (message : String)
deriving DecidableEq, Repr

/-- The wording of a conversion error. -/
def ConversionError.message : ConversionError → String
  | undefinedNonterminal name => "No alternatives for nonterminal " ++ cite name
  | cycle name =>
    "Nonterminal " ++ cite name ++ " derives itself; a closure is needed to express it"
  | noInitialState => "The automaton has no initial state"
  | emptyLanguage => "No final state is reachable, the language is empty"
  | invalidPattern message => "Produced an invalid pattern: " ++ message

/-- A text that was written as a pattern, if the engine compiles it. -/
def Pattern.checked (engine : Engine) (text : List Char) :
    Except ConversionError (List Char) :=
  match compile engine text with
  | .ok _ => .ok text
  | .error refusal => .error (.invalidPattern refusal.message)

end RightLinear
