import RightLinear.Automaton.Elimination
import RightLinear.Grammar.Expansion
import RightLinear.Grammar.Graph

/-!
# The pattern of any grammar

A grammar with recursion has a pattern too, by way of its automaton.
-/

namespace RightLinear.Grammar

/-- The pattern of the automaton of a grammar. -/
def toClosure (engine : Pattern.Engine) (G : Grammar) : Except ConversionError (List Char) :=
  G.toAutomaton.toPattern engine

/-- The pattern of a grammar, by its automaton only if the grammar is found to be
recursive. -/
def toPatternOrClosure (engine : Pattern.Engine) (G : Grammar) :
    Except ConversionError (List Char) :=
  match G.toPattern engine with
  | .error (.cycle _) => G.toClosure engine
  | result => result

end RightLinear.Grammar
