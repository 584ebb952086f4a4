import RightLinear.Automaton.Basic
import RightLinear.ConversionError
import RightLinear.Text.Numeral

/-!
# The grammar of an automaton

A state with id `k` becomes the nonterminal `Q` followed by `k`. Each symbol of a
transition gives its source an alternative that reads the symbol and continues
with the target, and a final state can end. The initial state comes first, the
others follow in ascending order; transitions may leave states that are not
listed.
-/

namespace RightLinear

/-- The nonterminal of a state. -/
def stateName (id : Nat) : Name := 'Q' :: Numeral.render id

namespace Automaton

/-- The ids that are listed or left by a transition. -/
def sourceIds (A : Automaton) : OrderedSet Nat :=
  .ofList (A.states.map State.id ++ A.transitions.map Transition.source)

/-- The moves that leave a state, each once, in order of the transitions. -/
def moves (A : Automaton) (id : Nat) : List (Char × Nat) :=
  ((A.transitions.filter (·.source = id)).flatMap fun t =>
    t.symbols.toList.map (·, t.target)).eraseDups

/-- The alternatives of a state. -/
def bodies (A : Automaton) (id : Nat) : List Body :=
  ((A.moves id).map fun move => .continued [move.1] (stateName move.2)) ++
    if (A.state? id).any State.isFinal then [.empty] else []

/-- A grammar for the language of an automaton, if the automaton has an initial
state. -/
def toGrammar (A : Automaton) : Except ConversionError Grammar :=
  match A.initialState? with
  | none => .error .noInitialState
  | some initial =>
    let order := initial.id :: A.sourceIds.toList.filter (· ≠ initial.id)
    .ok (.ofRules (stateName initial.id)
      (order.flatMap fun id => (A.bodies id).map (stateName id, ·)))

end Automaton

end RightLinear
