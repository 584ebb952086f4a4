import RightLinear.Automaton.Basic
import RightLinear.Text.Coordinate

/-!
# The text of an automaton

An automaton is written as an automaton file: its states with rounded positions,
the initial state, the final states on one line if there are any, and a line for
each transition.
-/

namespace RightLinear

/-- Words with a blank between them. -/
def unwords (words : List (List Char)) : List Char := [' '].intercalate words

/-- The line of a state. -/
def State.render (s : State) : List Char :=
  unwords ["state".toList, Numeral.render s.id, Coordinate.render s.position.x,
    Coordinate.render s.position.y]

/-- The line of a transition. -/
def Transition.render (t : Transition) : List Char :=
  Numeral.render t.source ++ " -> ".toList ++ Numeral.render t.target ++ " : ".toList ++
    unwords (t.symbols.toList.map fun c => [c])

namespace Automaton

/-- The lines of an automaton. -/
def renderLines (A : Automaton) : List (List Char) :=
  A.states.map State.render ++
    (A.initialState?.toList.map fun s => "initial ".toList ++ Numeral.render s.id) ++
    (if A.finalStates = [] then []
     else ["final ".toList ++ unwords (A.finalStates.map fun s => Numeral.render s.id)]) ++
    A.transitions.map Transition.render

/-- The automaton as a file. -/
def render (A : Automaton) : List Char := A.renderLines.flatMap (· ++ ['\n'])

end Automaton

end RightLinear
