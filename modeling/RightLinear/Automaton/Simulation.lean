import RightLinear.Automaton.Basic
import RightLinear.Word

/-!
# Runs of an automaton

A word is recognised by following all transitions at once: the set of states
that the characters read so far lead to. The second half of the module defines
acceptance by a single path, without sets.

* `Automaton.step`, `Automaton.accepts`: the simulation.
* `Automaton.Path`, `Automaton.Accepts`: paths through the transitions.
* `Automaton.PathAvoiding`: paths that never visit a state.
-/

namespace RightLinear

namespace Automaton

/-- The states that a symbol leads to from one state. -/
def targets (A : Automaton) (source : Nat) (c : Char) : List Nat :=
  (A.transitions.filter fun t => t.source = source && t.symbols.toList.contains c).map
    Transition.target

/-- The states that a symbol leads to from any state of a set. -/
def step (A : Automaton) (current : OrderedSet Nat) (c : Char) : OrderedSet Nat :=
  .ofList (current.toList.flatMap fun source => A.targets source c)

/-- The states that a word leads to from any state of a set. -/
def run (A : Automaton) (current : OrderedSet Nat) (w : Word) : OrderedSet Nat :=
  w.foldl A.step current

/-- Whether the initial state with the lowest id leads to a final state. -/
def accepts (A : Automaton) (w : Word) : Bool :=
  match A.initialState? with
  | none => false
  | some initial =>
    let reached := A.run (.singleton initial.id) w
    A.finalStates.any fun s => reached.toList.contains s.id

/-! ## Paths -/

/-- A transition with the symbol `c` joins two states. -/
def Joins (A : Automaton) (source : Nat) (c : Char) (target : Nat) : Prop :=
  ∃ t ∈ A.transitions, t.source = source ∧ c ∈ t.symbols ∧ t.target = target

/-- A path between two states that reads a word. -/
inductive Path (A : Automaton) : Nat → Word → Nat → Prop
  | nil {q : Nat} : Path A q [] q
  | cons {p q r : Nat} {c : Char} {w : Word} :
    A.Joins p c q → Path A q w r → Path A p (c :: w) r

/-- A path that reads a word and never visits a state. -/
inductive PathAvoiding (A : Automaton) (avoided : Nat) : Nat → Word → Nat → Prop
  | nil {q : Nat} : q ≠ avoided → PathAvoiding A avoided q [] q
  | cons {p q r : Nat} {c : Char} {w : Word} :
    p ≠ avoided → A.Joins p c q → PathAvoiding A avoided q w r →
    PathAvoiding A avoided p (c :: w) r

/-- Some state with this id is final. -/
def IsFinal (A : Automaton) (id : Nat) : Prop := ∃ s ∈ A.states, s.id = id ∧ s.isFinal

/-- A path from the initial state to a final state reads the word. -/
def Accepts (A : Automaton) (w : Word) : Prop :=
  ∃ initial q, A.initialState? = some initial ∧ A.Path initial.id w q ∧ A.IsFinal q

end Automaton

end RightLinear
