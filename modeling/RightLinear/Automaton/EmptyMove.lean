import RightLinear.Automaton.Simulation
import RightLinear.Reachability

/-!
# Moves that read nothing

An automaton here has no empty moves, so moves that read nothing are closed: each
state that such moves leave takes over the transitions and the finality of the
states they reach. The states are closed one after another, each on the result
of the last.

* `emptyClosure`: the states that empty moves reach from one state.
* `Automaton.closeEmptyMoves`: the automaton without the need for its empty
  moves.
* `EmptyPath`, `Automaton.MixedPath`: paths along empty moves, and along these and
  transitions.
-/

namespace RightLinear

/-- The states that empty moves reach from a state, itself included. -/
def emptyClosure (moves : List (Nat × Nat)) (source : Nat) : List Nat :=
  reach (fun front => (moves.filter fun move => front.contains move.1).map Prod.snd)
    ((moves.map Prod.snd).eraseDups.filter (· ≠ source)) [source]

namespace Automaton

/-- The automaton in which a state takes over the transitions and the finality of
the reached states. -/
def absorb (A : Automaton) (source : Nat) (reached : List Nat) : Automaton :=
  let copied := (A.transitions.filter fun t =>
    t.source ≠ source && reached.contains t.source).flatMap fun t =>
      t.symbols.toList.map (t.target, ·)
  let linked := copied.foldl (fun A move => A.link source move.1 move.2) A
  if A.finalStates.any fun s => reached.contains s.id then linked.setFinal source true
  else linked

/-- The automaton in which each state left by empty moves has absorbed what they
reach, in order of the states' first moves. -/
def closeEmptyMoves (A : Automaton) (moves : List (Nat × Nat)) : Automaton :=
  (moves.map Prod.fst).eraseDups.foldl
    (fun A source => A.absorb source (emptyClosure moves source)) A

end Automaton

/-! ## Paths -/

/-- Empty moves lead from one state to another. -/
inductive EmptyPath (moves : List (Nat × Nat)) : Nat → Nat → Prop
  | nil {q : Nat} : EmptyPath moves q q
  | cons {p q r : Nat} : (p, q) ∈ moves → EmptyPath moves q r → EmptyPath moves p r

/-- A path along transitions and empty moves reads a word. -/
inductive Automaton.MixedPath (A : Automaton) (moves : List (Nat × Nat)) :
    Nat → Word → Nat → Prop
  | nil {q : Nat} : MixedPath A moves q [] q
  | read {p q r : Nat} {c : Char} {w : Word} :
    A.Joins p c q → MixedPath A moves q w r → MixedPath A moves p (c :: w) r
  | move {p q r : Nat} {w : Word} :
    (p, q) ∈ moves → MixedPath A moves q w r → MixedPath A moves p w r

end RightLinear
