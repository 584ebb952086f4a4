import RightLinear.OrderedSet

/-!
# Finite automata

An automaton is a list of states and a list of transitions that refer to states
by id. It may be nondeterministic, and nothing is assumed of its lists: ids may
repeat, several states may be initial, and a transition may join states that are
not listed. The editing operations below keep more order than that when they are
the only ones used.

* `Automaton.addState`, `Automaton.ensureState`, `Automaton.removeState`,
  `Automaton.setInitial`, `Automaton.setFinal`: edits of the states.
* `Automaton.addTransition`, `Automaton.link`, `Automaton.removeTransition`: edits
  of the transitions.
* `firstFree`: the id that a new state or transition gets.
-/

namespace RightLinear

/-- Where a state is drawn. Recognition and conversion never look at it. -/
structure Position where
  x : Float
  y : Float
deriving BEq, Inhabited

/-- The corner from which positions are measured. -/
def Position.origin : Position := ⟨0.0, 0.0⟩

/-- A state of an automaton. -/
structure State where
  id : Nat
  position : Position
  isInitial : Bool
  isFinal : Bool
deriving BEq

/-- A state with nothing but its id. -/
def State.plain (id : Nat) : State := ⟨id, .origin, false, false⟩

/-- Of two states the one with the smaller id, the first of them if the ids are
equal. -/
def State.lower (s t : State) : State := if t.id < s.id then t else s

/-- A transition between two states on any of a set of symbols. -/
structure Transition where
  id : Nat
  source : Nat
  target : Nat
  symbols : OrderedSet Char
deriving DecidableEq

/-- A finite automaton. Equality of automata compares everything, positions as
numbers included. -/
structure Automaton where
  states : List State
  transitions : List Transition
deriving BEq

/-! ## Ids -/

/-- The first number from `expected` on that an ascending list lacks. -/
def firstGap (expected : Nat) : List Nat → Nat
  | [] => expected
  | id :: rest =>
    if id < expected then firstGap expected rest
    else if id = expected then firstGap (expected + 1) rest
    else expected

/-- The smallest number that a list lacks. -/
def firstFree (ids : List Nat) : Nat := firstGap 0 (ids.mergeSort (· ≤ ·))

namespace Automaton

/-- The automaton without states. -/
def empty : Automaton := ⟨[], []⟩

instance : EmptyCollection Automaton := ⟨empty⟩

instance : Inhabited Automaton := ⟨empty⟩

/-! ## Views -/

/-- The first state with an id. -/
def state? (A : Automaton) (id : Nat) : Option State := A.states.find? (·.id = id)

/-- Whether a state has this id. -/
def hasState (A : Automaton) (id : Nat) : Bool := (A.state? id).isSome

/-- The id of the next new state. -/
def nextStateId (A : Automaton) : Nat := firstFree (A.states.map State.id)

/-- The id of the next new transition. -/
def nextTransitionId (A : Automaton) : Nat := firstFree (A.transitions.map Transition.id)

/-- The initial state with the lowest id. -/
def initialState? (A : Automaton) : Option State :=
  match A.states.filter State.isInitial with
  | [] => none
  | s :: rest => some (rest.foldl State.lower s)

/-- The final states, in stored order. -/
def finalStates (A : Automaton) : List State := A.states.filter State.isFinal

/-- Whether there is an initial state and a final state. -/
def isReady (A : Automaton) : Bool := A.initialState?.isSome && !A.finalStates.isEmpty

/-- The symbols of all transitions. -/
def alphabet (A : Automaton) : OrderedSet Char :=
  .ofList (A.transitions.flatMap fun t => t.symbols.toList)

/-! ## Edits of the states -/

/-- States in ascending order of their ids; states with one id keep their
order. -/
def sortStates (states : List State) : List State :=
  states.mergeSort fun s t => s.id ≤ t.id

/-- One more state, neither initial nor final, and its id. -/
def addState (A : Automaton) (position : Position) : Nat × Automaton :=
  let id := A.nextStateId
  (id, { A with states := sortStates (A.states ++ [{ State.plain id with position }]) })

/-- The automaton with a state of this id, added if there is none. -/
def ensureState (A : Automaton) (id : Nat) : Automaton :=
  if A.hasState id then A
  else { A with states := sortStates (A.states ++ [State.plain id]) }

/-- A change to the first state with an id. -/
def modifyFirst (id : Nat) (change : State → State) : List State → List State
  | [] => []
  | s :: rest => if s.id = id then change s :: rest else s :: modifyFirst id change rest

/-- The automaton with the first state of this id moved. -/
def setPosition (A : Automaton) (id : Nat) (position : Position) : Automaton :=
  { A with states := modifyFirst id ({ · with position }) A.states }

/-- The automaton without the first state of this id and without the transitions
that touch the id, if there is such a state. -/
def removeState (A : Automaton) (id : Nat) : Automaton :=
  if A.hasState id then
    { states := A.states.eraseP (·.id = id)
      transitions := A.transitions.filter fun t => t.source ≠ id && t.target ≠ id }
  else A

/-- The automaton with the states of this id as its only initial ones, if there
are any. -/
def setInitial (A : Automaton) (id : Nat) : Automaton :=
  if A.hasState id then
    { A with states := A.states.map fun s => { s with isInitial := s.id = id } }
  else A

/-- The automaton with the first state of this id made final or not final. -/
def setFinal (A : Automaton) (id : Nat) (isFinal : Bool) : Automaton :=
  { A with states := modifyFirst id ({ · with isFinal }) A.states }

/-! ## Edits of the transitions -/

/-- One more transition, even if another joins the same states, and its id. -/
def addTransition (A : Automaton) (source target : Nat) (symbols : OrderedSet Char) :
    Nat × Automaton :=
  let id := A.nextTransitionId
  (id, { A with transitions := A.transitions ++ [⟨id, source, target, symbols⟩] })

/-- The symbol `c` on the first transition that joins two states; `none` if no
transition does. -/
def linkFirst (source target : Nat) (c : Char) : List Transition → Option (List Transition)
  | [] => none
  | t :: rest =>
    if t.source = source ∧ t.target = target then
      some ({ t with symbols := t.symbols.insert c } :: rest)
    else (linkFirst source target c rest).map (t :: ·)

/-- The automaton with a symbol between two states: on the first transition that
joins them, or on a new one. -/
def link (A : Automaton) (source target : Nat) (c : Char) : Automaton :=
  match linkFirst source target c A.transitions with
  | some transitions => { A with transitions }
  | none => (A.addTransition source target (.singleton c)).2

/-- The first transition with an id. -/
def transition? (A : Automaton) (id : Nat) : Option Transition :=
  A.transitions.find? (·.id = id)

/-- The automaton without the first transition of this id. -/
def removeTransition (A : Automaton) (id : Nat) : Automaton :=
  { A with transitions := A.transitions.eraseP (·.id = id) }

end Automaton

end RightLinear
