import RightLinear.Automaton.Basic

/-!
# Runs of edits

Automata that are made by editing alone are tidier than automata in general. An
edit is a value here, so that a run of edits is a list.

* `Edit`, `Automaton.edit`: single edits and what they do.
* `Automaton.Edited`: automata that edits make from nothing.
* `Automaton.Tidy`: what editing keeps in order.
-/

namespace RightLinear

/-- An edit of an automaton. -/
inductive Edit where
  | addState (position : Position)
  | ensureState (id : Nat)
  | removeState (id : Nat)
  | setInitial (id : Nat)
  | setFinal (id : Nat) (isFinal : Bool)
  | addTransition (source target : Nat) (symbols : OrderedSet Char)
  | link (source target : Nat) (c : Char)
  | removeTransition (id : Nat)

namespace Automaton

/-- The automaton after an edit. -/
def edit (A : Automaton) : Edit → Automaton
  | .addState position => (A.addState position).2
  | .ensureState id => A.ensureState id
  | .removeState id => A.removeState id
  | .setInitial id => A.setInitial id
  | .setFinal id isFinal => A.setFinal id isFinal
  | .addTransition source target symbols => (A.addTransition source target symbols).2
  | .link source target c => A.link source target c
  | .removeTransition id => A.removeTransition id

/-- A transition may only be added between states that exist. -/
def Admits (A : Automaton) : Edit → Prop
  | .addTransition source target _ | .link source target _ =>
    A.hasState source ∧ A.hasState target
  | _ => True

/-- Edits make this automaton from the one without states. -/
inductive Edited : Automaton → Prop
  | empty : Edited ∅
  | edit {A : Automaton} {e : Edit} : Edited A → A.Admits e → Edited (A.edit e)

/-- States ascend by their ids, one of them at most is initial, transitions have
different ids and join states that exist. -/
structure Tidy (A : Automaton) : Prop where
  ascending : (A.states.map State.id).Pairwise (· < ·)
  initial_unique : ∀ s ∈ A.states, ∀ t ∈ A.states, s.isInitial → t.isInitial → s = t
  nodup_transitions : (A.transitions.map Transition.id).Nodup
  hasState_source : ∀ t ∈ A.transitions, A.hasState t.source
  hasState_target : ∀ t ∈ A.transitions, A.hasState t.target

end Automaton

end RightLinear
