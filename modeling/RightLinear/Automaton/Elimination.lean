import RightLinear.Automaton.Basic
import RightLinear.ConversionError
import RightLinear.Expr.Language
import RightLinear.Expr.Printer

/-!
# The pattern of an automaton

An automaton whose edges carry expressions is reduced state by state: a state is
eliminated by joining every edge into it with every edge out of it, with its loop
repeated in between. In the end one edge is left, from the place where words
begin to the place where they end.

* `Route`, `Routes.eliminate`: edges with expressions and one elimination.
* `Automaton.toPattern`: the pattern of the last edge, if there is one.
* `Routes.Reads`: the words that paths along such edges read.
-/

namespace RightLinear

/-- A place of the reduction: where words begin, a state, or where words end. -/
inductive Stop where
  | start
  | state (id : Nat)
  | accept
deriving DecidableEq, Repr

/-- An edge that carries an expression. -/
structure Route where
  source : Stop
  target : Stop
  label : Expr
deriving DecidableEq, Repr

/-- The edges of a reduction. -/
abbrev Routes := List Route

namespace Routes

/-- The edges with one more; a second edge between two places widens the first. -/
def add (route : Route) : Routes → Routes
  | [] => [route]
  | r :: rest =>
    if r.source = route.source ∧ r.target = route.target then
      { r with label := r.label.or route.label } :: rest
    else r :: add route rest

/-- The edges with some more, in order. -/
def addAll (routes : Routes) (more : List Route) : Routes :=
  more.foldl (fun routes route => routes.add route) routes

/-- The label of the loops at a place, any number of times. -/
def loop (routes : Routes) (stop : Stop) : Expr :=
  match (routes.filter fun r => r.source = stop && r.target = stop).map Route.label with
  | [] => .epsilon
  | label :: labels => (labels.foldl Expr.or label).repeated

/-- The edges that lead around a place: each way into it, its loop, and each way
out of it. -/
def around (routes : Routes) (stop : Stop) : List Route :=
  (routes.filter fun r => r.source ≠ stop && r.target = stop).flatMap fun before =>
    (routes.filter fun r => r.source = stop && r.target ≠ stop).map fun after =>
      ⟨before.source, after.target,
        (before.label.followedBy (routes.loop stop)).followedBy after.label⟩

/-- The edges without a place, with every way through it kept. -/
def eliminate (routes : Routes) (stop : Stop) : Routes :=
  addAll (routes.filter fun r => r.source ≠ stop && r.target ≠ stop) (routes.around stop)

/-- The label of the first edge between two places. -/
def label? (routes : Routes) (source target : Stop) : Option Expr :=
  (routes.find? fun r => r.source = source && r.target = target).map Route.label

/-- A path along the edges between two places reads a word. -/
inductive Reads (routes : Routes) : Stop → Word → Stop → Prop
  | nil {s : Stop} : Reads routes s [] s
  | cons {r : Route} {u v : Word} {t : Stop} :
    r ∈ routes → r.label.Denotes u → Reads routes r.target v t →
    Reads routes r.source (u ++ v) t

end Routes

namespace Automaton

/-- The transitions of an automaton as edges, between the beginning of words at
the initial state and their end at the final states. -/
def routes (A : Automaton) (initial : State) : Routes :=
  Routes.addAll []
    (⟨.start, .state initial.id, .epsilon⟩ ::
      (A.transitions.flatMap fun t => t.symbols.toList.map fun c =>
        ⟨.state t.source, .state t.target, .literal c⟩) ++
      A.finalStates.map fun s => ⟨.state s.id, .accept, .epsilon⟩)

/-- The ids that are listed or joined by a transition. -/
def allIds (A : Automaton) : OrderedSet Nat :=
  .ofList (A.states.map State.id ++ A.transitions.flatMap fun t => [t.source, t.target])

/-- The expression of an automaton: all its states are eliminated, in ascending
order of their ids. -/
def toExpr (A : Automaton) : Except ConversionError Expr :=
  match A.initialState? with
  | none => .error .noInitialState
  | some initial =>
    let reduced := A.allIds.toList.foldl (fun routes id => routes.eliminate (.state id))
      (A.routes initial)
    (reduced.label? .start .accept).elim (.error .emptyLanguage) .ok

/-- The pattern of an automaton. -/
def toPattern (engine : Pattern.Engine) (A : Automaton) : Except ConversionError (List Char) :=
  A.toExpr >>= fun e => Pattern.checked engine e.render

end Automaton

end RightLinear
