import RightLinear.Automaton.EmptyMove
import RightLinear.Grammar.Basic

/-!
# The automaton of a grammar

Every nonterminal is a node of a graph, an alternative is a chain of edges that
reads its terminal, and alternatives that end a derivation with a terminal share
one accepting node. The nodes are numbered in the order in which the alternatives
first mention them; alternatives with an empty terminal give moves that read
nothing, which are closed in the end.

* `Node`, `Grammar.nodes`, `Grammar.edges`, `Grammar.emptyMoves`: the graph.
* `Grammar.toAutomaton`: the numbered graph, laid out on a circle.
-/

namespace RightLinear

/-- A node of the graph of a grammar. -/
inductive Node where
  /-- A nonterminal. -/
  | name (name : Name)
  /-- The end of every alternative that ends with a terminal. -/
  | accept
  /-- The place after the first `offset` characters of the terminal of rule
  `rule`, at least one character before its end. -/
  | inner (rule offset : Nat)
deriving DecidableEq, Repr

/-- An edge that reads one character. -/
structure Edge where
  source : Node
  symbol : Char
  target : Node
deriving DecidableEq, Repr

/-- The node that the terminal of an alternative leads to, if it has one to
read. -/
def Body.goal? : Body → Option Node
  | .empty | .terminal [] => none
  | .terminal _ => some .accept
  | .continued _ next => some (.name next)

/-- Whether an alternative ends a derivation without reading. -/
def Body.isSilentEnd : Body → Bool
  | .empty | .terminal [] => true
  | _ => false

/-- The edges of a chain that reads a text, where `offset` characters of the
terminal of rule `rule` are read already. -/
def chain (rule : Nat) (source goal : Node) (offset : Nat) : Word → List Edge
  | [] => []
  | [c] => [⟨source, c, goal⟩]
  | c :: d :: rest =>
    ⟨source, c, .inner rule (offset + 1)⟩ ::
      chain rule (.inner rule (offset + 1)) goal (offset + 1) (d :: rest)

namespace Grammar

/-- The nodes inside the chain of an alternative. -/
def innerNodes (rule : Nat) (body : Body) : List Node :=
  (List.range (body.text.length - 1)).map fun offset => .inner rule (offset + 1)

/-- The nodes that one alternative mentions, in order. -/
def mentioned (rule : Nat) (left : Name) (body : Body) : List Node :=
  .name left :: body.goal?.toList ++ innerNodes rule body

/-- All nodes, in order of first mention; the start symbol is the first. -/
def nodes (G : Grammar) : List Node :=
  (.name G.start ::
    G.rules.zipIdx.flatMap fun rule => mentioned rule.2 rule.1.1 rule.1.2).eraseDups

/-- All edges, in the order of the alternatives and along their chains. -/
def edges (G : Grammar) : List Edge :=
  G.rules.zipIdx.flatMap fun rule =>
    match rule.1.2.goal? with
    | none => []
    | some goal => chain rule.2 (.name rule.1.1) goal 0 rule.1.2.text

/-- The moves that read nothing. -/
def emptyMoves (G : Grammar) : List (Node × Node) :=
  G.rules.filterMap fun rule =>
    match rule.2 with
    | .continued [] next => some (.name rule.1, .name next)
    | _ => none

/-- Whether a derivation may end at a node. -/
def isAccepting (G : Grammar) : Node → Bool
  | .name name => (G.bodies name).any Body.isSilentEnd
  | .accept => true
  | .inner _ _ => false

/-! ## Layout -/

/-- The full angle. -/
def tau : Float := 6.283185307179586

/-- The place of the state with index `i` among `count` on a circle. -/
def circlePosition (count i : Nat) : Position :=
  let angle := tau * i.toFloat / count.toFloat
  ⟨250.0 + 200.0 * angle.cos, 250.0 + 200.0 * angle.sin⟩

/-- The automaton with its states spread over a circle. -/
def onCircle (A : Automaton) : Automaton :=
  { A with
    states := A.states.zipIdx.map fun s =>
      { s.1 with position := circlePosition A.states.length s.2 } }

/-! ## The automaton -/

/-- The graph as an automaton, in which a state's id is the place of its node among
the nodes. -/
def graph (G : Grammar) (nodes : List Node) : Automaton :=
  let states := nodes.zipIdx.map fun node =>
    { State.plain node.2 with isInitial := node.2 = 0, isFinal := G.isAccepting node.1 }
  G.edges.foldl
    (fun A edge => A.link (nodes.idxOf edge.source) (nodes.idxOf edge.target) edge.symbol)
    ⟨states, []⟩

/-- An automaton for the language of a grammar. -/
def toAutomaton (G : Grammar) : Automaton :=
  let nodes := G.nodes
  onCircle <| (G.graph nodes).closeEmptyMoves <|
    G.emptyMoves.map fun move => (nodes.idxOf move.1, nodes.idxOf move.2)

end Grammar

end RightLinear
