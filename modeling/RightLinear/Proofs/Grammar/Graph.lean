import RightLinear.Grammar.Derivation
import RightLinear.Grammar.Graph
import RightLinear.Proofs.Automaton.EmptyMove
import RightLinear.Proofs.Grammar.Membership
import RightLinear.Proofs.Grammar.Rules

/-!
# The automaton of a grammar accepts its language

Every node of the graph derives words of its own: a nonterminal what the grammar
says, the accepting node the empty word, and a node inside a chain the unread end
of a terminal with what may follow it (`Node.Derives`). An edge takes a word of
its target to a word of its source, so every path to a final state reads a word of
the node it leaves; the other way round, every derivation is a path, one chain
after another.

* `Grammar.joins_graph`, `Grammar.isFinal_graph`: the numbered graph.
* `Grammar.exists_mixedPath_iff_derives`: paths of the graph and derivations.
-/

namespace RightLinear

namespace Grammar

variable {G : Grammar}

/-! ## Alternatives and their places -/

theorem exists_rule_of_mem_bodies {left : Name} {body : Body} (mem : body ∈ G.bodies left) :
    ∃ rule : Nat, G.rules[rule]? = some (left, body) := List.getElem?_of_mem (mem_rules.mpr mem)

theorem mem_bodies_of_rule {left : Name} {body : Body} {rule : Nat}
    (h : G.rules[rule]? = some (left, body)) : body ∈ G.bodies left :=
  mem_rules.mp (List.mem_of_getElem? h)

/-! ## Chains -/

/-- The edges of a chain join its source, its goal and the nodes inside it. -/
theorem endpoints_of_mem_chain {rule : Nat} {goal : Node} {e : Edge} {text : Word} :
    ∀ {source : Node} {offset : Nat}, e ∈ chain rule source goal offset text →
      (e.source = source ∨
        ∃ k, offset < k ∧ k < offset + text.length ∧ e.source = .inner rule k) ∧
      (e.target = goal ∨
        ∃ k, offset < k ∧ k < offset + text.length ∧ e.target = .inner rule k) := by
  induction text with
  | nil => exact fun mem => absurd mem List.not_mem_nil
  | cons c text ih =>
    intro source offset mem
    cases text with
    | nil =>
      obtain rfl := List.mem_singleton.mp mem
      exact ⟨Or.inl rfl, Or.inl rfl⟩
    | cons d rest =>
      rw [List.length_cons, List.length_cons]
      rcases List.mem_cons.mp mem with rfl | later
      · exact ⟨Or.inl rfl, Or.inr ⟨offset + 1, by omega, by omega, rfl⟩⟩
      · rw [List.length_cons] at ih
        obtain ⟨sources, targets⟩ := ih later
        constructor
        · rcases sources with eq | ⟨k, low, high, eq⟩
          · exact Or.inr ⟨offset + 1, by omega, by omega, eq⟩
          · exact Or.inr ⟨k, by omega, by omega, eq⟩
        · rcases targets with eq | ⟨k, low, high, eq⟩
          · exact Or.inl eq
          · exact Or.inr ⟨k, by omega, by omega, eq⟩

/-! ## Nodes -/

theorem mem_nodes_of_mentioned {rule : Nat} {left : Name} {body : Body} {node : Node}
    (h : G.rules[rule]? = some (left, body)) (mem : node ∈ mentioned rule left body) :
    node ∈ G.nodes := by
  refine List.mem_eraseDups.mpr (List.mem_cons_of_mem _ (List.mem_flatMap.mpr ?_))
  exact ⟨((left, body), rule), List.mem_zipIdx_iff_getElem?.mpr h, mem⟩

theorem start_mem_nodes : .name G.start ∈ G.nodes :=
  List.mem_eraseDups.mpr List.mem_cons_self

theorem idxOf_start_nodes : G.nodes.idxOf (.name G.start) = 0 := by
  rw [nodes, List.eraseDups_cons, List.idxOf_cons_self]

/-- Every edge is on the chain of some rule. -/
theorem mem_edges {e : Edge} :
    e ∈ G.edges ↔ ∃ (rule : Nat) (left : Name) (body : Body) (goal : Node),
      G.rules[rule]? = some (left, body) ∧ body.goal? = some goal ∧
        e ∈ chain rule (.name left) goal 0 body.text := by
  simp only [edges, List.mem_flatMap, Prod.exists, List.mem_zipIdx_iff_getElem?]
  refine ⟨fun h => ?_, fun h => ?_⟩
  · obtain ⟨left, body, rule, found, mem⟩ := h
    cases isGoal : body.goal? with
    | none =>
      rw [isGoal] at mem
      exact absurd mem List.not_mem_nil
    | some goal =>
      rw [isGoal] at mem
      exact ⟨rule, left, body, goal, found, isGoal, mem⟩
  · obtain ⟨rule, left, body, goal, found, isGoal, mem⟩ := h
    refine ⟨left, body, rule, found, ?_⟩
    rw [isGoal]
    exact mem

/-- Both ends of an edge are nodes, so they have numbers. -/
theorem mem_nodes_of_mem_edges {e : Edge} (mem : e ∈ G.edges) :
    e.source ∈ G.nodes ∧ e.target ∈ G.nodes := by
  obtain ⟨rule, left, body, goal, found, isGoal, inChain⟩ := mem_edges.mp mem
  have inner : ∀ k, 0 < k → k < 0 + body.text.length → Node.inner rule k ∈ G.nodes := by
    intro k low high
    refine mem_nodes_of_mentioned found (List.mem_cons_of_mem _ (List.mem_append_right _ ?_))
    refine List.mem_map.mpr ⟨k - 1, List.mem_range.mpr (by omega), ?_⟩
    rw [Nat.sub_add_cancel low]
  obtain ⟨sources, targets⟩ := endpoints_of_mem_chain inChain
  constructor
  · rcases sources with eq | ⟨k, low, high, eq⟩
    · rw [eq]
      exact mem_nodes_of_mentioned found List.mem_cons_self
    · exact eq ▸ inner k low high
  · rcases targets with eq | ⟨k, low, high, eq⟩
    · rw [eq]
      refine mem_nodes_of_mentioned found (List.mem_cons_of_mem _ (List.mem_append_left _ ?_))
      rw [isGoal]
      exact List.mem_cons_self
    · exact eq ▸ inner k low high

/-- An empty move is an alternative without a terminal. -/
theorem mem_emptyMoves {p q : Node} :
    (p, q) ∈ G.emptyMoves ↔
      ∃ left next, .continued [] next ∈ G.bodies left ∧ p = .name left ∧ q = .name next := by
  simp only [emptyMoves, List.mem_filterMap, Prod.exists, mem_rules]
  refine ⟨fun h => ?_, fun h => ?_⟩
  · obtain ⟨left, body, mem, eq⟩ := h
    split at eq
    · cases eq
      exact ⟨left, _, mem, rfl, rfl⟩
    · cases eq
  · obtain ⟨left, next, mem, rfl, rfl⟩ := h
    exact ⟨left, _, mem, rfl⟩

theorem mem_nodes_of_mem_emptyMoves {p q : Node} (mem : (p, q) ∈ G.emptyMoves) :
    p ∈ G.nodes ∧ q ∈ G.nodes := by
  obtain ⟨left, next, inBodies, rfl, rfl⟩ := mem_emptyMoves.mp mem
  obtain ⟨rule, found⟩ := exists_rule_of_mem_bodies inBodies
  refine ⟨mem_nodes_of_mentioned found List.mem_cons_self, mem_nodes_of_mentioned found ?_⟩
  exact List.mem_cons_of_mem _ (List.mem_append_left _ List.mem_cons_self)

/-! ## The words of a node -/

end Grammar

/-- A node derives a word: what its nonterminal derives, nothing but the empty word
at the accepting node, and inside a chain the unread end of the terminal with a
word of the node that the chain leads to. -/
inductive Node.Derives (G : Grammar) : Node → Word → Prop
  | name {name : Name} {w : Word} : G.Derives name w → Derives G (.name name) w
  | accept : Derives G .accept []
  | inner {rule offset : Nat} {left : Name} {body : Body} {goal : Node} {w : Word} :
    G.rules[rule]? = some (left, body) → body.goal? = some goal → Derives G goal w →
    Derives G (.inner rule offset) (body.text.drop offset ++ w)

namespace Grammar

variable {G : Grammar}

/-- What follows the terminal of an alternative that leads to a node is a word of
that node. -/
theorem derivesFrom_iff_of_goal? {body : Body} {goal : Node} {w : Word}
    (isGoal : body.goal? = some goal) :
    G.DerivesFrom body.continuation? w ↔ goal.Derives G w := by
  cases body with
  | empty => cases isGoal
  | terminal text =>
    cases text with
    | nil => cases isGoal
    | cons c text =>
      cases isGoal
      refine ⟨fun h => ?_, fun h => ?_⟩
      · obtain rfl : w = [] := h
        exact .accept
      · cases h
        exact rfl
  | continued text next =>
    cases isGoal
    constructor
    · exact .name
    · intro h
      cases h with
      | name h => exact h

/-- An edge of a chain takes a word of its target to a word of its source, if the
source of the chain derives what is left of the terminal there. -/
theorem derives_of_mem_chain {rule : Nat} {left : Name} {body : Body} {goal : Node}
    (found : G.rules[rule]? = some (left, body)) (isGoal : body.goal? = some goal)
    {e : Edge} {w : Word} (target : e.target.Derives G w) {text : Word} :
    ∀ {source : Node} {offset : Nat}, body.text.drop offset = text →
      (∀ {v}, goal.Derives G v → source.Derives G (text ++ v)) →
      e ∈ chain rule source goal offset text → e.source.Derives G (e.symbol :: w) := by
  induction text with
  | nil => exact fun _ _ mem => absurd mem List.not_mem_nil
  | cons c text ih =>
    intro source offset unread begins mem
    have unreadNext : body.text.drop (offset + 1) = text := by
      rw [← List.drop_drop, unread, List.drop_one, List.tail_cons]
    cases text with
    | nil =>
      obtain rfl := List.mem_singleton.mp mem
      exact begins target
    | cons d rest =>
      rcases List.mem_cons.mp mem with rfl | later
      · cases target with
        | inner found' isGoal' derives =>
          rw [found] at found'
          cases found'
          rw [isGoal] at isGoal'
          cases isGoal'
          rw [unreadNext]
          exact begins derives
      · exact ih unreadNext (fun derives => unreadNext ▸ .inner found isGoal derives) later

theorem derives_of_mem_edges {e : Edge} {w : Word} (mem : e ∈ G.edges)
    (target : e.target.Derives G w) : e.source.Derives G (e.symbol :: w) := by
  obtain ⟨rule, left, body, goal, found, isGoal, inChain⟩ := mem_edges.mp mem
  refine derives_of_mem_chain found isGoal target List.drop_zero (fun derives => ?_) inChain
  refine .name (derives_iff_exists_body.mpr ⟨body, mem_bodies_of_rule found, _, rfl, ?_⟩)
  exact (derivesFrom_iff_of_goal? isGoal).mpr derives

/-- An accepting node derives the empty word. -/
theorem derives_nil_of_isAccepting {node : Node} (accepting : G.isAccepting node = true) :
    node.Derives G [] := by
  cases node with
  | name name =>
    obtain ⟨body, mem, silent⟩ := List.any_eq_true.mp accepting
    refine .name ?_
    unfold Body.isSilentEnd at silent
    split at silent
    · exact .empty mem
    · exact .terminal mem
    · cases silent
  | accept => exact .accept
  | inner rule offset => cases accepting

/-! ## The numbered graph -/

section

variable {nodes : List Node}

theorem joins_graph {p q : Nat} {c : Char} :
    (G.graph nodes).Joins p c q ↔
      ∃ e ∈ G.edges, p = nodes.idxOf e.source ∧ c = e.symbol ∧ q = nodes.idxOf e.target := by
  rw [graph, Automaton.joins_foldl_link]
  refine or_iff_right ?_
  intro h
  obtain ⟨t, mem, _⟩ := h
  exact absurd mem List.not_mem_nil

theorem mem_states_graph {s : State} :
    s ∈ (G.graph nodes).states ↔ ∃ (id : Nat) (node : Node), nodes[id]? = some node ∧
      s = { State.plain id with isInitial := id = 0, isFinal := G.isAccepting node } := by
  rw [graph, Automaton.states_foldl_link, List.mem_map]
  simp only [Prod.exists, List.mem_zipIdx_iff_getElem?]
  refine ⟨fun h => ?_, fun h => ?_⟩
  · obtain ⟨node, id, found, rfl⟩ := h
    exact ⟨id, node, found, rfl⟩
  · obtain ⟨id, node, found, rfl⟩ := h
    exact ⟨node, id, found, rfl⟩

theorem declares_graph {node : Node} (mem : node ∈ nodes) :
    (G.graph nodes).Declares (nodes.idxOf node) :=
  ⟨_, mem_states_graph.mpr ⟨_, node, List.getElem?_idxOf mem, rfl⟩, rfl⟩

theorem isFinal_graph {node : Node} (mem : node ∈ nodes) :
    (G.graph nodes).IsFinal (nodes.idxOf node) ↔ G.isAccepting node = true := by
  refine ⟨fun h => ?_, fun accepting => ?_⟩
  · obtain ⟨s, inStates, atNode, isFinal⟩ := h
    obtain ⟨id, found, isNode, rfl⟩ := mem_states_graph.mp inStates
    obtain rfl : id = nodes.idxOf node := atNode
    rw [List.getElem?_idxOf mem, Option.some.injEq] at isNode
    rw [isNode]
    exact isFinal
  · exact ⟨_, mem_states_graph.mpr ⟨_, node, List.getElem?_idxOf mem, rfl⟩, rfl, accepting⟩

theorem isStart_graph {node : Node} (mem : node ∈ nodes) (first : nodes.idxOf node = 0) :
    (G.graph nodes).IsStart (nodes.idxOf node) :=
  ⟨⟨_, mem_states_graph.mpr ⟨_, node, List.getElem?_idxOf mem, rfl⟩, by simp [first], rfl⟩,
    fun _ _ _ => first ▸ Nat.zero_le _⟩

end

/-- The empty moves between the numbered nodes. -/
def numberedMoves (G : Grammar) : List (Nat × Nat) :=
  G.emptyMoves.map fun move => (G.nodes.idxOf move.1, G.nodes.idxOf move.2)

/-! ## Paths and derivations -/

/-- The graph of a grammar with its empty moves reads a word from a node to a final
state. -/
def Reads (G : Grammar) (node : Node) (w : Word) : Prop :=
  ∃ q, (G.graph G.nodes).MixedPath G.numberedMoves (G.nodes.idxOf node) w q ∧
    (G.graph G.nodes).IsFinal q

/-- A path through the graph, empty moves included, is a derivation from the node it begins at. -/
theorem derives_of_mixedPath {p q : Nat} {w : Word}
    (path : (G.graph G.nodes).MixedPath G.numberedMoves p w q)
    (isFinal : (G.graph G.nodes).IsFinal q) :
    ∀ node ∈ G.nodes, p = G.nodes.idxOf node → node.Derives G w := by
  induction path with
  | nil =>
    intro node mem same
    subst same
    exact derives_nil_of_isAccepting ((isFinal_graph mem).mp isFinal)
  | read joins _ ih =>
    intro node mem same
    subst same
    obtain ⟨e, inEdges, atSource, rfl, atTarget⟩ := joins_graph.mp joins
    obtain ⟨memSource, memTarget⟩ := mem_nodes_of_mem_edges inEdges
    rw [(List.idxOf_inj mem).mp atSource]
    exact derives_of_mem_edges inEdges (ih isFinal e.target memTarget atTarget)
  | move move _ ih =>
    intro node mem same
    subst same
    obtain ⟨⟨source, target⟩, inMoves, eq⟩ := List.mem_map.mp move
    obtain ⟨atSource, atTarget⟩ := Prod.mk.inj eq
    obtain ⟨memSource, memTarget⟩ := mem_nodes_of_mem_emptyMoves inMoves
    rw [← (List.idxOf_inj memSource).mp atSource]
    obtain ⟨left, next, inBodies, rfl, rfl⟩ := mem_emptyMoves.mp inMoves
    cases ih isFinal _ memTarget atTarget.symm with
    | name derives => exact .name (.continued inBodies derives)

theorem Reads.of_edge {e : Edge} {w : Word} (mem : e ∈ G.edges) (reads : G.Reads e.target w) :
    G.Reads e.source (e.symbol :: w) := by
  obtain ⟨q, path, isFinal⟩ := reads
  exact ⟨q, .read (joins_graph.mpr ⟨e, mem, rfl, rfl, rfl⟩) path, isFinal⟩

/-- Whoever has all edges of a chain can read its text. -/
theorem Reads.of_chain {rule : Nat} {goal : Node} {w : Word} (reads : G.Reads goal w)
    {text : Word} (nonempty : text ≠ []) :
    ∀ {source : Node} {offset : Nat}, (∀ e ∈ chain rule source goal offset text, e ∈ G.edges) →
      G.Reads source (text ++ w) := by
  induction text with
  | nil => exact absurd rfl nonempty
  | cons c text ih =>
    intro source offset inEdges
    cases text with
    | nil => exact Reads.of_edge (inEdges _ List.mem_cons_self) reads
    | cons d rest =>
      have onward := ih (List.cons_ne_nil d rest) fun e mem =>
        inEdges e (List.mem_cons_of_mem _ mem)
      exact Reads.of_edge (inEdges _ List.mem_cons_self) onward

/-- Each step of a derivation is a chain of edges, an empty move, or the end. -/
theorem reads_of_derives {name : Name} {w : Word} (derives : G.Derives name w) :
    G.Reads (.name name) w := by
  have silent : ∀ {name body}, body ∈ G.bodies name → body.isSilentEnd = true →
      G.Reads (.name name) [] := by
    intro name body mem isEnd
    obtain ⟨rule, found⟩ := exists_rule_of_mem_bodies mem
    have inNodes := mem_nodes_of_mentioned found List.mem_cons_self
    exact ⟨_, .nil, (isFinal_graph inNodes).mpr (List.any_eq_true.mpr ⟨body, mem, isEnd⟩)⟩
  have chained : ∀ {name body goal v}, body ∈ G.bodies name → body.goal? = some goal →
      body.text ≠ [] → G.Reads goal v → G.Reads (.name name) (body.text ++ v) := by
    intro name body goal v mem isGoal nonempty reads
    obtain ⟨rule, found⟩ := exists_rule_of_mem_bodies mem
    exact reads.of_chain nonempty fun e inChain =>
      mem_edges.mpr ⟨rule, name, body, goal, found, isGoal, inChain⟩
  induction derives with
  | empty mem => exact silent mem rfl
  | @terminal name text mem =>
    cases text with
    | nil => exact silent mem rfl
    | cons c text =>
      obtain ⟨rule, found⟩ := exists_rule_of_mem_bodies mem
      have inNodes : Node.accept ∈ G.nodes := mem_nodes_of_mentioned found
        (List.mem_cons_of_mem _ (List.mem_append_left _ List.mem_cons_self))
      have ends : G.Reads .accept [] := ⟨_, .nil, (isFinal_graph inNodes).mpr rfl⟩
      have reads := chained mem rfl (List.cons_ne_nil c text) ends
      rw [List.append_nil] at reads
      exact reads
  | @continued name next text rest mem _ ih =>
    cases text with
    | nil =>
      obtain ⟨q, path, isFinal⟩ := ih
      have move : (G.nodes.idxOf (.name name), G.nodes.idxOf (.name next)) ∈ G.numberedMoves :=
        List.mem_map.mpr ⟨_, mem_emptyMoves.mpr ⟨name, next, mem, rfl, rfl⟩, rfl⟩
      exact ⟨q, .move move path, isFinal⟩
    | cons c text => exact chained mem rfl (List.cons_ne_nil c text) ih

theorem reads_start_iff {w : Word} : G.Reads (.name G.start) w ↔ G.Derives G.start w := by
  constructor
  · intro h
    obtain ⟨q, path, isFinal⟩ := h
    cases derives_of_mixedPath path isFinal _ start_mem_nodes rfl with
    | name derives => exact derives
  · exact reads_of_derives

/-! ## The whole construction -/

theorem map_states_onCircle {β : Type} {A : Automaton} {view : State → β}
    (unplaced : ∀ s position, view { s with position } = view s) :
    (onCircle A).states.map view = A.states.map view := by
  have first : view ∘ (fun s : State × Nat =>
      { s.1 with position := circlePosition A.states.length s.2 }) = view ∘ Prod.fst :=
    funext fun s => unplaced s.1 _
  rw [onCircle, List.map_map, first, ← List.map_map, List.zipIdx_map_fst]

theorem isStart_onCircle {A : Automaton} {id : Nat} : (onCircle A).IsStart id ↔ A.IsStart id := by
  have same : (onCircle A).initialFlags = A.initialFlags := map_states_onCircle fun _ _ => rfl
  rw [Automaton.isStart_iff_mem_initialFlags, same, ← Automaton.isStart_iff_mem_initialFlags]

theorem isFinal_onCircle {A : Automaton} {id : Nat} : (onCircle A).IsFinal id ↔ A.IsFinal id := by
  rw [Automaton.isFinal_iff_mem_map, Automaton.isFinal_iff_mem_map,
    map_states_onCircle fun _ _ => rfl]

theorem path_onCircle {A : Automaton} {p q : Nat} {w : Word} :
    (onCircle A).Path p w q ↔ A.Path p w q :=
  ⟨.mono (A := onCircle A) (B := A) fun joins => joins,
    .mono (A := A) (B := onCircle A) fun joins => joins⟩

theorem toAutomaton_eq :
    G.toAutomaton = onCircle ((G.graph G.nodes).closeEmptyMoves G.numberedMoves) := rfl

theorem isStart_closeEmptyMoves_graph :
    ((G.graph G.nodes).closeEmptyMoves G.numberedMoves).IsStart
      (G.nodes.idxOf (.name G.start)) := by
  rw [Automaton.isStart_iff_mem_initialFlags, Automaton.initialFlags_closeEmptyMoves,
    ← Automaton.isStart_iff_mem_initialFlags]
  exact isStart_graph start_mem_nodes idxOf_start_nodes

theorem initialState?_toAutomaton_ne_none : G.toAutomaton.initialState? ≠ none := by
  intro none
  have start : G.toAutomaton.IsStart (G.nodes.idxOf (.name G.start)) :=
    isStart_onCircle.mpr isStart_closeEmptyMoves_graph
  rw [← Automaton.map_id_initialState?, none] at start
  cases start

/-- Paths through the automaton are derivations from the start symbol. The automaton begins at the
start symbol, and with its empty moves closed it has the mixed paths of the graph. -/
theorem exists_path_toAutomaton {w : Word} :
    (∃ p q, G.toAutomaton.IsStart p ∧ G.toAutomaton.Path p w q ∧ G.toAutomaton.IsFinal q) ↔
      G.Derives G.start w := by
  have start := isStart_closeEmptyMoves_graph (G := G)
  have declared : ∀ move ∈ G.numberedMoves, (G.graph G.nodes).Declares move.1 := by
    intro move mem
    obtain ⟨⟨source, target⟩, inMoves, rfl⟩ := List.mem_map.mp mem
    exact declares_graph (mem_nodes_of_mem_emptyMoves inMoves).1
  rw [← reads_start_iff, Reads, ← Automaton.exists_path_closeEmptyMoves declared, toAutomaton_eq]
  simp only [isStart_onCircle, isFinal_onCircle, path_onCircle]
  refine ⟨fun h => ?_, fun h => ?_⟩
  · obtain ⟨p, q, isStart, path, isFinal⟩ := h
    obtain rfl := isStart.unique start
    exact ⟨q, path, isFinal⟩
  · obtain ⟨q, path, isFinal⟩ := h
    exact ⟨_, q, start, path, isFinal⟩

theorem toAutomaton_accepts_iff {w : Word} : G.toAutomaton.accepts w = true ↔ G.Derives G.start w :=
  Automaton.accepts_iff_exists_path.trans exists_path_toAutomaton

/-- The automaton of a grammar accepts what the start symbol derives, and so agrees
with the recogniser on all words without an uppercase character. -/
theorem accepts_toAutomaton (G : Grammar) (w : Word) :
    (G.toAutomaton.accepts w = true ↔ G.Derives G.start w) ∧
      (w.any Text.isUppercase = false → G.toAutomaton.accepts w = G.accepts w) := by
  have derives : G.toAutomaton.accepts w = true ↔ G.Derives G.start w :=
    Automaton.accepts_iff_exists_path.trans exists_path_toAutomaton
  refine ⟨derives, fun lower => ?_⟩
  rw [Bool.eq_iff_iff, derives, accepts_of_lower lower]

/-- Two nonterminals that lead to each other without reading, a terminal of two
characters on the way, and a nonterminal without alternatives. -/
theorem accepts_toAutomaton_of_loops :
    let G := ofRules ['S'] [(['S'], .continued [] ['A']), (['S'], .continued ['a', 'b'] ['S']),
      (['A'], .continued [] ['S']), (['A'], .continued ['b'] ['X']), (['A'], .terminal ['c'])]
    G.toAutomaton.accepts ['a', 'b', 'c'] = true ∧
      ['a', 'b', 'c'].any Text.isUppercase = false ∧
      G.toAutomaton.accepts ['a', 'b', 'c'] = G.accepts ['a', 'b', 'c'] := by
  intro G
  have lower : ['a', 'b', 'c'].any Text.isUppercase = false := by decide
  have ends : G.Derives ['A'] ['c'] := .terminal (by decide)
  have silently : G.Derives ['S'] ([] ++ ['c']) := .continued (by decide) ends
  have derives : G.Derives ['S'] (['a', 'b'] ++ ([] ++ ['c'])) := .continued (by decide) silently
  exact ⟨(accepts_toAutomaton G _).1.mpr derives, lower, (accepts_toAutomaton G _).2 lower⟩

end Grammar

end RightLinear
