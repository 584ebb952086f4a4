import Mathlib.Data.List.Nodup
import RightLinear.Proofs.Automaton.Edit
import RightLinear.Proofs.Conversion.AutomatonFile
import RightLinear.Proofs.Conversion.GrammarFile
import RightLinear.Proofs.List.EraseDups

/-!
# The shape of a grammar's automaton

Links are put on the transition that joins their states already, if there is one, so no two
transitions ever join the same states, and a transition is there only for a symbol. Both
survive the closing of empty moves, which adds links as well. Everything else about the
shape of the automaton shows in its graph: the closing leaves the states as they are, no
symbol is new to it, and its links lead to where links led before.

The graph has one node for each name, one for the end of all alternatives that end with a
terminal, and for each terminal one node fewer than it has characters. In the list of nodes
these three kinds are mixed, each node standing where it is first mentioned.

* `Automaton.Simple`, `Automaton.Simple.link`: what linking keeps.
* `Grammar.nodes_perm`: the nodes by their kinds.
* `Grammar.joins_toAutomaton`, `Grammar.initialFlags_toAutomaton`: what the automaton has of
  its graph.
* `Grammar.toAutomaton_shape`: the automaton.
-/

namespace RightLinear

/-! ## Simple automata -/

namespace Automaton

variable {A : Automaton} {source target : Nat} {c : Char} {moves : List (Nat × Nat)}

/-- The pairs of states that are joined. -/
def ends (A : Automaton) : List (Nat × Nat) := A.transitions.map fun t => (t.source, t.target)

/-- Transitions are numbered, no two join the same states, and each has a symbol. -/
structure Simple (A : Automaton) : Prop where
  numbered : A.Numbered
  distinct : A.ends.Nodup
  labelled : ∀ t ∈ A.transitions, t.symbols.toList ≠ []

/-- A link makes a new transition only if none joins the two states. -/
theorem not_mem_ends_of_linkFirst {l : List Transition}
    (absent : linkFirst source target c l = none) :
    (source, target) ∉ l.map fun t => (t.source, t.target) := by
  induction l with
  | nil => exact List.not_mem_nil
  | cons t l ih =>
    rw [linkFirst] at absent
    split at absent
    · cases absent
    · next other =>
      rw [List.map_cons, List.mem_cons, not_or]
      refine ⟨fun same => other ?_, ih (Option.map_eq_none_iff.mp absent)⟩
      obtain ⟨sameSource, sameTarget⟩ := Prod.mk.inj same
      exact ⟨sameSource.symm, sameTarget.symm⟩

/-- A link keeps transitions between the same states together. -/
theorem Simple.link (simple : A.Simple) : (A.link source target c).Simple := by
  rw [Automaton.link]
  split
  · next linked found =>
    have ids := map_linkFirst Transition.id (fun _ _ => rfl) found
    have length := congrArg List.length ids
    rw [List.length_map, List.length_map] at length
    refine ⟨?_, ?_, forall_mem_linkFirst (fun t _ => ?_) found simple.labelled⟩
    · rw [Numbered, ids, simple.numbered, length]
    · rw [ends, map_linkFirst (fun t => (t.source, t.target)) (fun _ _ => rfl) found]
      exact simple.distinct
    · exact List.ne_nil_of_mem (OrderedSet.mem_insert.mpr (Or.inl rfl))
  · next absent =>
    refine ⟨simple.numbered.addTransition, ?_, fun t mem => ?_⟩
    · rw [ends, addTransition, List.map_append, List.map_singleton, List.nodup_append]
      refine ⟨simple.distinct, by simp, fun p mem q new => ?_⟩
      rintro rfl
      exact not_mem_ends_of_linkFirst absent (List.mem_singleton.mp new ▸ mem)
    · rcases List.mem_append.mp mem with old | new
      · exact simple.labelled t old
      · rw [List.mem_singleton.mp new]
        exact List.cons_ne_nil c []

theorem Simple.closeEmptyMoves (simple : A.Simple) : (A.closeEmptyMoves moves).Simple :=
  closeEmptyMoves_induction (fun simple => simple.link)
    (fun simple => ⟨simple.numbered, simple.distinct, simple.labelled⟩) simple

theorem map_id_filter_isInitial : (A.states.filter State.isInitial).map State.id =
    (A.initialFlags.filter Prod.snd).map Prod.fst := by
  rw [initialFlags, List.filter_map, List.map_map]
  rfl

end Automaton

/-! ## Nodes by their kinds -/

namespace Body

variable {body : Body} {name : Name} {c : Char}

/-- Whether an alternative ends a derivation with a terminal that has to be read. -/
def isReadingEnd : Body → Bool
  | .terminal (_ :: _) => true
  | _ => false

theorem goal?_eq_name_iff : body.goal? = some (.name name) ↔ body.continuation? = some name := by
  rcases body with _ | (_ | _) | _ <;> simp [goal?, continuation?]

theorem goal?_eq_accept_iff : body.goal? = some .accept ↔ body.isReadingEnd = true := by
  rcases body with _ | (_ | _) | _ <;> simp [goal?, isReadingEnd]

theorem goal?_ne_inner {rule offset : Nat} : body.goal? ≠ some (.inner rule offset) := by
  rcases body with _ | (_ | _) | _ <;> simp [goal?]

theorem exists_goal?_of_mem_text (mem : c ∈ body.text) : ∃ goal, body.goal? = some goal := by
  rcases body with _ | (_ | _) | _
  · cases mem
  · cases mem
  · exact ⟨_, rfl⟩
  · exact ⟨_, rfl⟩

end Body

namespace Grammar

variable {G : Grammar} {name : Name} {node : Node} {c : Char} {p q : Nat}

/-- The start symbol, the nonterminals with alternatives and those that alternatives
continue with, each of them once. -/
def names (G : Grammar) : List Name :=
  (G.start :: G.nonterminals ++ G.rules.filterMap (·.2.continuation?)).eraseDups

/-- Names, the accepting node if it is needed, and the nodes inside chains. -/
def nodesByKind (G : Grammar) : List Node :=
  G.names.map .name ++ (if G.rules.any (·.2.isReadingEnd) then [.accept] else []) ++
    G.rules.zipIdx.flatMap fun rule => innerNodes rule.2 rule.1.2

theorem mem_nonterminals_iff : name ∈ G.nonterminals ↔ ∃ rule ∈ G.rules, name = rule.1 := by
  refine ⟨fun listed => ?_, fun h => ?_⟩
  · obtain ⟨body, mem⟩ := List.exists_mem_of_ne_nil _ (bodies_ne_nil_of_mem_nonterminals listed)
    exact ⟨_, mem_rules.mpr mem, rfl⟩
  · obtain ⟨rule, mem, rfl⟩ := h
    obtain ⟨p, inProductions, inBodies⟩ := List.mem_flatMap.mp mem
    obtain ⟨_, _, rfl⟩ := List.mem_map.mp inBodies
    exact List.mem_map_of_mem inProductions

theorem mem_names : name ∈ G.names ↔ name = G.start ∨
    ∃ rule ∈ G.rules, name = rule.1 ∨ rule.2.continuation? = some name := by
  simp only [names, List.mem_eraseDups, List.cons_append, List.mem_cons, List.mem_append,
    mem_nonterminals_iff, List.mem_filterMap, and_or_left, exists_or]

theorem mem_nodes : node ∈ G.nodes ↔ node = .name G.start ∨
    ∃ rule ∈ G.rules.zipIdx, node = .name rule.1.1 ∨ rule.1.2.goal? = some node ∨
      node ∈ innerNodes rule.2 rule.1.2 := by
  simp only [nodes, List.mem_eraseDups, List.mem_cons, List.mem_flatMap, mentioned,
    List.mem_append, Option.mem_toList, or_assoc]

/-- What is said of an alternative does not depend on its number. -/
theorem exists_mem_zipIdx_rules {P : Name × Body → Prop} :
    (∃ rule ∈ G.rules.zipIdx, P rule.1) ↔ ∃ rule ∈ G.rules, P rule := by
  refine ⟨fun h => ?_, fun h => ?_⟩
  · obtain ⟨rule, mem, holds⟩ := h
    exact ⟨rule.1, List.fst_mem_of_mem_zipIdx mem, holds⟩
  · obtain ⟨rule, mem, holds⟩ := h
    rw [← List.zipIdx_map_fst 0 G.rules] at mem
    obtain ⟨numbered, listed, rfl⟩ := List.mem_map.mp mem
    exact ⟨numbered, listed, holds⟩

theorem name_mem_nodes_iff : .name name ∈ G.nodes ↔ name ∈ G.names := by
  have notInner : ∀ {rule body}, .name name ∉ innerNodes rule body := by simp [innerNodes]
  simp only [mem_nodes, mem_names, Node.name.injEq, Body.goal?_eq_name_iff, notInner, or_false,
    ← exists_mem_zipIdx_rules]

theorem accept_mem_nodes_iff : .accept ∈ G.nodes ↔ G.rules.any (·.2.isReadingEnd) = true := by
  have notInner : ∀ {rule body}, .accept ∉ innerNodes rule body := by simp [innerNodes]
  simp only [mem_nodes, reduceCtorEq, false_or, Body.goal?_eq_accept_iff, notInner, or_false,
    List.any_eq_true, ← exists_mem_zipIdx_rules]

theorem inner_mem_nodes_iff {rule offset : Nat} : .inner rule offset ∈ G.nodes ↔
    .inner rule offset ∈ G.rules.zipIdx.flatMap fun rule => innerNodes rule.2 rule.1.2 := by
  simp only [mem_nodes, reduceCtorEq, false_or, Body.goal?_ne_inner, List.mem_flatMap]

theorem exists_inner_of_mem_innerNodes {rule : Nat} {body : Body}
    (mem : node ∈ innerNodes rule body) : ∃ offset, node = .inner rule offset := by
  obtain ⟨offset, _, rfl⟩ := List.mem_map.mp mem
  exact ⟨offset + 1, rfl⟩

/-- The chains of different alternatives have different nodes inside. -/
theorem nodup_innerNodes :
    (G.rules.zipIdx.flatMap fun rule => innerNodes rule.2 rule.1.2).Nodup := by
  have numbers : (G.rules.zipIdx.map Prod.snd).Nodup := by
    rw [List.zipIdx_map_snd]
    exact List.nodup_range'
  refine List.nodup_flatMap.mpr ⟨fun rule _ => ?_, ?_⟩
  · exact List.nodup_range.map fun _ _ same => Nat.succ.inj (Node.inner.inj same).2
  · refine (List.pairwise_map.mp numbers).imp fun other node mem memOther => other ?_
    obtain ⟨_, rfl⟩ := exists_inner_of_mem_innerNodes mem
    obtain ⟨_, same⟩ := exists_inner_of_mem_innerNodes memOther
    exact (Node.inner.inj same).1

/-- A node is counted once: the name of a nonterminal, a place inside a terminal, or the end. -/
theorem nodup_nodesByKind : G.nodesByKind.Nodup := by
  have names : (G.names.map Node.name).Nodup :=
    (nodup_eraseDups _).map fun _ _ => Node.name.inj
  have accept : (if G.rules.any (·.2.isReadingEnd) then [Node.accept] else []).Nodup := by
    split
    · exact List.nodup_singleton _
    · exact .nil
  have isName : ∀ node ∈ G.names.map Node.name, ∃ name, node = .name name := by
    intro node mem
    obtain ⟨name, _, rfl⟩ := List.mem_map.mp mem
    exact ⟨name, rfl⟩
  have isAccept : ∀ node ∈ if G.rules.any (·.2.isReadingEnd) then [Node.accept] else [],
      node = .accept := fun node mem => List.mem_singleton.mp (List.mem_ite_nil_right.mp mem).2
  have isInner : ∀ node ∈ G.rules.zipIdx.flatMap fun rule => innerNodes rule.2 rule.1.2,
      ∃ rule offset, node = .inner rule offset := by
    intro node mem
    obtain ⟨rule, _, mem⟩ := List.mem_flatMap.mp mem
    exact ⟨_, exists_inner_of_mem_innerNodes mem⟩
  refine List.nodup_append.mpr ⟨List.nodup_append.mpr ⟨names, accept, ?_⟩, nodup_innerNodes, ?_⟩
  · intro node mem other memOther
    obtain ⟨_, rfl⟩ := isName node mem
    rw [isAccept other memOther]
    exact nofun
  · intro node mem other memOther
    obtain ⟨_, _, rfl⟩ := isInner other memOther
    rcases List.mem_append.mp mem with name | accept
    · obtain ⟨_, rfl⟩ := isName node name
      exact nofun
    · rw [isAccept node accept]
      exact nofun

/-- The nodes are those of the three kinds, each of them once. -/
theorem nodes_perm (G : Grammar) : G.nodes.Perm G.nodesByKind := by
  have nodup : G.nodes.Nodup := nodup_eraseDups _
  refine (List.perm_ext_iff_of_nodup nodup nodup_nodesByKind).mpr fun node => ?_
  rw [nodesByKind, List.mem_append, List.mem_append, List.mem_ite_nil_right, List.mem_singleton]
  cases node with
  | name name => simp [name_mem_nodes_iff, innerNodes]
  | accept => simp [accept_mem_nodes_iff, innerNodes]
  | inner rule offset => simp [inner_mem_nodes_iff]

/-- There is a node for each name, one that accepts if a terminal ends an alternative, and
for each terminal one fewer than it has characters. -/
theorem length_nodes (G : Grammar) : G.nodes.length =
    G.names.length + (if G.rules.any (·.2.isReadingEnd) then 1 else 0) +
      (G.rules.map fun rule => rule.2.text.length - 1).sum := by
  have inner : (G.rules.zipIdx.flatMap fun rule => innerNodes rule.2 rule.1.2).length =
      (G.rules.map fun rule => rule.2.text.length - 1).sum := by
    simp only [List.length_flatMap, innerNodes, List.length_map, List.length_range]
    rw [map_zipIdx_rules fun rule => rule.2.text.length - 1]
  rw [(nodes_perm G).length_eq, nodesByKind, List.length_append, List.length_append,
    List.length_map, inner]
  congr 2
  split
  · rfl
  · rfl

/-! ## The automaton and its graph -/

/-- A move of the automaton is an edge that empty moves lead to. -/
theorem joins_toAutomaton : G.toAutomaton.Joins p c q ↔
    ∃ e ∈ G.edges, EmptyPath G.numberedMoves p (G.nodes.idxOf e.source) ∧ c = e.symbol ∧
      q = G.nodes.idxOf e.target := by
  have closed : G.toAutomaton.Joins p c q ↔
      ((G.graph G.nodes).closeEmptyMoves G.numberedMoves).Joins p c q := Iff.rfl
  rw [closed, Automaton.joins_closeEmptyMoves]
  simp only [joins_graph]
  refine ⟨fun h => ?_, fun h => ?_⟩
  · obtain ⟨_, path, e, mem, rfl, symbol, target⟩ := h
    exact ⟨e, mem, path, symbol, target⟩
  · obtain ⟨e, mem, path, symbol, target⟩ := h
    exact ⟨_, path, e, mem, rfl, symbol, target⟩

theorem initialFlags_toAutomaton : G.toAutomaton.initialFlags =
    (List.range G.nodes.length).map fun id => (id, decide (id = 0)) := by
  have placed : G.toAutomaton.initialFlags =
      ((G.graph G.nodes).closeEmptyMoves G.numberedMoves).initialFlags :=
    map_states_onCircle fun _ _ => rfl
  have numbered := congrArg (List.map fun id => (id, decide (id = 0)))
    (List.zipIdx_map_snd 0 G.nodes)
  rw [List.map_map, ← List.range_eq_range'] at numbered
  rw [placed, Automaton.initialFlags_closeEmptyMoves, Automaton.initialFlags, graph,
    Automaton.states_foldl_link, List.map_map]
  exact numbered

theorem ids_toAutomaton :
    G.toAutomaton.states.map State.id = List.range G.nodes.length := by
  have ids := congrArg (List.map Prod.fst) (initialFlags_toAutomaton (G := G))
  rw [Automaton.initialFlags, List.map_map, List.map_map] at ids
  exact ids.trans (List.map_id _)

theorem length_states_toAutomaton : G.toAutomaton.states.length = G.nodes.length := by
  have length := congrArg List.length (ids_toAutomaton (G := G))
  rw [List.length_map, List.length_range] at length
  exact length

theorem hasState_toAutomaton (mem : node ∈ G.nodes) :
    G.toAutomaton.hasState (G.nodes.idxOf node) := by
  rw [Automaton.hasState_iff_declares, Automaton.declares_iff_mem_ids, ids_toAutomaton,
    List.mem_range]
  exact List.idxOf_lt_length_of_mem mem

theorem initial_toAutomaton :
    (G.toAutomaton.states.filter State.isInitial).map State.id = [0] := by
  have nonempty : G.nodes ≠ [] := List.ne_nil_of_mem start_mem_nodes
  obtain ⟨first, rest, found⟩ := List.exists_cons_of_ne_nil nonempty
  rw [Automaton.map_id_filter_isInitial, initialFlags_toAutomaton, found, List.length_cons,
    List.range_succ_eq_map]
  simp [List.filter_map, Function.comp_def]

/-- A state is joined to others only as a node, or as a node that empty moves leave. -/
theorem hasState_of_joins (joins : G.toAutomaton.Joins p c q) :
    G.toAutomaton.hasState p ∧ G.toAutomaton.hasState q := by
  obtain ⟨e, inEdges, path, _, rfl⟩ := joins_toAutomaton.mp joins
  obtain ⟨memSource, memTarget⟩ := mem_nodes_of_mem_edges inEdges
  refine ⟨?_, hasState_toAutomaton memTarget⟩
  cases path with
  | nil => exact hasState_toAutomaton memSource
  | cons move _ =>
    obtain ⟨⟨source, target⟩, inMoves, same⟩ := List.mem_map.mp move
    rw [← (Prod.mk.inj same).1]
    exact hasState_toAutomaton (mem_nodes_of_mem_emptyMoves inMoves).1

theorem simple_toAutomaton : G.toAutomaton.Simple := by
  have graph : (G.graph G.nodes).Simple :=
    List.foldlRecOn _ _ ⟨rfl, .nil, fun _ mem => absurd mem List.not_mem_nil⟩
      fun _ simple _ _ => simple.link
  have closed : ((G.graph G.nodes).closeEmptyMoves G.numberedMoves).Simple :=
    graph.closeEmptyMoves
  exact ⟨closed.numbered, closed.distinct, closed.labelled⟩

/-! ## Symbols -/

/-- A chain reads every character of its terminal. -/
theorem exists_mem_chain_of_mem {rule : Nat} {goal : Node} {text : Word} (mem : c ∈ text) :
    ∀ {source : Node} {offset : Nat}, ∃ e ∈ chain rule source goal offset text, c = e.symbol := by
  induction text with
  | nil => cases mem
  | cons d text ih =>
    intro source offset
    cases text with
    | nil => exact ⟨_, List.mem_cons_self, List.mem_singleton.mp mem⟩
    | cons e rest =>
      rcases List.mem_cons.mp mem with rfl | later
      · exact ⟨_, List.mem_cons_self, rfl⟩
      · obtain ⟨edge, inChain, symbol⟩ := ih later
        exact ⟨edge, List.mem_cons_of_mem _ inChain, symbol⟩

/-- The symbols are the characters of the terminals. -/
theorem mem_alphabet_toAutomaton : c ∈ G.toAutomaton.alphabet ↔ c ∈ G.terminals := by
  rw [Automaton.mem_alphabet]
  refine ⟨fun h => ?_, fun mem => ?_⟩
  · obtain ⟨p, q, joins⟩ := h
    obtain ⟨e, inEdges, _, rfl, _⟩ := joins_toAutomaton.mp joins
    exact symbol_mem_terminals inEdges
  · obtain ⟨⟨left, body⟩, inRules, inText⟩ := mem_terminals.mp mem
    obtain ⟨rule, found⟩ := List.getElem?_of_mem inRules
    obtain ⟨goal, isGoal⟩ := Body.exists_goal?_of_mem_text inText
    obtain ⟨e, inChain, symbol⟩ :=
      @exists_mem_chain_of_mem c rule goal body.text inText (.name left) 0
    exact ⟨_, _, joins_toAutomaton.mpr
      ⟨e, mem_edges.mpr ⟨rule, left, body, goal, found, isGoal, inChain⟩, .nil, symbol, rfl⟩⟩

/-! ## The whole automaton -/

/-- States are numbered from zero in the order in which they are listed, and state zero alone
is initial. Transitions are numbered too, no two join the same states, all join states that
there are, and none is without symbols. The symbols are the characters of the grammar's
terminals. There is a state for each name, one in which terminals end alternatives, if any
does, and for each terminal one fewer than it has characters. -/
theorem toAutomaton_shape (G : Grammar) :
    let A := G.toAutomaton
    A.states.map State.id = List.range A.states.length ∧
    (A.states.filter State.isInitial).map State.id = [0] ∧
    A.transitions.map Transition.id = List.range A.transitions.length ∧
    (A.transitions.map fun t => (t.source, t.target)).Nodup ∧
    (∀ t ∈ A.transitions, A.hasState t.source ∧ A.hasState t.target ∧ t.symbols.toList ≠ []) ∧
    A.alphabet = .ofList G.terminals ∧
    A.states.length =
      G.names.length + (if G.rules.any (·.2.isReadingEnd) then 1 else 0) +
        (G.rules.map fun rule => rule.2.text.length - 1).sum := by
  intro A
  have simple : A.Simple := simple_toAutomaton
  refine ⟨?_, initial_toAutomaton, simple.numbered, simple.distinct, fun t mem => ?_, ?_, ?_⟩
  · rw [ids_toAutomaton, length_states_toAutomaton]
  · have labelled := simple.labelled t mem
    obtain ⟨c, symbol⟩ := List.exists_mem_of_ne_nil _ labelled
    obtain ⟨source, target⟩ := hasState_of_joins ⟨t, mem, rfl, symbol, rfl⟩
    exact ⟨source, target, labelled⟩
  · refine OrderedSet.ext fun c => ?_
    rw [mem_alphabet_toAutomaton, OrderedSet.mem_ofList]
  · rw [length_states_toAutomaton, length_nodes]

/-- Two alternatives that join the same states, terminals of two characters with and without
a continuation, an empty move, and a nonterminal without alternatives. -/
theorem toAutomaton_shape_of_chains :
    let G := ofRules ['S'] [(['S'], .continued ['a', 'b'] ['A']), (['S'], .continued ['a'] ['S']),
      (['S'], .continued ['c'] ['S']), (['A'], .continued [] ['S']), (['A'], .continued ['b'] ['X']),
      (['A'], .terminal ['c', 'd'])]
    let A := G.toAutomaton
    A.states.map State.id = [0, 1, 2, 3, 4, 5] ∧
      (∃ t ∈ A.transitions, A.hasState t.source ∧ A.hasState t.target ∧ t.symbols.toList ≠ []) ∧
      A.alphabet = .ofList ['a', 'b', 'c', 'd'] := by
  intro G A
  obtain ⟨ids, _, _, _, transitions, alphabet, states⟩ := toAutomaton_shape G
  have names : G.names = [['S'], ['A'], ['X']] := by decide
  have terminals : G.terminals = ['a', 'b', 'c', 'd'] := by decide
  have count : A.states.length = 6 := by
    rw [states, names]
    decide
  have symbol : 'a' ∈ A.alphabet := mem_alphabet_toAutomaton.mpr (by rw [terminals]; simp)
  obtain ⟨_, _, t, mem, _⟩ := Automaton.mem_alphabet.mp symbol
  refine ⟨?_, ⟨t, mem, transitions t mem⟩, ?_⟩
  · rw [ids, count]
    rfl
  · rw [alphabet, terminals]

end Grammar

end RightLinear
