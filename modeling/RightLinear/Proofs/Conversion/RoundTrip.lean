import RightLinear.Proofs.Conversion.AutomatonFile
import RightLinear.Proofs.Conversion.GrammarFile
import RightLinear.Proofs.Grammar.Shape

/-!
# From a grammar file to an automaton file and back

The start symbol of a grammar that was read has an alternative, so the initial state
of its automaton is final or left by an edge, and stays so when the automaton is
written and read again. That is what it takes for the grammar of this automaton to
begin with the right nonterminal. Over lowercase letters and digits both files can
be read, and the grammar at the end has the language of the one at the beginning.

* `Grammar.live_toAutomaton`: the initial state is live.
* `Grammar.read_render_toGrammar_toAutomaton`: the way there and back.
-/

namespace RightLinear

/-! ## Automata that agree -/

namespace Automaton.Agrees

variable {A B : Automaton} (agrees : A.Agrees B)

include agrees

theorem live {p : Nat} (live : B.Live p) : A.Live p := by
  rcases live with isFinal | ⟨c, q, joins⟩
  · exact Or.inl ((agrees.isFinal p).mpr isFinal)
  · exact Or.inr ⟨c, q, (agrees.joins p c q).mpr joins⟩

theorem mem_alphabet {c : Char} (mem : c ∈ A.alphabet) : c ∈ B.alphabet := by
  obtain ⟨p, q, joins⟩ := Automaton.mem_alphabet.mp mem
  exact Automaton.mem_alphabet.mpr ⟨p, q, (agrees.joins p c q).mp joins⟩

end Automaton.Agrees

namespace Grammar

variable {G : Grammar} {text : List Char}

/-! ## The initial state of the automaton -/

theorem exists_mem_chain {rule : Nat} {source goal : Node} {offset : Nat} {read : Word}
    (nonempty : read ≠ []) : ∃ e ∈ chain rule source goal offset read, e.source = source := by
  cases read with
  | nil => exact absurd rfl nonempty
  | cons c read =>
    cases read with
    | nil => exact ⟨_, List.mem_cons_self, rfl⟩
    | cons d read => exact ⟨_, List.mem_cons_self, rfl⟩

/-- In the graph of a grammar that was read some move leads away from its start, or it is final. -/
theorem live_graph (fromFile : G.FromFile text) :
    (G.graph G.nodes).Live (G.nodes.idxOf (.name G.start)) := by
  obtain ⟨body, mem⟩ := List.exists_mem_of_ne_nil _ fromFile.starts
  obtain ⟨rule, found⟩ := exists_rule_of_mem_bodies mem
  obtain ⟨word, spelled, _⟩ := fromFile.spelled _ (mem_rules.mpr mem)
  have leaves : ∀ {goal}, body.goal? = some goal → body.text ≠ [] →
      (G.graph G.nodes).Live (G.nodes.idxOf (.name G.start)) := by
    intro goal isGoal nonempty
    obtain ⟨e, inChain, atStart⟩ := @exists_mem_chain rule (.name G.start) goal 0 _ nonempty
    have inEdges : e ∈ G.edges := mem_edges.mpr ⟨rule, _, body, goal, found, isGoal, inChain⟩
    exact Or.inr ⟨_, _, joins_graph.mpr ⟨e, inEdges, by rw [atStart], rfl, rfl⟩⟩
  cases spelled with
  | empty =>
    have accepting : G.isAccepting (.name G.start) = true := List.any_eq_true.mpr ⟨_, mem, rfl⟩
    exact Or.inl ((isFinal_graph start_mem_nodes).mpr accepting)
  | terminal nonempty _ =>
    cases word with
    | nil => exact absurd rfl nonempty
    | cons c word => exact leaves rfl nonempty
  | continued nonempty _ _ => exact leaves rfl nonempty

theorem isStart_toAutomaton (fromFile : G.FromFile text) :
    G.toAutomaton.IsStart (G.nodes.idxOf (.name G.start)) := by
  rw [toAutomaton_of_fromFile fromFile, isStart_onCircle]
  exact isStart_graph start_mem_nodes idxOf_start_nodes

theorem live_toAutomaton (fromFile : G.FromFile text) :
    G.toAutomaton.Live (G.nodes.idxOf (.name G.start)) := by
  rw [toAutomaton_of_fromFile fromFile]
  rcases live_graph fromFile with isFinal | joins
  · exact Or.inl (isFinal_onCircle.mpr isFinal)
  · exact Or.inr joins

/-! ## There and back -/

/-- A grammar over lowercase letters and digits that was read goes through the file of
its automaton and the file of that automaton's grammar without a fault, and what is
read in the end agrees with it on all words without an uppercase character. As in
`read_render_toAutomaton`, every text that is held in memory is short enough. -/
theorem read_render_toGrammar_toAutomaton (isRead : read text = .ok G)
    (addressable : text.length < Directive.idBound) (letters : ∀ c ∈ G.terminals, IsLetter c) :
    ∃ A H G', Automaton.read G.toAutomaton.render = .ok A ∧ A.toGrammar = .ok H ∧
      read H.render = .ok G' ∧
      ∀ w, w.any Text.isUppercase = false → G'.accepts w = G.accepts w := by
  have fromFile := fromFile_of_read isRead
  have unquoted : ∀ c ∈ G.terminals, Text.isBlank c = false ∧ c ≠ ',' := by
    intro c mem
    obtain ⟨shown, notComma, _⟩ := legible_of_isAlphanum (letters c mem).isAlphanum
    exact ⟨shown, notComma⟩
  -- the automaton that is read from the first file
  have reread := Automaton.read_render (legible_toAutomaton fromFile addressable unquoted)
  have agrees := Automaton.agrees_ofDirectives_directives G.toAutomaton
  generalize Automaton.ofDirectives G.toAutomaton.directives = A at reread agrees
  have distinct : (A.states.map State.id).Nodup := (Automaton.ascending_of_read reread).nodup
  have start := (agrees.isStart _).mpr (isStart_toAutomaton fromFile)
  have live := agrees.live (live_toAutomaton fromFile)
  have lettersA : ∀ c ∈ A.alphabet, IsLetter c := fun c mem =>
    letters c (mem_alphabet_toAutomaton.mp (agrees.mem_alphabet mem))
  -- the grammar that is read from the second
  obtain ⟨⟨s, mem, isInitial, _⟩, _⟩ := id start
  obtain ⟨H, converted⟩ := Automaton.exists_toGrammar mem isInitial
  refine ⟨A, H, H.reread, reread, converted,
    read_render (Automaton.plain_toGrammar converted lettersA), fun w lower => ?_⟩
  rw [Automaton.accepts_reread_of_live converted distinct start live lower, agrees.accepts,
    accepts_toAutomaton_of_lower lower]

/-- Two terminals, one of them quoted. -/
theorem read_render_toGrammar_toAutomaton_of_quoted :
    let text := "S -> a | 'b'\n".toList
    let G := ofLines [orSign 'b']
    read text = .ok G ∧ text.length < Directive.idBound ∧ (∀ c ∈ G.terminals, IsLetter c) ∧
      ['b'].any Text.isUppercase = false ∧
      ∃ A H G', Automaton.read G.toAutomaton.render = .ok A ∧ A.toGrammar = .ok H ∧
        read H.render = .ok G' ∧ G'.accepts ['b'] = true := by
  intro text G
  have isRead : read text = .ok G := read_orSign (by decide) (by decide)
  have addressable : text.length < Directive.idBound := by decide
  have letters : ∀ c ∈ G.terminals, IsLetter c := by
    have lower : G.terminals.all Char.isLower = true := by decide
    exact fun c mem => Or.inl (List.all_eq_true.mp lower c mem)
  have lower : ['b'].any Text.isUppercase = false := by decide
  have derives : G.Derives ['S'] ['b'] := .terminal (by decide)
  obtain ⟨A, H, G', reread, converted, again, agrees⟩ :=
    read_render_toGrammar_toAutomaton isRead addressable letters
  exact ⟨isRead, addressable, letters, lower, A, H, G', reread, converted, again,
    (agrees _ lower).trans ((accepts_of_lower lower).mpr derives)⟩

end Grammar

end RightLinear
