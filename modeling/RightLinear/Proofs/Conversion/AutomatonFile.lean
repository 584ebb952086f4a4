import Mathlib.Algebra.Order.BigOperators.Group.List
import Mathlib.Algebra.Order.Group.Nat
import RightLinear.Proofs.Automaton.Printer
import RightLinear.Proofs.Grammar.Graph
import RightLinear.Proofs.List.EraseDups
import RightLinear.Proofs.Rule.File

/-!
# The automaton of a grammar file as a file

A grammar that was read has no alternative that continues without reading, so its
automaton is the graph of the grammar as it stands. States are numbered from zero,
and there are no more of them than the grammar file has characters, so that all
their ids can be read again if the text fits into memory. Symbols are written
without quotes, though: a blank or a comma that was quoted in the grammar file is
lost or refused.

* `Automaton.Legible.link`, `Grammar.legible_graph`: the graph can be written.
* `Grammar.length_nodes_le`: the number of states.
* `Grammar.legible_toAutomaton`: the automaton can be written.
* `Grammar.read_render_toAutomaton`: the conversion by way of a file.
-/

namespace RightLinear

/-! ## Links -/

namespace Transition.Legible

variable {t : Transition} {c : Char}

theorem insert (legible : t.Legible) (legibleChar : RightLinear.Legible c) :
    Transition.Legible { t with symbols := t.symbols.insert c } where
  source := legible.source
  target := legible.target
  nonempty := List.ne_nil_of_mem (OrderedSet.mem_insert.mpr (Or.inl rfl))
  symbol d mem := by
    rcases OrderedSet.mem_insert.mp mem with rfl | old
    · exact legibleChar
    · exact legible.symbol d old

end Transition.Legible

namespace Automaton

variable {A : Automaton}

/-- A link between ids that fit, on a character that can be read, leaves the automaton legible. -/
theorem Legible.link (legible : A.Legible) {source target : Nat} {c : Char}
    (boundedSource : source < Directive.idBound) (boundedTarget : target < Directive.idBound)
    (legibleChar : RightLinear.Legible c) : (A.link source target c).Legible := by
  refine ⟨fun s mem => legible.state s (states_link ▸ mem), ?_⟩
  rw [Automaton.link]
  split
  · next found =>
    exact forall_mem_linkFirst (fun t legible => legible.insert legibleChar) found
      legible.transition
  · intro t mem
    rcases List.mem_append.mp mem with old | new
    · exact legible.transition t old
    · rw [List.mem_singleton.mp new]
      refine ⟨boundedSource, boundedTarget, List.cons_ne_nil c [], fun d mem => ?_⟩
      rw [OrderedSet.mem_singleton.mp mem]
      exact legibleChar

theorem Legible.foldl_link {β : Type} {source target : β → Nat} {symbol : β → Char} {l : List β}
    (legible : A.Legible) (bounded : ∀ b ∈ l, source b < Directive.idBound ∧
      target b < Directive.idBound ∧ RightLinear.Legible (symbol b)) :
    (l.foldl (fun A b => A.link (source b) (target b) (symbol b)) A).Legible := by
  induction l generalizing A with
  | nil => exact legible
  | cons b l ih =>
    obtain ⟨⟨boundedSource, boundedTarget, legibleChar⟩, later⟩ := List.forall_mem_cons.mp bounded
    exact ih (legible.link boundedSource boundedTarget legibleChar) later

end Automaton

/-! ## The number of states -/

namespace Grammar

variable {G : Grammar} {text : List Char}

/-- A rule mentions no more nodes than its spelling has characters. -/
theorem length_mentioned_le {rule : Nat} {left : Name} {body : Body} {word : List Char}
    (spelled : Body.Spells word body) : (mentioned rule left body).length ≤ body.size := by
  have counted : ∀ {goal : Node} {read : Word}, read ≠ [] →
      (Node.name left :: (some goal).toList ++
        (List.range (read.length - 1)).map fun offset => Node.inner rule (offset + 1)).length ≤
      1 + read.length := by
    intro goal read nonempty
    have some := List.length_pos_of_ne_nil nonempty
    rw [List.length_append, List.length_map, List.length_range, Option.toList_some,
      List.length_cons, List.length_singleton]
    omega
  cases spelled with
  | empty => exact Nat.le_refl 1
  | terminal nonempty _ =>
    cases word with
    | nil => exact absurd rfl nonempty
    | cons c word => exact counted nonempty
  | continued nonempty _ _ => exact counted nonempty

/-- A view of the alternatives does not depend on their numbers. -/
theorem map_zipIdx_rules {β : Type} (view : Name × Body → β) :
    (G.rules.zipIdx.map fun rule => view rule.1) = G.rules.map view := by
  have first := congrArg (List.map view) (List.zipIdx_map_fst 0 G.rules)
  rw [List.map_map] at first
  exact first

/-- There is one state for the start symbol and no more than the alternatives take
characters. -/
theorem length_nodes_le (fromFile : G.FromFile text) :
    G.nodes.length ≤ 1 + (G.rules.map fun rule => rule.2.size).sum := by
  have each : (G.rules.zipIdx.map fun rule => (mentioned rule.2 rule.1.1 rule.1.2).length).sum ≤
      (G.rules.zipIdx.map fun rule => rule.1.2.size).sum := by
    refine List.sum_le_sum fun rule mem => ?_
    obtain ⟨word, spelled, _⟩ :=
      fromFile.spelled rule.1 (List.mem_of_getElem? (List.mem_zipIdx_iff_getElem?.mp mem))
    exact length_mentioned_le spelled
  have listed := length_eraseDups_le (.name G.start ::
    G.rules.zipIdx.flatMap fun rule => mentioned rule.2 rule.1.1 rule.1.2)
  rw [List.length_cons, List.length_flatMap] at listed
  rw [map_zipIdx_rules fun rule => rule.2.size] at each
  rw [nodes]
  omega

theorem length_nodes_le_idBound (fromFile : G.FromFile text)
    (addressable : text.length < Directive.idBound) : G.nodes.length ≤ Directive.idBound := by
  have nodes := length_nodes_le fromFile
  have size := fromFile.size
  have large : 2 ≤ Directive.idBound := by decide
  omega

/-! ## Symbols -/

/-- The edges of a chain have symbols of the text that it reads. -/
theorem symbol_mem_of_mem_chain {rule : Nat} {goal : Node} {e : Edge} {read : Word} :
    ∀ {source : Node} {offset : Nat}, e ∈ chain rule source goal offset read →
      e.symbol ∈ read := by
  induction read with
  | nil => exact fun mem => absurd mem List.not_mem_nil
  | cons c read ih =>
    intro source offset mem
    cases read with
    | nil =>
      rw [List.mem_singleton.mp mem]
      exact List.mem_cons_self
    | cons d read =>
      rcases List.mem_cons.mp mem with rfl | later
      · exact List.mem_cons_self
      · exact List.mem_cons_of_mem c (ih later)

theorem symbol_mem_terminals {e : Edge} (mem : e ∈ G.edges) : e.symbol ∈ G.terminals := by
  obtain ⟨rule, left, body, goal, found, _, inChain⟩ := mem_edges.mp mem
  exact mem_terminals.mpr ⟨_, List.mem_of_getElem? found, symbol_mem_of_mem_chain inChain⟩

/-! ## The automaton as a file -/

theorem legible_graph (bounded : G.nodes.length ≤ Directive.idBound)
    (legible : ∀ c ∈ G.terminals, Legible c) : (G.graph G.nodes).Legible := by
  have numbered : ∀ {node}, node ∈ G.nodes → G.nodes.idxOf node < Directive.idBound :=
    fun mem => Nat.lt_of_lt_of_le (List.idxOf_lt_length_of_mem mem) bounded
  refine Automaton.Legible.foldl_link ⟨fun s mem => ?_, fun t mem => ?_⟩ fun e mem => ?_
  · obtain ⟨⟨node, id⟩, found, rfl⟩ := List.mem_map.mp mem
    obtain ⟨inNodes, _⟩ := List.getElem?_eq_some_iff.mp (List.mem_zipIdx_iff_getElem?.mp found)
    exact Nat.lt_of_lt_of_le inNodes bounded
  · cases mem
  · obtain ⟨source, target⟩ := mem_nodes_of_mem_edges mem
    exact ⟨numbered source, numbered target, legible _ (symbol_mem_terminals mem)⟩

/-- The automaton of a grammar without silent alternatives is its graph. -/
theorem toAutomaton_of_fromFile (fromFile : G.FromFile text) :
    G.toAutomaton = onCircle (G.graph G.nodes) := by
  have none : G.emptyMoves = [] := by
    refine List.eq_nil_iff_forall_not_mem.mpr fun move mem => ?_
    obtain ⟨left, next, inBodies, _⟩ := mem_emptyMoves.mp mem
    obtain ⟨word, spelled, _⟩ := fromFile.spelled _ (mem_rules.mpr inBodies)
    cases spelled with
    | continued nonempty _ _ => exact nonempty rfl
  rw [toAutomaton_eq, numberedMoves, none]
  rfl

theorem legible_onCircle {A : Automaton} (legible : A.Legible) : (onCircle A).Legible := by
  refine ⟨fun s mem => ?_, legible.transition⟩
  have listed : s.id ∈ A.states.map State.id := by
    rw [← map_states_onCircle fun _ _ => rfl]
    exact List.mem_map_of_mem mem
  obtain ⟨t, inStates, same⟩ := List.mem_map.mp listed
  rw [← same]
  exact legible.state t inStates

/-- The automaton of a grammar that was read can be written, unless a terminal holds
a blank or a comma. -/
theorem legible_toAutomaton (fromFile : G.FromFile text)
    (addressable : text.length < Directive.idBound)
    (unquoted : ∀ c ∈ G.terminals, Text.isBlank c = false ∧ c ≠ ',') :
    G.toAutomaton.Legible := by
  rw [toAutomaton_of_fromFile fromFile]
  refine legible_onCircle (legible_graph (length_nodes_le_idBound fromFile addressable) ?_)
  intro c mem
  obtain ⟨shown, notComma⟩ := unquoted c mem
  obtain ⟨rule, inRules, inText⟩ := mem_terminals.mp mem
  obtain ⟨word, spelled, uncommented⟩ := fromFile.spelled rule inRules
  exact ⟨shown, notComma, uncommented c (spelled.mem inText)⟩

/-! ## By way of a file -/

theorem accepts_toAutomaton_of_lower {w : Word} (lower : w.any Text.isUppercase = false) :
    G.toAutomaton.accepts w = G.accepts w := by
  rw [Bool.eq_iff_iff, toAutomaton_accepts_iff, accepts_of_lower lower]

/-- The automaton of a grammar that was read is written as a file that can be read, and
what is read agrees with the grammar on all words without an uppercase character,
provided that no terminal of the grammar holds a blank or a comma. Ids are 64 bits wide,
as addresses are, so every text that is held in memory is shorter than their bound. -/
theorem read_render_toAutomaton (isRead : read text = .ok G)
    (addressable : text.length < Directive.idBound)
    (unquoted : ∀ c ∈ G.terminals, Text.isBlank c = false ∧ c ≠ ',') :
    ∃ A, Automaton.read G.toAutomaton.render = .ok A ∧
      ∀ w, w.any Text.isUppercase = false → A.accepts w = G.accepts w := by
  have legible := legible_toAutomaton (fromFile_of_read isRead) addressable unquoted
  refine ⟨_, Automaton.read_render legible, fun w lower => ?_⟩
  rw [(Automaton.agrees_ofDirectives_directives _).accepts, accepts_toAutomaton_of_lower lower]

/-- A sign that the automaton file uses itself. -/
theorem read_render_toAutomaton_of_colon :
    let text := "S -> a | ':'\n".toList
    let G := ofLines [orSign ':']
    read text = .ok G ∧ text.length < Directive.idBound ∧
      (∀ c ∈ G.terminals, Text.isBlank c = false ∧ c ≠ ',') ∧
      [':'].any Text.isUppercase = false ∧
      ∃ A, Automaton.read G.toAutomaton.render = .ok A ∧ A.accepts [':'] = true := by
  intro text G
  have isRead : read text = .ok G := read_orSign (by decide) (by decide)
  have addressable : text.length < Directive.idBound := by decide
  have unquoted : ∀ c ∈ G.terminals, Text.isBlank c = false ∧ c ≠ ',' :=
    List.all_iff_forall_prop.mp (by decide)
  have lower : [':'].any Text.isUppercase = false := by decide
  have derives : G.Derives ['S'] [':'] := .terminal (by decide)
  obtain ⟨A, reread, agrees⟩ := read_render_toAutomaton isRead addressable unquoted
  exact ⟨isRead, addressable, unquoted, lower, A, reread,
    (agrees _ lower).trans ((accepts_of_lower lower).mpr derives)⟩

/-- A comma that was quoted is no symbol of the automaton that is read. -/
theorem accepts_reread_of_comma :
    let G := ofLines [orSign ',']
    read "S -> a | ','\n".toList = .ok G ∧ [','].any Text.isUppercase = false ∧
      G.accepts [','] = true ∧
      ∃ A, Automaton.read G.toAutomaton.render = .ok A ∧ A.accepts [','] = false := by
  intro G
  have lower : [','].any Text.isUppercase = false := by decide
  have derives : G.Derives ['S'] [','] := .terminal (by decide)
  have bounded : ∀ s ∈ G.toAutomaton.states, s.id < Directive.idBound := by
    have ids : G.toAutomaton.states.map State.id = [0, 1] := by decide
    intro s mem
    have small : ∀ id ∈ [0, 1], id < Directive.idBound := by decide
    exact small s.id (ids ▸ List.mem_map_of_mem mem)
  have tells : List.Forall₂ (Tells Directive.read)
      (G.toAutomaton.transitions.map Transition.render) [.transition 0 1 ['a']] := by
    have line : G.toAutomaton.transitions.map Transition.render = ["0 -> 1 : , a".toList] := by
      decide
    rw [line]
    exact .cons ⟨rfl, rfl, List.all_iff_forall_prop.mp (by decide)⟩ .nil
  have holds := holds_flatMap (Automaton.tells_renderLines bounded tells)
  refine ⟨read_orSign (by decide) (by decide), lower, (accepts_of_lower lower).mpr derives, _,
    Automaton.read_eq_ok.mpr ⟨_, holds, rfl⟩, ?_⟩
  rw [Bool.eq_false_iff, Ne, Automaton.accepts_iff_exists_path]
  rintro ⟨p, q, _, path, _⟩
  cases path with
  | cons joins _ =>
    obtain ⟨d, mem, moves⟩ := Automaton.joins_ofDirectives.mp joins
    rcases List.mem_append.mp mem with state | transition
    · exact Automaton.still_of_mem_stateDirectives state moves
    · rw [List.mem_singleton.mp transition] at moves
      exact absurd moves.2.1 (by decide)

end Grammar

end RightLinear
