import RightLinear.Automaton.Productions
import RightLinear.Grammar.Derivation
import RightLinear.Proofs.Automaton.EmptyMove
import RightLinear.Proofs.Grammar.Membership
import RightLinear.Proofs.Grammar.Rules

/-!
# The grammar of an automaton derives its language

A path through an automaton and a derivation in its grammar take the same steps:
a symbol read on the way to the next state is an alternative that continues with
that state's nonterminal, and a path ends where the alternatives hold the empty
word. Different states have different nonterminals, since different numbers have
different numerals. A state that is neither listed nor left by a transition has no
alternatives, and no path through it goes on.

* `Automaton.mem_bodies_toGrammar`: the alternatives of a state's nonterminal.
* `Automaton.derives_iff_exists_path`: derivations and paths.
* `Automaton.toGrammar_spec`: the conversion as a whole.
-/

namespace RightLinear

theorem stateName_ne_nil (id : Nat) : stateName id ≠ [] := List.cons_ne_nil _ _

theorem stateName_injective {p q : Nat} (same : stateName p = stateName q) : p = q :=
  Numeral.render_injective (List.cons.inj same).2

namespace Automaton

variable {A : Automaton} {p q id : Nat} {c : Char} {body : Body}

/-! ## The alternatives of a state -/

theorem mem_moves : (c, q) ∈ A.moves p ↔ A.Joins p c q := by
  simp only [moves, List.mem_eraseDups, List.mem_flatMap, List.mem_filter, List.mem_map,
    decide_eq_true_eq, Prod.mk.injEq]
  refine ⟨fun h => ?_, fun h => ?_⟩
  · obtain ⟨t, ⟨mem, rfl⟩, d, symbol, rfl, rfl⟩ := h
    exact ⟨t, mem, rfl, symbol, rfl⟩
  · obtain ⟨t, mem, rfl, symbol, rfl⟩ := h
    exact ⟨t, ⟨mem, rfl⟩, c, symbol, rfl, rfl⟩

/-- Where no id occurs twice, a state is final if the record that is found under
its id is. -/
theorem isFinal_iff_state? (distinct : (A.states.map State.id).Nodup) :
    (A.state? id).any State.isFinal = true ↔ A.IsFinal id := by
  have first : ∀ {l : List State}, (l.map State.id).Nodup →
      ((l.find? (·.id = id)).any State.isFinal = true ↔ ∃ s ∈ l, s.id = id ∧ s.isFinal) := by
    intro l distinct
    induction l with
    | nil => simp
    | cons s l ih =>
      obtain ⟨fresh, distinct⟩ := List.nodup_cons.mp distinct
      rw [List.exists_mem_cons_iff, ← ih distinct]
      by_cases found : s.id = id
      · have noOther : l.find? (·.id = id) = none := by
          refine List.find?_eq_none.mpr fun t mem same => fresh ?_
          rw [found, ← of_decide_eq_true same]
          exact List.mem_map_of_mem mem
        rw [List.find?_cons_of_pos (by simpa using found), noOther]
        simp [found]
      · rw [List.find?_cons_of_neg (by simpa using found)]
        simp [found]
  exact first distinct

/-- The alternatives of a state are its moves, and the empty word if it is final. -/
theorem mem_bodies :
    body ∈ A.bodies p ↔
      (∃ c q, body = .continued [c] (stateName q) ∧ A.Joins p c q) ∨
        body = .empty ∧ (A.state? p).any State.isFinal = true := by
  rw [bodies, List.mem_append, List.mem_map]
  refine or_congr ⟨fun h => ?_, fun h => ?_⟩ ⟨fun h => ?_, fun h => ?_⟩
  · obtain ⟨⟨c, q⟩, mem, rfl⟩ := h
    exact ⟨c, q, rfl, mem_moves.mp mem⟩
  · obtain ⟨c, q, rfl, joins⟩ := h
    exact ⟨(c, q), mem_moves.mpr joins, rfl⟩
  · split at h
    · next isFinal => exact ⟨List.mem_singleton.mp h, isFinal⟩
    · cases h
  · obtain ⟨rfl, isFinal⟩ := h
    rw [if_pos isFinal]
    exact List.mem_singleton.mpr rfl

theorem mem_sourceIds_of_mem_bodies (mem : body ∈ A.bodies p) : p ∈ A.sourceIds := by
  rw [sourceIds, OrderedSet.mem_ofList, List.mem_append]
  rcases mem_bodies.mp mem with ⟨c, q, _, t, inTransitions, rfl, _⟩ | ⟨_, isFinal⟩
  · exact Or.inr (List.mem_map_of_mem inTransitions)
  · cases found : A.state? p with
    | none =>
      rw [found] at isFinal
      cases isFinal
    | some s =>
      have sameId : s.id = p := by simpa using List.find?_some found
      exact Or.inl (sameId ▸ List.mem_map_of_mem (List.mem_of_find?_eq_some found))

/-! ## The whole grammar -/

/-- The alternatives of all states, those of one state first. -/
def rulesFrom (A : Automaton) (first : Nat) : List (Name × Body) :=
  (first :: A.sourceIds.toList.filter (· ≠ first)).flatMap fun id =>
    (A.bodies id).map (stateName id, ·)

/-- Wherever the rules begin, they are those of all states. -/
theorem mem_rulesFrom {first : Nat} {name : Name} :
    (name, body) ∈ A.rulesFrom first ↔ ∃ id, name = stateName id ∧ body ∈ A.bodies id := by
  simp only [rulesFrom, List.mem_flatMap, List.mem_map, Prod.mk.injEq]
  refine ⟨fun h => ?_, fun h => ?_⟩
  · obtain ⟨id, _, _, mem, rfl, rfl⟩ := h
    exact ⟨id, rfl, mem⟩
  · obtain ⟨id, rfl, mem⟩ := h
    refine ⟨id, ?_, body, mem, rfl, rfl⟩
    by_cases same : id = first
    · exact same ▸ List.mem_cons_self
    · have inSources : id ∈ A.sourceIds.toList := mem_sourceIds_of_mem_bodies mem
      exact List.mem_cons_of_mem _ (List.mem_filter.mpr ⟨inSources, by simpa using same⟩)

theorem named_rulesFrom {first : Nat} : ∀ rule ∈ A.rulesFrom first, rule.1 ≠ [] := by
  intro rule mem
  obtain ⟨id, named, _⟩ := mem_rulesFrom.mp mem
  exact named ▸ stateName_ne_nil id

theorem toGrammar_of_initialState? {s : State} (initial : A.initialState? = some s) :
    A.toGrammar = .ok (.ofRules (stateName s.id) (A.rulesFrom s.id)) := by
  rw [toGrammar, initial]
  rfl

theorem toGrammar_eq_error (none : ∀ s ∈ A.states, s.isInitial = false) :
    A.toGrammar = .error .noInitialState := by
  rw [toGrammar, initialState?_eq_none.mpr none]

theorem exists_ofRules_of_toGrammar {G : Grammar} (h : A.toGrammar = .ok G) :
    ∃ first, A.IsStart first ∧ G = .ofRules (stateName first) (A.rulesFrom first) := by
  cases initial : A.initialState? with
  | none =>
    rw [toGrammar, initial] at h
    cases h
  | some s =>
    rw [toGrammar_of_initialState? initial] at h
    cases h
    exact ⟨s.id, isStart_of_initialState? initial, rfl⟩

theorem exists_toGrammar {s : State} (mem : s ∈ A.states) (initial : s.isInitial) :
    ∃ G, A.toGrammar = .ok G := by
  cases found : A.initialState? with
  | none =>
    rw [initialState?_eq_none.mp found s mem] at initial
    cases initial
  | some s => exact ⟨_, toGrammar_of_initialState? found⟩

theorem mem_bodies_toGrammar {G : Grammar} (h : A.toGrammar = .ok G) :
    body ∈ G.bodies (stateName p) ↔ body ∈ A.bodies p := by
  obtain ⟨first, _, rfl⟩ := exists_ofRules_of_toGrammar h
  rw [Grammar.mem_bodies_ofRules named_rulesFrom, mem_rulesFrom]
  refine ⟨fun h => ?_, fun mem => ⟨p, rfl, mem⟩⟩
  obtain ⟨id, same, mem⟩ := h
  exact stateName_injective same ▸ mem

/-! ## Derivations and paths -/

section

variable {G : Grammar} (h : A.toGrammar = .ok G) (distinct : (A.states.map State.id).Nodup)

include h distinct

/-- A derivation from the name of a state follows a path from that state. -/
theorem exists_path_of_derives {name : Name} {w : Word} (derives : G.Derives name w) :
    ∀ p, name = stateName p → ∃ q, A.Path p w q ∧ A.IsFinal q := by
  induction derives with
  | empty mem =>
    rintro p rfl
    rcases mem_bodies.mp ((mem_bodies_toGrammar h).mp mem) with ⟨_, _, absurd, _⟩ | ⟨_, isFinal⟩
    · cases absurd
    · exact ⟨p, .nil, (isFinal_iff_state? distinct).mp isFinal⟩
  | terminal mem =>
    rintro p rfl
    rcases mem_bodies.mp ((mem_bodies_toGrammar h).mp mem) with ⟨_, _, absurd, _⟩ | ⟨absurd, _⟩
    · cases absurd
    · cases absurd
  | continued mem _ ih =>
    rintro p rfl
    rcases mem_bodies.mp ((mem_bodies_toGrammar h).mp mem) with ⟨c, q, eq, joins⟩ | ⟨absurd, _⟩
    · cases eq
      obtain ⟨r, path, isFinal⟩ := ih q rfl
      exact ⟨r, .cons joins path, isFinal⟩
    · cases absurd

theorem derives_of_path {w : Word} (path : A.Path p w q) (isFinal : A.IsFinal q) :
    G.Derives (stateName p) w := by
  induction path with
  | nil =>
    have mem := mem_bodies.mpr (Or.inr ⟨rfl, (isFinal_iff_state? distinct).mpr isFinal⟩)
    exact .empty ((mem_bodies_toGrammar h).mpr mem)
  | cons joins _ ih =>
    have mem := mem_bodies.mpr (Or.inl ⟨_, _, rfl, joins⟩)
    exact .continued ((mem_bodies_toGrammar h).mpr mem) (ih isFinal)

/-- The nonterminal of a state derives what paths from the state to a final one
read. -/
theorem derives_iff_exists_path {w : Word} :
    G.Derives (stateName p) w ↔ ∃ q, A.Path p w q ∧ A.IsFinal q := by
  refine ⟨fun derives => exists_path_of_derives h distinct derives p rfl, fun found => ?_⟩
  obtain ⟨q, path, isFinal⟩ := found
  exact derives_of_path h distinct path isFinal

theorem derives_start_iff_accepts {w : Word} : G.Derives G.start w ↔ A.accepts w = true := by
  obtain ⟨first, start, rfl⟩ := exists_ofRules_of_toGrammar h
  rw [Grammar.start_ofRules, derives_iff_exists_path h distinct, accepts_iff_exists_path]
  refine ⟨fun found => ?_, fun found => ?_⟩
  · obtain ⟨q, path, isFinal⟩ := found
    exact ⟨first, q, start, path, isFinal⟩
  · obtain ⟨p, q, start', path, isFinal⟩ := found
    obtain rfl := start'.unique start
    exact ⟨q, path, isFinal⟩

theorem accepts_of_toGrammar {w : Word} (lower : w.any Text.isUppercase = false) :
    G.accepts w = A.accepts w := by
  rw [Bool.eq_iff_iff, Grammar.accepts_of_lower lower, derives_start_iff_accepts h distinct]

end

/-- Without an initial state there is no grammar. With one, and with no id given
twice, there is a grammar whose start symbol derives what the automaton accepts,
and the recogniser agrees on all words without an uppercase character. -/
theorem toGrammar_spec (A : Automaton) :
    ((∀ s ∈ A.states, s.isInitial = false) → A.toGrammar = .error .noInitialState) ∧
      ((A.states.map State.id).Nodup → (∃ s ∈ A.states, s.isInitial) →
        ∃ G, A.toGrammar = .ok G ∧ ∀ w,
          (G.Derives G.start w ↔ A.accepts w = true) ∧
            (w.any Text.isUppercase = false → G.accepts w = A.accepts w)) := by
  refine ⟨toGrammar_eq_error, fun distinct initial => ?_⟩
  obtain ⟨s, mem, isInitial⟩ := initial
  obtain ⟨G, converted⟩ := exists_toGrammar mem isInitial
  refine ⟨G, converted, fun w => ⟨derives_start_iff_accepts converted distinct, ?_⟩⟩
  exact fun lower => accepts_of_toGrammar converted distinct lower

/-- Two initial states out of order, a state on the way that is not listed, a
transition that is there twice and one without symbols. -/
theorem toGrammar_spec_of_unlisted :
    let a : OrderedSet Char := .singleton 'a'
    let A : Automaton :=
      ⟨[⟨5, .origin, true, false⟩, ⟨1, .origin, true, true⟩],
        [⟨0, 1, 9, a⟩, ⟨1, 1, 9, a⟩, ⟨2, 9, 5, ∅⟩, ⟨4, 9, 1, .singleton 'b'⟩]⟩
    (A.states.map State.id).Nodup ∧ (∃ s ∈ A.states, s.isInitial) ∧
      (∃ G, A.toGrammar = .ok G ∧ G.Derives G.start ['a', 'b'] ∧
        ['a', 'b'].any Text.isUppercase = false ∧ G.accepts ['a', 'b'] = true) ∧
      (∀ s ∈ (∅ : Automaton).states, s.isInitial = false) ∧
      (∅ : Automaton).toGrammar = .error .noInitialState := by
  intro a A
  have distinct : (A.states.map State.id).Nodup := by decide
  have initial : ∃ s ∈ A.states, s.isInitial := ⟨_, List.mem_cons_self, rfl⟩
  have accepted : A.accepts ['a', 'b'] = true := by decide
  have lower : ['a', 'b'].any Text.isUppercase = false := by decide
  have stateless : ∀ s ∈ (∅ : Automaton).states, s.isInitial = false :=
    fun s mem => absurd mem List.not_mem_nil
  obtain ⟨G, converted, agrees⟩ := (toGrammar_spec A).2 distinct initial
  refine ⟨distinct, initial, ⟨G, converted, (agrees _).1.mpr accepted, lower, ?_⟩, stateless,
    (toGrammar_spec ∅).1 stateless⟩
  exact ((agrees _).2 lower).trans accepted

end Automaton

end RightLinear
