import RightLinear.Automaton.Directive
import RightLinear.Proofs.Automaton.Directive
import RightLinear.Proofs.Automaton.Productions
import RightLinear.Proofs.Grammar.Printer

/-!
# The grammar of an automaton as a file

The nonterminals of states are names that can head a rule, so the grammar of an
automaton over lowercase letters and digits can be written and read again. Since
the start symbol is not written, what is read starts with the first nonterminal
that has an alternative. This is the one of the initial state, unless that state is
neither final nor left by a transition: then the automaton accepts nothing, but the
file may well stand for some words.

* `Automaton.plain_toGrammar`: the grammar can be written.
* `Automaton.exists_reread_toGrammar`: the grammar that is read.
* `Automaton.read_render_toGrammar`: the conversion by way of a file.
-/

namespace RightLinear

theorem isNonterminal_stateName (id : Nat) : isNonterminal (stateName id) := by
  rw [stateName, isNonterminal, Bool.and_eq_true, List.all_eq_true]
  exact ⟨rfl, fun _ => Numeral.isDigit_of_mem_render⟩

namespace Automaton

variable {A : Automaton} {G : Grammar} {p q : Nat} {c : Char}

/-- A state that paths end at or lead on from. -/
def Live (A : Automaton) (p : Nat) : Prop := A.IsFinal p ∨ ∃ c q, A.Joins p c q

theorem accepts_of_not_live (start : A.IsStart p) (stuck : ¬ A.Live p) (w : Word) :
    A.accepts w = false := by
  rw [Bool.eq_false_iff, Ne, accepts_iff_exists_path]
  rintro ⟨p', q, start', path, isFinal⟩
  obtain rfl := start'.unique start
  cases path with
  | nil => exact stuck (Or.inl isFinal)
  | cons joins _ => exact stuck (Or.inr ⟨_, _, joins⟩)

theorem bodies_ne_nil_iff (distinct : (A.states.map State.id).Nodup) :
    A.bodies p ≠ [] ↔ A.Live p := by
  refine ⟨fun some => ?_, fun live => ?_⟩
  · obtain ⟨body, mem⟩ := List.exists_mem_of_ne_nil _ some
    rcases mem_bodies.mp mem with ⟨c, q, _, joins⟩ | ⟨_, isFinal⟩
    · exact Or.inr ⟨c, q, joins⟩
    · exact Or.inl ((isFinal_iff_state? distinct).mp isFinal)
  · rcases live with isFinal | ⟨c, q, joins⟩
    · have mem := mem_bodies.mpr (Or.inr ⟨rfl, (isFinal_iff_state? distinct).mpr isFinal⟩)
      exact List.ne_nil_of_mem mem
    · exact List.ne_nil_of_mem (mem_bodies.mpr (Or.inl ⟨c, q, rfl, joins⟩))

/-! ## What is written -/

theorem mem_alphabet : c ∈ A.alphabet ↔ ∃ p q, A.Joins p c q := by
  simp only [alphabet, OrderedSet.mem_ofList, List.mem_flatMap, OrderedSet.mem_toList]
  refine ⟨fun h => ?_, fun h => ?_⟩
  · obtain ⟨t, mem, symbol⟩ := h
    exact ⟨t.source, t.target, t, mem, rfl, symbol, rfl⟩
  · obtain ⟨_, _, t, mem, _, symbol, _⟩ := h
    exact ⟨t, mem, symbol⟩

theorem plain_of_mem_bodies (letters : ∀ c ∈ A.alphabet, IsLetter c) {body : Body}
    (mem : body ∈ A.bodies p) : body.Plain := by
  rcases mem_bodies.mp mem with ⟨c, q, rfl, joins⟩ | ⟨rfl, _⟩
  · have letter := letters c (mem_alphabet.mpr ⟨p, q, joins⟩)
    have lettered : (Body.continued [c] (stateName q)).Lettered := by
      refine .continued (List.cons_ne_nil c []) (fun d single => ?_) (isNonterminal_stateName q)
      rw [List.mem_singleton.mp single]
      exact letter
    exact lettered.plain
  · exact Body.Lettered.empty.plain

section

variable (h : A.toGrammar = .ok G) (distinct : (A.states.map State.id).Nodup)

include h

/-- A production is made for a state with alternatives. -/
theorem exists_of_mem_productions {p : Production} (mem : p ∈ G.productions) {body : Body}
    (inBodies : body ∈ p.bodies) : ∃ id, p.left = stateName id ∧ body ∈ A.bodies id := by
  have inRules := Grammar.mem_rules_of_mem_productions mem inBodies
  obtain ⟨first, _, rfl⟩ := exists_ofRules_of_toGrammar h
  exact mem_rulesFrom.mp ((Grammar.rules_ofRules_perm named_rulesFrom).mem_iff.mp inRules)

/-- The grammar of an automaton over lowercase letters and digits can be written. -/
theorem plain_toGrammar (letters : ∀ c ∈ A.alphabet, IsLetter c) :
    ∀ p ∈ G.productions, p.Plain := by
  intro p mem
  constructor
  · obtain ⟨body, inBodies⟩ := List.exists_mem_of_ne_nil _ (G.bodies_ne_nil p mem)
    obtain ⟨id, named, _⟩ := exists_of_mem_productions h mem inBodies
    rw [named]
    exact isNonterminal_stateName id
  · intro body inBodies
    obtain ⟨id, _, inBodies⟩ := exists_of_mem_productions h mem inBodies
    exact plain_of_mem_bodies letters inBodies

include distinct

/-! ## What is read -/

/-- If the initial state is live, the grammar begins with its production. -/
theorem head?_nonterminals_toGrammar (start : A.IsStart p) (live : A.Live p) :
    G.nonterminals.head? = some G.start := by
  obtain ⟨first, isFirst, rfl⟩ := exists_ofRules_of_toGrammar h
  obtain rfl := isFirst.unique start
  obtain ⟨body, bodies, found⟩ :=
    List.exists_cons_of_ne_nil ((bodies_ne_nil_iff distinct).mpr live)
  rw [Grammar.head?_nonterminals_ofRules named_rulesFrom, Grammar.start_ofRules, rulesFrom,
    List.flatMap_cons, found]
  rfl

theorem accepts_reread_of_live (start : A.IsStart p) (live : A.Live p) {w : Word}
    (lower : w.any Text.isUppercase = false) : G.reread.accepts w = A.accepts w := by
  rw [Grammar.reread_eq_self (head?_nonterminals_toGrammar h distinct start live)]
  exact accepts_of_toGrammar h distinct lower

/-- The grammar that is read starts at a live state, if there is one. -/
theorem exists_live_reread (live : A.Live p) :
    ∃ q, A.Live q ∧ ∀ w, G.reread.Derives G.reread.start w ↔ ∃ r, A.Path q w r ∧ A.IsFinal r := by
  obtain ⟨body, inBodies⟩ :=
    List.exists_mem_of_ne_nil _ ((bodies_ne_nil_iff distinct).mpr live)
  have some : G.productions ≠ [] := by
    intro none
    have mem := (mem_bodies_toGrammar h).mpr inBodies
    rw [Grammar.bodies, Grammar.production?, none] at mem
    cases mem
  obtain ⟨first, rest, found⟩ := List.exists_cons_of_ne_nil some
  have listed : first ∈ G.productions := found ▸ List.mem_cons_self
  obtain ⟨body, inBodies⟩ := List.exists_mem_of_ne_nil _ (G.bodies_ne_nil first listed)
  obtain ⟨q, named, inBodies⟩ := exists_of_mem_productions h listed inBodies
  refine ⟨q, (bodies_ne_nil_iff distinct).mp (List.ne_nil_of_mem inBodies), fun w => ?_⟩
  rw [Grammar.start_reread found, named, Grammar.derives_reread found,
    derives_iff_exists_path h distinct]

end

/-! ## By way of a file -/

/-- The grammar of an automaton that was read, over lowercase letters and digits, is
written as a file that can be read. If the initial state is final or left by a
transition, what is read agrees with the automaton on all words without an uppercase
character. If not, the automaton accepts nothing, and what is read starts at another
such state if there is one. -/
theorem read_render_toGrammar {text : List Char} (isRead : read text = .ok A)
    (initial : ∃ s ∈ A.states, s.isInitial) (letters : ∀ c ∈ A.alphabet, IsLetter c) :
    ∃ p G G', A.IsStart p ∧ A.toGrammar = .ok G ∧ Grammar.read G.render = .ok G' ∧
      (A.Live p → ∀ w, w.any Text.isUppercase = false → G'.accepts w = A.accepts w) ∧
      (¬ A.Live p → (∀ w, A.accepts w = false) ∧ ((∃ q, A.Live q) →
        ∃ q, A.Live q ∧ ∀ w, G'.Derives G'.start w ↔ ∃ r, A.Path q w r ∧ A.IsFinal r)) := by
  have distinct : (A.states.map State.id).Nodup := (ascending_of_read isRead).nodup
  obtain ⟨s, mem, isInitial⟩ := initial
  obtain ⟨G, converted⟩ := exists_toGrammar mem isInitial
  obtain ⟨p, start, _⟩ := exists_ofRules_of_toGrammar converted
  refine ⟨p, G, G.reread, start, converted,
    Grammar.read_render (plain_toGrammar converted letters), fun live w lower => ?_,
    fun stuck => ⟨accepts_of_not_live start stuck, fun other => ?_⟩⟩
  · exact accepts_reread_of_live converted distinct start live lower
  · obtain ⟨q, live⟩ := other
    exact exists_live_reread converted distinct live

/-- One symbol from the initial state to the final one. -/
theorem read_render_toGrammar_of_letter :
    let A := ofDirectives [.initial 0, .final [1], .transition 0 1 ['a']]
    read "initial 0\nfinal 1\n0 -> 1 : a\n".toList = .ok A ∧ (∃ s ∈ A.states, s.isInitial) ∧
      (∀ c ∈ A.alphabet, IsLetter c) ∧ A.IsStart 0 ∧ A.Live 0 ∧ A.accepts ['a'] = true ∧
      ['a'].any Text.isUppercase = false ∧
      ∃ G G', A.toGrammar = .ok G ∧ Grammar.read G.render = .ok G' ∧ G'.accepts ['a'] = true := by
  intro A
  have isRead : read "initial 0\nfinal 1\n0 -> 1 : a\n".toList = .ok A := rfl
  have start : A.IsStart 0 := isStart_ofDirectives.mpr rfl
  have initial : ∃ s ∈ A.states, s.isInitial := by
    obtain ⟨⟨s, mem, isInitial, _⟩, _⟩ := start
    exact ⟨s, mem, isInitial⟩
  have joins : A.Joins 0 'a' 1 := joins_ofDirectives.mpr
    ⟨.transition 0 1 ['a'], by simp, rfl, List.mem_cons_self, rfl⟩
  have isFinal : A.IsFinal 1 := isFinal_ofDirectives.mpr ⟨.final [1], by simp, List.mem_cons_self⟩
  have letters : ∀ c ∈ A.alphabet, IsLetter c := by
    intro c mem
    obtain ⟨p, q, joins⟩ := mem_alphabet.mp mem
    obtain ⟨d, listed, moves⟩ := joins_ofDirectives.mp joins
    simp only [List.mem_cons, List.not_mem_nil, or_false] at listed
    rcases listed with rfl | rfl | rfl
    · cases moves
    · cases moves
    · rw [List.mem_singleton.mp moves.2.1]
      exact Or.inl rfl
  have live : A.Live 0 := Or.inr ⟨'a', 1, joins⟩
  have accepted : A.accepts ['a'] = true :=
    accepts_iff_exists_path.mpr ⟨0, 1, start, .cons joins .nil, isFinal⟩
  have lower : ['a'].any Text.isUppercase = false := by decide
  obtain ⟨p, G, G', start', converted, reread, agrees, _⟩ :=
    read_render_toGrammar isRead initial letters
  obtain rfl := start'.unique start
  exact ⟨isRead, initial, letters, start, live, accepted, lower, G, G', converted, reread,
    (agrees live _ lower).trans accepted⟩

/-- The initial state has no way on and the final one no way in: nothing is accepted,
but the written grammar begins with the final state. -/
theorem accepts_reread_of_stuck :
    let A := ofDirectives [.initial 0, .final [1]]
    read "initial 0\nfinal 1\n".toList = .ok A ∧ (∃ s ∈ A.states, s.isInitial) ∧
      (∀ c ∈ A.alphabet, IsLetter c) ∧ ([] : Word).any Text.isUppercase = false ∧
      ∃ G G', A.toGrammar = .ok G ∧ Grammar.read G.render = .ok G' ∧
        A.accepts [] = false ∧ G'.accepts [] = true := by
  intro A
  have start : A.IsStart 0 := isStart_ofDirectives.mpr rfl
  have isFinal : A.IsFinal 1 := isFinal_ofDirectives.mpr ⟨.final [1], by simp, List.mem_cons_self⟩
  have still : ∀ {p c q}, ¬ A.Joins p c q := by
    intro p c q joins
    obtain ⟨d, listed, moves⟩ := joins_ofDirectives.mp joins
    simp only [List.mem_cons, List.not_mem_nil, or_false] at listed
    rcases listed with rfl | rfl
    · cases moves
    · cases moves
  have letters : ∀ c ∈ A.alphabet, IsLetter c := by
    intro c mem
    obtain ⟨p, q, joins⟩ := mem_alphabet.mp mem
    exact absurd joins still
  have live : ∀ {q}, A.Live q → q = 1 := by
    intro q live
    rcases live with isFinal | ⟨c, r, joins⟩
    · obtain ⟨d, listed, ends⟩ := isFinal_ofDirectives.mp isFinal
      simp only [List.mem_cons, List.not_mem_nil, or_false] at listed
      rcases listed with rfl | rfl
      · cases ends
      · exact List.mem_singleton.mp ends
    · exact absurd joins still
  have stuck : ¬ A.Live 0 := fun live0 => absurd (live live0) (by decide)
  have distinct : (A.states.map State.id).Nodup := ascending_ofDirectives.nodup
  obtain ⟨⟨s, mem, isInitial, _⟩, _⟩ := start
  obtain ⟨G, converted⟩ := exists_toGrammar mem isInitial
  obtain ⟨q, liveQ, derives⟩ := exists_live_reread converted distinct (Or.inl isFinal)
  obtain rfl := live liveQ
  have lower : ([] : Word).any Text.isUppercase = false := rfl
  refine ⟨rfl, ⟨s, mem, isInitial⟩, letters, lower, G, G.reread, converted,
    Grammar.read_render (plain_toGrammar converted letters),
    accepts_of_not_live (isStart_ofDirectives.mpr rfl) stuck [],
    (Grammar.accepts_of_lower lower).mpr ?_⟩
  exact (derives []).mpr ⟨1, .nil, isFinal⟩

end Automaton

end RightLinear
