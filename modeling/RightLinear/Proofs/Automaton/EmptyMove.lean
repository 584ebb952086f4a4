import Mathlib.Data.List.Basic
import RightLinear.Automaton.EmptyMove
import RightLinear.Proofs.Automaton.Simulation
import RightLinear.Proofs.List.EraseDups

/-!
# Closing moves that read nothing

The states are closed one after another on the same automaton, so a later state
copies transitions that an earlier one was given. It gains nothing by that: what
the earlier state was given belonged to a state that empty moves reach from it,
and so from the later one. After every step a closed state has exactly the
transitions and the finality of all states that empty moves reach from it in the
automaton at the beginning, and the order of the steps does not show.

* `Automaton.joins_link`, `Automaton.joins_absorb`: what one edit adds.
* `mem_emptyClosure`, `nodup_emptyClosure`: the computed closure is the reachable part.
* `Automaton.closeEmptyMoves_induction`: what closing keeps.
* `Automaton.joins_closeEmptyMoves`, `Automaton.isFinal_closeEmptyMoves`: the result
  in terms of the automaton at the beginning.
* `Automaton.exists_path_closeEmptyMoves`, `Automaton.closeEmptyMoves_keeps_words`: words
  read without empty moves and with them.
-/

namespace RightLinear

/-! ## Transitions added one by one -/

namespace Automaton

variable {A : Automaton} {p q : Nat} {c : Char}

/-- A symbol on the first transition between two states adds one move and keeps the others. -/
theorem exists_mem_linkFirst {source target : Nat} {d : Char} :
    ∀ {l linked : List Transition}, linkFirst source target d l = some linked →
      ((∃ t ∈ linked, t.source = p ∧ c ∈ t.symbols ∧ t.target = q) ↔
        (∃ t ∈ l, t.source = p ∧ c ∈ t.symbols ∧ t.target = q) ∨
          p = source ∧ c = d ∧ q = target)
  | [], _, h => by cases h
  | t :: rest, linked, h => by
    unfold linkFirst at h
    split at h
    · next found =>
      obtain ⟨rfl, rfl⟩ := found
      cases h
      simp only [List.exists_mem_cons_iff, OrderedSet.mem_insert]
      refine ⟨fun h => ?_, fun h => ?_⟩
      · rcases h with ⟨rfl, rfl | old, rfl⟩ | later
        · exact Or.inr ⟨rfl, rfl, rfl⟩
        · exact Or.inl (Or.inl ⟨rfl, old, rfl⟩)
        · exact Or.inl (Or.inr later)
      · rcases h with (⟨rfl, old, rfl⟩ | later) | ⟨rfl, rfl, rfl⟩
        · exact Or.inl ⟨rfl, Or.inr old, rfl⟩
        · exact Or.inr later
        · exact Or.inl ⟨rfl, Or.inl rfl, rfl⟩
    · obtain ⟨linkedRest, found, rfl⟩ := Option.map_eq_some_iff.mp h
      rw [List.exists_mem_cons_iff, List.exists_mem_cons_iff, exists_mem_linkFirst found, or_assoc]

/-- What a further symbol does not take from a transition holds of all transitions still. -/
theorem forall_mem_linkFirst {P : Transition → Prop} {source target : Nat}
    (insert : ∀ t, P t → P { t with symbols := t.symbols.insert c }) :
    ∀ {l linked : List Transition}, linkFirst source target c l = some linked →
      (∀ t ∈ l, P t) → ∀ t ∈ linked, P t
  | [], _, found, _ => by cases found
  | first :: rest, linked, found, holds => by
    obtain ⟨holdsFirst, holdsRest⟩ := List.forall_mem_cons.mp holds
    rw [linkFirst] at found
    split at found
    · cases found
      exact List.forall_mem_cons.mpr ⟨insert first holdsFirst, holdsRest⟩
    · obtain ⟨linkedRest, foundLater, rfl⟩ := Option.map_eq_some_iff.mp found
      exact List.forall_mem_cons.mpr
        ⟨holdsFirst, forall_mem_linkFirst insert foundLater holdsRest⟩

theorem joins_addTransition {source target : Nat} {symbols : OrderedSet Char} :
    (A.addTransition source target symbols).2.Joins p c q ↔
      A.Joins p c q ∨ p = source ∧ c ∈ symbols ∧ q = target := by
  simp only [addTransition, Joins, List.mem_append, List.mem_singleton, or_and_right, exists_or]
  refine or_congr Iff.rfl ⟨fun h => ?_, fun h => ?_⟩
  · obtain ⟨t, rfl, rfl, symbol, rfl⟩ := h
    exact ⟨rfl, symbol, rfl⟩
  · obtain ⟨rfl, symbol, rfl⟩ := h
    exact ⟨_, rfl, rfl, symbol, rfl⟩

theorem joins_link {source target : Nat} {d : Char} :
    (A.link source target d).Joins p c q ↔
      A.Joins p c q ∨ p = source ∧ c = d ∧ q = target := by
  rw [link]
  split
  · next found => exact exists_mem_linkFirst found
  · rw [joins_addTransition, OrderedSet.mem_singleton]

theorem states_link {source target : Nat} {d : Char} :
    (A.link source target d).states = A.states := by
  rw [link]
  split <;> rfl

section

variable {β : Type} {source target : β → Nat} {symbol : β → Char} {l : List β}

theorem joins_foldl_link :
    (l.foldl (fun A b => A.link (source b) (target b) (symbol b)) A).Joins p c q ↔
      A.Joins p c q ∨ ∃ b ∈ l, p = source b ∧ c = symbol b ∧ q = target b := by
  induction l generalizing A with
  | nil => simp
  | cons b l ih => rw [List.foldl_cons, ih, joins_link, List.exists_mem_cons_iff, or_assoc]

theorem states_foldl_link :
    (l.foldl (fun A b => A.link (source b) (target b) (symbol b)) A).states = A.states := by
  induction l generalizing A with
  | nil => rfl
  | cons b l ih => rw [List.foldl_cons, ih, states_link]

end

/-! ## Final states -/

/-- Some state has this id. -/
def Declares (A : Automaton) (id : Nat) : Prop := ∃ s ∈ A.states, s.id = id

/-- The ids of all states, each with whether the state is initial. -/
def initialFlags (A : Automaton) : List (Nat × Bool) := A.states.map fun s => (s.id, s.isInitial)

theorem declares_iff_mem_initialFlags {id : Nat} :
    A.Declares id ↔ ∃ flag, (id, flag) ∈ A.initialFlags := by
  simp only [Declares, initialFlags, List.mem_map, Prod.mk.injEq]
  refine ⟨fun h => ?_, fun h => ?_⟩
  · obtain ⟨s, mem, rfl⟩ := h
    exact ⟨s.isInitial, s, mem, rfl, rfl⟩
  · obtain ⟨_, s, mem, eq, _⟩ := h
    exact ⟨s, mem, eq⟩

theorem isFinal_iff_mem_map :
    A.IsFinal q ↔ (q, true) ∈ A.states.map fun s => (s.id, s.isFinal) := by
  simp [IsFinal]

/-- Which state is the first can be told from the flags. -/
theorem isStart_iff_mem_initialFlags {id : Nat} :
    A.IsStart id ↔
      (id, true) ∈ A.initialFlags ∧ ∀ other, (other, true) ∈ A.initialFlags → id ≤ other := by
  simp only [IsStart, initialFlags, List.mem_map, Prod.mk.injEq]
  refine and_congr ⟨?_, ?_⟩ ⟨?_, ?_⟩
  · intro h
    obtain ⟨s, mem, initial, rfl⟩ := h
    exact ⟨s, mem, rfl, initial⟩
  · intro h
    obtain ⟨s, mem, rfl, initial⟩ := h
    exact ⟨s, mem, initial, rfl⟩
  · intro least _ h
    obtain ⟨s, mem, rfl, initial⟩ := h
    exact least s mem initial
  · exact fun least s mem initial => least s.id ⟨s, mem, rfl, initial⟩

/-- When the first state of an id is made final, that id is final and no other changes. -/
theorem exists_mem_modifyFirst {id : Nat} :
    ∀ {l : List State},
      (∃ s ∈ modifyFirst id ({ · with isFinal := true }) l, s.id = q ∧ s.isFinal) ↔
        (∃ s ∈ l, s.id = q ∧ s.isFinal) ∨ q = id ∧ ∃ s ∈ l, s.id = id
  | [] => by simp [modifyFirst]
  | s :: rest => by
    unfold modifyFirst
    split
    · next found =>
      subst found
      simp only [List.exists_mem_cons_iff, true_or, and_true]
      refine ⟨fun h => ?_, fun h => ?_⟩
      · rcases h with ⟨rfl, _⟩ | later
        · exact Or.inr rfl
        · exact Or.inl (Or.inr later)
      · rcases h with (⟨rfl, _⟩ | later) | rfl
        · exact Or.inl rfl
        · exact Or.inr later
        · exact Or.inl rfl
    · next other =>
      rw [List.exists_mem_cons_iff, List.exists_mem_cons_iff, List.exists_mem_cons_iff,
        exists_mem_modifyFirst, or_assoc]
      simp only [other, false_or]

theorem isFinal_setFinal {id : Nat} :
    (A.setFinal id true).IsFinal q ↔ A.IsFinal q ∨ q = id ∧ A.Declares id :=
  exists_mem_modifyFirst

theorem initialFlags_setFinal {id : Nat} {isFinal : Bool} :
    (A.setFinal id isFinal).initialFlags = A.initialFlags := by
  rw [initialFlags, initialFlags, setFinal]
  generalize A.states = l
  induction l with
  | nil => rfl
  | cons s l ih =>
    rw [modifyFirst]
    split
    · rfl
    · rw [List.map_cons, ih, List.map_cons]

/-! ## One closed state -/

section

variable {source : Nat} {reached : List Nat}

/-- A state that absorbs others takes over their moves. -/
theorem joins_absorb :
    (A.absorb source reached).Joins p c q ↔
      A.Joins p c q ∨ p = source ∧ ∃ r ∈ reached, r ≠ source ∧ A.Joins r c q := by
  have unflagged : (A.absorb source reached).Joins p c q ↔
      ((((A.transitions.filter fun t =>
        t.source ≠ source && reached.contains t.source).flatMap fun t =>
          t.symbols.toList.map (t.target, ·))).foldl
            (fun A move => A.link source move.1 move.2) A).Joins p c q := by
    rw [absorb]
    split
    · exact Iff.rfl
    · exact Iff.rfl
  rw [unflagged, joins_foldl_link]
  refine or_congr Iff.rfl ⟨?_, ?_⟩
  · intro h
    obtain ⟨move, mem, rfl, rfl, rfl⟩ := h
    obtain ⟨t, copied, ofSymbol⟩ := List.mem_flatMap.mp mem
    obtain ⟨d, memSymbols, rfl⟩ := List.mem_map.mp ofSymbol
    obtain ⟨memTransitions, kept⟩ := List.mem_filter.mp copied
    simp only [Bool.and_eq_true, decide_eq_true_eq, List.contains_iff_mem] at kept
    exact ⟨rfl, t.source, kept.2, kept.1, t, memTransitions, rfl, memSymbols, rfl⟩
  · intro h
    obtain ⟨rfl, r, memReached, other, t, mem, rfl, symbol, rfl⟩ := h
    refine ⟨(t.target, c), List.mem_flatMap.mpr ⟨t, ?_, ?_⟩, rfl, rfl, rfl⟩
    · refine List.mem_filter.mpr ⟨mem, ?_⟩
      simp only [Bool.and_eq_true, decide_eq_true_eq, List.contains_iff_mem]
      exact ⟨other, memReached⟩
    · exact List.mem_map.mpr ⟨c, symbol, rfl⟩

theorem initialFlags_absorb : (A.absorb source reached).initialFlags = A.initialFlags := by
  rw [absorb]
  split
  · rw [initialFlags_setFinal, initialFlags, states_foldl_link, initialFlags]
  · rw [initialFlags, states_foldl_link, initialFlags]

/-- A state that absorbs others is final if one of them is. -/
theorem isFinal_absorb (declared : A.Declares source) :
    (A.absorb source reached).IsFinal q ↔
      A.IsFinal q ∨ q = source ∧ ∃ r ∈ reached, A.IsFinal r := by
  have reachesFinal : A.finalStates.any (fun s => reached.contains s.id) = true ↔
      ∃ r ∈ reached, A.IsFinal r := by
    simp only [finalStates, List.any_eq_true, List.mem_filter, List.contains_iff_mem, IsFinal]
    refine ⟨fun h => ?_, fun h => ?_⟩
    · obtain ⟨s, ⟨mem, isFinal⟩, isReached⟩ := h
      exact ⟨s.id, isReached, s, mem, rfl, isFinal⟩
    · obtain ⟨_, isReached, s, mem, rfl, isFinal⟩ := h
      exact ⟨s, ⟨mem, isFinal⟩, isReached⟩
  rw [absorb]
  split
  · next some =>
    rw [isFinal_setFinal, IsFinal, Declares, states_foldl_link]
    exact or_congr Iff.rfl ⟨fun h => ⟨h.1, reachesFinal.mp some⟩, fun h => ⟨h.1, declared⟩⟩
  · next none =>
    rw [IsFinal, states_foldl_link]
    exact ⟨Or.inl, fun h => h.resolve_right fun h => none (reachesFinal.mpr h.2)⟩

end

end Automaton

/-! ## Paths along empty moves -/

section

variable {moves : List (Nat × Nat)} {p q r : Nat}

theorem EmptyPath.trans (left : EmptyPath moves p q) (right : EmptyPath moves q r) :
    EmptyPath moves p r := by
  induction left with
  | nil => exact right
  | cons move _ ih => exact .cons move (ih right)

/-- The closure of a state are the states that empty moves lead to. It is searched for in as many
rounds as there are sources, and a path that is longer passes some source twice. -/
theorem mem_emptyClosure : q ∈ emptyClosure moves p ↔ EmptyPath moves p q := by
  have image : ∀ {front : List Nat} {b : Nat},
      b ∈ (moves.filter fun move => front.contains move.1).map Prod.snd ↔
        ∃ a ∈ front, (a, b) ∈ moves := by
    intro front b
    simp only [List.mem_map, List.mem_filter, List.contains_iff_mem]
    refine ⟨fun h => ?_, fun h => ?_⟩
    · obtain ⟨⟨a, b⟩, ⟨mem, inFront⟩, rfl⟩ := h
      exact ⟨a, inFront, mem⟩
    · obtain ⟨a, inFront, mem⟩ := h
      exact ⟨(a, b), ⟨mem, inFront⟩, rfl⟩
  constructor
  · refine reach_induction (P := EmptyPath moves p) ?_ ?_ q
    · intro a mem
      rw [List.mem_singleton.mp mem]
      exact .nil
    · intro front reached b _ found
      obtain ⟨a, inFront, move⟩ := image.mp (List.contains_iff_mem.mp found)
      exact (reached a inFront).trans (.cons move .nil)
  · intro path
    have begins : p ∈ emptyClosure moves p := subset_reach List.mem_cons_self
    have onward : ∀ {a b}, EmptyPath moves a b →
        a ∈ emptyClosure moves p → b ∈ emptyClosure moves p := by
      intro a b path
      induction path with
      | nil => exact id
      | @cons a b _ move _ ih =>
        intro reached
        apply ih
        by_cases back : b = p
        · exact back ▸ begins
        · refine reach_closed (fun mem leads => ?_) reached
            (image.mpr ⟨a, List.mem_singleton.mpr rfl, move⟩) ?_
          · obtain ⟨a, single, move⟩ := image.mp leads
            exact image.mpr ⟨a, List.mem_singleton.mp single ▸ mem, move⟩
          · refine List.mem_filter.mpr ⟨?_, by simpa using back⟩
            exact List.mem_eraseDups.mpr (List.mem_map.mpr ⟨(a, b), move, rfl⟩)
    exact onward path begins

theorem nodup_emptyClosure : (emptyClosure moves p).Nodup := by
  refine nodup_reach (List.pairwise_singleton _ _) ((nodup_eraseDups _).sublist List.filter_sublist)
    fun a single candidate => ?_
  obtain rfl := List.mem_singleton.mp single
  simp at candidate

theorem EmptyPath.mem_sources_of_ne (path : EmptyPath moves p q) (ne : p ≠ q) :
    p ∈ (moves.map Prod.fst).eraseDups := by
  cases path with
  | nil => exact absurd rfl ne
  | cons move _ => exact List.mem_eraseDups.mpr (List.mem_map.mpr ⟨_, move, rfl⟩)

end

/-! ## All states closed -/

namespace Automaton

variable {A : Automaton} {moves : List (Nat × Nat)} {p q : Nat}

section

variable {P : Automaton → Nat → Prop} {flags : List (Nat × Bool)}
  (absorb : ∀ {A source p}, A.initialFlags = flags → source ∈ (moves.map Prod.fst).eraseDups →
    (P (A.absorb source (emptyClosure moves source)) p ↔
      P A p ∨ p = source ∧ ∃ r, EmptyPath moves p r ∧ P A r))

include absorb

/-- If a state gets by absorbing what the states have that empty moves reach, then
absorbing one state after another gives each of them just that: what a state
reaches, it reaches at once. -/
theorem holds_foldl_absorb {sources : List Nat}
    (subset : ∀ s ∈ sources, s ∈ (moves.map Prod.fst).eraseDups)
    (same : A.initialFlags = flags) :
    P (sources.foldl (fun A s => A.absorb s (emptyClosure moves s)) A) p ↔
      P A p ∨ p ∈ sources ∧ ∃ r, EmptyPath moves p r ∧ P A r := by
  induction sources generalizing A with
  | nil => simp
  | cons s sources ih =>
    have first := fun {p} => @absorb A s p same (subset s List.mem_cons_self)
    rw [List.foldl_cons, ih (fun t mem => subset t (List.mem_cons_of_mem s mem))
      (initialFlags_absorb.trans same)]
    refine ⟨fun h => ?_, fun h => ?_⟩
    · rcases h with holds | ⟨mem, r, path, holds⟩
      · rcases first.mp holds with old | ⟨rfl, reached⟩
        · exact Or.inl old
        · exact Or.inr ⟨List.mem_cons_self, reached⟩
      · refine Or.inr ⟨List.mem_cons_of_mem s mem, ?_⟩
        rcases first.mp holds with old | ⟨rfl, t, onward, old⟩
        · exact ⟨r, path, old⟩
        · exact ⟨t, path.trans onward, old⟩
    · rcases h with old | ⟨mem, r, path, old⟩
      · exact Or.inl (first.mpr (Or.inl old))
      · rcases List.mem_cons.mp mem with rfl | later
        · exact Or.inl (first.mpr (Or.inr ⟨rfl, r, path, old⟩))
        · exact Or.inr ⟨later, r, path, first.mpr (Or.inl old)⟩

theorem holds_closeEmptyMoves (same : A.initialFlags = flags) :
    P (A.closeEmptyMoves moves) p ↔ ∃ r, EmptyPath moves p r ∧ P A r := by
  rw [closeEmptyMoves, holds_foldl_absorb absorb (fun _ => id) same]
  refine ⟨fun h => ?_, fun h => ?_⟩
  · rcases h with holds | ⟨_, reached⟩
    · exact ⟨p, .nil, holds⟩
    · exact reached
  · obtain ⟨r, path, holds⟩ := h
    by_cases same : p = r
    · exact Or.inl (same ▸ holds)
    · exact Or.inr ⟨path.mem_sources_of_ne same, r, path, holds⟩

end

/-- After the closure a state has the moves of all states that empty moves lead to. -/
theorem joins_closeEmptyMoves {c : Char} :
    (A.closeEmptyMoves moves).Joins p c q ↔ ∃ r, EmptyPath moves p r ∧ A.Joins r c q := by
  refine holds_closeEmptyMoves (P := fun A p => A.Joins p c q) (fun {A source p} _ _ => ?_) rfl
  rw [joins_absorb]
  refine ⟨fun h => ?_, fun h => ?_⟩
  · rcases h with old | ⟨rfl, r, reached, _, joins⟩
    · exact Or.inl old
    · exact Or.inr ⟨rfl, r, mem_emptyClosure.mp reached, joins⟩
  · rcases h with old | ⟨rfl, r, path, joins⟩
    · exact Or.inl old
    · by_cases same : r = p
      · exact Or.inl (same ▸ joins)
      · exact Or.inr ⟨rfl, r, mem_emptyClosure.mpr path, same, joins⟩

theorem isFinal_closeEmptyMoves (declared : ∀ move ∈ moves, A.Declares move.1) :
    (A.closeEmptyMoves moves).IsFinal p ↔ ∃ r, EmptyPath moves p r ∧ A.IsFinal r := by
  refine holds_closeEmptyMoves (P := fun A p => A.IsFinal p) (fun {B source p} same mem => ?_) rfl
  have sourceDeclared : B.Declares source := by
    obtain ⟨move, memMoves, rfl⟩ := List.mem_map.mp (List.mem_eraseDups.mp mem)
    rw [declares_iff_mem_initialFlags, same, ← declares_iff_mem_initialFlags]
    exact declared move memMoves
  rw [isFinal_absorb sourceDeclared]
  refine or_congr Iff.rfl (and_congr_right fun eq => ?_)
  simp only [eq, mem_emptyClosure]

/-- What linking and setting states final keep is kept when empty moves are closed. -/
theorem closeEmptyMoves_induction {P : Automaton → Prop}
    (link : ∀ {A source target c}, P A → P (A.link source target c))
    (setFinal : ∀ {A id}, P A → P (A.setFinal id true)) (holds : P A) :
    P (A.closeEmptyMoves moves) := by
  refine List.foldlRecOn _ _ holds fun B holds source _ => ?_
  have linked := fun copied : List (Nat × Char) => List.foldlRecOn copied
    (fun (A : Automaton) move => A.link source move.1 move.2) (motive := P) holds
    fun _ holds _ _ => link holds
  rw [absorb]
  split
  · exact setFinal (linked _)
  · exact linked _

theorem initialFlags_closeEmptyMoves :
    (A.closeEmptyMoves moves).initialFlags = A.initialFlags := by
  refine closeEmptyMoves_induction (P := fun B => B.initialFlags = A.initialFlags) ?_ ?_ rfl
  · intro B source target c same
    rw [initialFlags, states_link, ← initialFlags, same]
  · intro B id same
    rw [initialFlags_setFinal, same]

/-! ## Words -/

theorem MixedPath.of_emptyPath {w : Word} {r : Nat} (before : EmptyPath moves p q)
    (path : A.MixedPath moves q w r) : A.MixedPath moves p w r := by
  induction before with
  | nil => exact path
  | cons move _ ih => exact .move move (ih path)

/-- Without its empty moves the closed automaton reads from every state what the
automaton reads along transitions and empty moves. -/
theorem exists_path_closeEmptyMoves (declared : ∀ move ∈ moves, A.Declares move.1) {w : Word} :
    (∃ q, (A.closeEmptyMoves moves).Path p w q ∧ (A.closeEmptyMoves moves).IsFinal q) ↔
      ∃ q, A.MixedPath moves p w q ∧ A.IsFinal q := by
  refine ⟨fun h => ?_, fun h => ?_⟩
  · obtain ⟨q, path, isFinal⟩ := h
    induction path with
    | nil =>
      obtain ⟨r, before, isFinal⟩ := (isFinal_closeEmptyMoves declared).mp isFinal
      exact ⟨r, .of_emptyPath before .nil, isFinal⟩
    | cons joins _ ih =>
      obtain ⟨r, path, isFinal⟩ := ih isFinal
      obtain ⟨s, before, joins⟩ := joins_closeEmptyMoves.mp joins
      exact ⟨r, .of_emptyPath before (.read joins path), isFinal⟩
  · obtain ⟨q, path, isFinal⟩ := h
    induction path with
    | nil => exact ⟨_, .nil, (isFinal_closeEmptyMoves declared).mpr ⟨_, .nil, isFinal⟩⟩
    | read joins _ ih =>
      obtain ⟨r, path, isFinal⟩ := ih isFinal
      exact ⟨r, .cons (joins_closeEmptyMoves.mpr ⟨_, .nil, joins⟩) path, isFinal⟩
    | move move _ ih =>
      -- the first edge of the path, or its finality, moves back along the empty move
      obtain ⟨r, path, isFinal⟩ := ih isFinal
      cases path with
      | nil =>
        obtain ⟨s, onward, isFinal⟩ := (isFinal_closeEmptyMoves declared).mp isFinal
        exact ⟨_, .nil, (isFinal_closeEmptyMoves declared).mpr ⟨s, .cons move onward, isFinal⟩⟩
      | cons joins path =>
        obtain ⟨s, onward, joins⟩ := joins_closeEmptyMoves.mp joins
        exact ⟨r, .cons (joins_closeEmptyMoves.mpr ⟨s, .cons move onward, joins⟩) path, isFinal⟩

/-- Whatever empty moves there are between its states, from every state the closed automaton
reads to a final state, along transitions alone, what the automaton reads along transitions
and empty moves. What is closed for a state is each state that empty moves reach from it, once,
and nothing else. -/
theorem closeEmptyMoves_keeps_words (A : Automaton) (moves : List (Nat × Nat))
    (declared : ∀ move ∈ moves, A.Declares move.1) :
    (∀ p w,
      (∃ q, (A.closeEmptyMoves moves).Path p w q ∧ (A.closeEmptyMoves moves).IsFinal q) ↔
        ∃ q, A.MixedPath moves p w q ∧ A.IsFinal q) ∧
    ∀ source, (emptyClosure moves source).Nodup ∧
      ∀ q, q ∈ emptyClosure moves source ↔ EmptyPath moves source q :=
  ⟨fun _ _ => exists_path_closeEmptyMoves declared,
    fun _ => ⟨nodup_emptyClosure, fun _ => mem_emptyClosure⟩⟩

/-- A cycle of empty moves, one of them given twice, leads back to where a word begins. -/
theorem closeEmptyMoves_keeps_words_of_cycle :
    let A : Automaton :=
      ⟨[⟨0, .origin, true, false⟩, ⟨1, .origin, false, false⟩, ⟨2, .origin, false, true⟩],
        [⟨0, 1, 2, .singleton 'a'⟩]⟩
    let moves := [(0, 1), (1, 0), (0, 1), (2, 0)]
    (∀ move ∈ moves, A.Declares move.1) ∧
    (∃ q, (A.closeEmptyMoves moves).Path 0 ['a', 'a'] q ∧ (A.closeEmptyMoves moves).IsFinal q) ∧
    1 ∈ emptyClosure moves 2 ∧ 2 ∉ emptyClosure moves 0 := by
  intro A moves
  have declared : ∀ move ∈ moves, A.Declares move.1 := by
    simp [moves, A, Declares]
  have joins : A.Joins 1 'a' 2 := ⟨⟨0, 1, 2, .singleton 'a'⟩, by simp [A], rfl, by simp, rfl⟩
  have final : A.IsFinal 2 := ⟨⟨2, .origin, false, true⟩, by simp [A], rfl, rfl⟩
  obtain ⟨words, closure⟩ := closeEmptyMoves_keeps_words A moves declared
  have mixed : A.MixedPath moves 0 ['a', 'a'] 2 :=
    .move (q := 1) (by decide) (.read joins (.move (q := 0) (by decide)
      (.move (q := 1) (by decide) (.read joins .nil))))
  refine ⟨declared, (words 0 _).mpr ⟨2, mixed, final⟩, ?_, fun reached => ?_⟩
  · exact ((closure 2).2 1).mpr (.cons (q := 0) (by decide) (.cons (q := 1) (by decide) .nil))
  · have below : ∀ {p q}, EmptyPath moves p q → p < 2 → q < 2 := by
      intro p q path
      induction path with
      | nil => exact id
      | cons move _ ih =>
        intro low
        simp only [moves, List.mem_cons, List.not_mem_nil, Prod.mk.injEq, or_false] at move
        exact ih (by omega)
    exact absurd (below (((closure 0).2 2).mp reached) (by decide)) (by decide)

end Automaton

end RightLinear
