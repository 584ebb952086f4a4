import RightLinear.Automaton.Simulation

/-!
# Runs and paths

The simulation follows all transitions at once; a path follows one after another.
The states a run ends in are the states paths lead to, so a word is accepted
exactly if a path reads it from the initial state to a final one.

* `Automaton.mem_run`: the states of a run.
* `Automaton.map_id_initialState?`: the initial state, by its id alone.
* `Automaton.accepts_iff_exists_path`, `Automaton.accepts_iff_exists_sequence`: the verdict
  of the simulation, by a path and by the states it visits.
* `Automaton.Agrees`: what the verdict depends on.
-/

namespace RightLinear

namespace Automaton

variable {A B : Automaton}

/-! ## Runs -/

theorem mem_targets {p q : Nat} {c : Char} : q ∈ A.targets p c ↔ A.Joins p c q := by
  simp only [targets, Joins, List.mem_map, List.mem_filter, Bool.and_eq_true, decide_eq_true_eq,
    List.contains_iff_mem, OrderedSet.mem_toList, and_assoc]

theorem mem_step {current : OrderedSet Nat} {q : Nat} {c : Char} :
    q ∈ A.step current c ↔ ∃ p ∈ current, A.Joins p c q := by
  simp only [step, OrderedSet.mem_ofList, List.mem_flatMap, OrderedSet.mem_toList, mem_targets]

/-- A run reaches the states that some path leads to. -/
theorem mem_run {current : OrderedSet Nat} {w : Word} {q : Nat} :
    q ∈ A.run current w ↔ ∃ p ∈ current, A.Path p w q := by
  induction w generalizing current with
  | nil =>
    refine ⟨fun mem => ?_, fun h => ?_⟩
    · exact ⟨q, mem, .nil⟩
    · obtain ⟨p, mem, path⟩ := h
      cases path
      exact mem
  | cons c w ih =>
    rw [run, List.foldl_cons, ← run, ih]
    refine ⟨fun h => ?_, fun h => ?_⟩
    · obtain ⟨r, mem, path⟩ := h
      obtain ⟨p, inCurrent, joins⟩ := mem_step.mp mem
      exact ⟨p, inCurrent, .cons joins path⟩
    · obtain ⟨p, inCurrent, path⟩ := h
      cases path with
      | cons joins path => exact ⟨_, mem_step.mpr ⟨p, inCurrent, joins⟩, path⟩

theorem Path.mono (sub : ∀ {p c q}, A.Joins p c q → B.Joins p c q) {p q : Nat}
    {w : Word} (path : A.Path p w q) : B.Path p w q := by
  induction path with
  | nil => exact .nil
  | cons joins _ ih => exact .cons (sub joins) ih

/-! ## The initial state -/

/-- The lowest id of an initial state. -/
def IsStart (A : Automaton) (id : Nat) : Prop :=
  (∃ s ∈ A.states, s.isInitial ∧ s.id = id) ∧ ∀ s ∈ A.states, s.isInitial → id ≤ s.id

/-- The fold ends at a state of the list with the lowest id. -/
theorem foldl_lower (s : State) (l : List State) :
    l.foldl State.lower s ∈ s :: l ∧ ∀ t ∈ s :: l, (l.foldl State.lower s).id ≤ t.id := by
  induction l generalizing s with
  | nil =>
    refine ⟨List.mem_cons_self, fun t mem => ?_⟩
    obtain rfl := List.mem_singleton.mp mem
    exact Nat.le_refl _
  | cons t l ih =>
    obtain ⟨mem, least⟩ := ih (s.lower t)
    rw [List.foldl_cons]
    have low : s.lower t ∈ [s, t] ∧ (s.lower t).id ≤ s.id ∧ (s.lower t).id ≤ t.id := by
      unfold State.lower
      split
      · exact ⟨by simp, by omega, by omega⟩
      · exact ⟨by simp, by omega, by omega⟩
    constructor
    · rcases List.mem_cons.mp mem with eq | later
      · rw [eq]
        exact List.mem_append_left l low.1
      · exact List.mem_cons_of_mem _ (List.mem_cons_of_mem _ later)
    · have below := least _ List.mem_cons_self
      intro u memU
      rcases List.mem_cons.mp memU with rfl | memU
      · exact Nat.le_trans below low.2.1
      · rcases List.mem_cons.mp memU with rfl | later
        · exact Nat.le_trans below low.2.2
        · exact least u (List.mem_cons_of_mem _ later)

theorem initialState?_eq_none : A.initialState? = none ↔ ∀ s ∈ A.states, s.isInitial = false := by
  rw [initialState?]
  split
  · next none =>
    simpa [List.filter_eq_nil_iff] using none
  · next s l some =>
    have mem : s ∈ A.states.filter State.isInitial := some ▸ List.mem_cons_self
    obtain ⟨inStates, initial⟩ := List.mem_filter.mp mem
    refine ⟨fun h => ?_, fun h => ?_⟩
    · cases h
    · rw [h s inStates] at initial
      cases initial

theorem isStart_of_initialState? {s : State} (h : A.initialState? = some s) : A.IsStart s.id := by
  rw [initialState?] at h
  split at h
  · cases h
  · next t l eq =>
    cases h
    obtain ⟨mem, least⟩ := foldl_lower t l
    rw [← eq] at mem least
    obtain ⟨inStates, initial⟩ := List.mem_filter.mp mem
    exact ⟨⟨_, inStates, initial, rfl⟩,
      fun u memU initialU => least u (List.mem_filter.mpr ⟨memU, initialU⟩)⟩

theorem IsStart.unique {p q : Nat} (left : A.IsStart p) (right : A.IsStart q) : p = q := by
  obtain ⟨⟨s, memS, initialS, rfl⟩, leastS⟩ := left
  obtain ⟨⟨t, memT, initialT, rfl⟩, leastT⟩ := right
  exact Nat.le_antisymm (leastS t memT initialT) (leastT s memS initialS)

/-- The initial state is known by its id. -/
theorem map_id_initialState? {id : Nat} :
    A.initialState?.map State.id = some id ↔ A.IsStart id := by
  refine ⟨fun h => ?_, fun start => ?_⟩
  · obtain ⟨s, found, rfl⟩ := Option.map_eq_some_iff.mp h
    exact isStart_of_initialState? found
  · cases found : A.initialState? with
    | none =>
      obtain ⟨⟨s, mem, initial, _⟩, _⟩ := start
      rw [initialState?_eq_none.mp found s mem] at initial
      cases initial
    | some s =>
      rw [Option.map_some, (isStart_of_initialState? found).unique start]

/-! ## The verdict -/

/-- The simulation accepts the words that some path reads from the initial state to a final
state. -/
theorem accepts_iff_exists_path {w : Word} :
    A.accepts w = true ↔ ∃ p q, A.IsStart p ∧ A.Path p w q ∧ A.IsFinal q := by
  have final : ∀ {S : OrderedSet Nat},
      A.finalStates.any (fun s => S.toList.contains s.id) = true ↔ ∃ q ∈ S, A.IsFinal q := by
    intro S
    simp only [finalStates, List.any_eq_true, List.mem_filter, List.contains_iff_mem,
      OrderedSet.mem_toList, IsFinal]
    refine ⟨fun h => ?_, fun h => ?_⟩
    · obtain ⟨s, ⟨mem, isFinal⟩, inS⟩ := h
      exact ⟨s.id, inS, s, mem, rfl, isFinal⟩
    · obtain ⟨q, inS, s, mem, rfl, isFinal⟩ := h
      exact ⟨s, ⟨mem, isFinal⟩, inS⟩
  rw [accepts]
  split
  · next none =>
    refine ⟨fun h => ?_, fun h => ?_⟩
    · cases h
    · obtain ⟨p, q, start, _⟩ := h
      rw [← map_id_initialState?, none] at start
      cases start
  · next initial some =>
    have start := isStart_of_initialState? some
    rw [final]
    refine ⟨fun h => ?_, fun h => ?_⟩
    · obtain ⟨q, mem, isFinal⟩ := h
      obtain ⟨p, isInitial, path⟩ := mem_run.mp mem
      obtain rfl := OrderedSet.mem_singleton.mp isInitial
      exact ⟨_, q, start, path, isFinal⟩
    · obtain ⟨p, q, start', path, isFinal⟩ := h
      obtain rfl := start'.unique start
      exact ⟨q, mem_run.mpr ⟨_, OrderedSet.mem_singleton.mpr rfl, path⟩, isFinal⟩

/-! ## What the verdict depends on -/

/-- Two automata with the same initial state, moves and final states. -/
structure Agrees (A B : Automaton) : Prop where
  isStart : ∀ q, A.IsStart q ↔ B.IsStart q
  joins : ∀ p c q, A.Joins p c q ↔ B.Joins p c q
  isFinal : ∀ q, A.IsFinal q ↔ B.IsFinal q

theorem Agrees.accepts (agrees : A.Agrees B) (w : Word) : A.accepts w = B.accepts w := by
  have path : ∀ p q, A.Path p w q ↔ B.Path p w q := fun p q =>
    ⟨.mono (agrees.joins _ _ _).mp, .mono (agrees.joins _ _ _).mpr⟩
  rw [Bool.eq_iff_iff, accepts_iff_exists_path, accepts_iff_exists_path]
  simp only [agrees.isStart, path, agrees.isFinal]

/-! ## Sequences of states

A path visits one state more than it reads characters, so it can also be given by the
states alone. -/

/-- A path visits one state more than it reads characters. -/
theorem exists_sequence_of_path {p q : Nat} {w : Word} (path : A.Path p w q) :
    ∃ visited : Fin (w.length + 1) → Nat, visited 0 = p ∧
      (∀ i : Fin w.length, A.Joins (visited i.castSucc) w[i] (visited i.succ)) ∧
      visited (Fin.last w.length) = q := by
  induction path with
  | @nil q => exact ⟨fun _ => q, rfl, fun i => i.elim0, rfl⟩
  | @cons p r q c w joins _ ih =>
    obtain ⟨visited, first, moves, last⟩ := ih
    refine ⟨Fin.cases (motive := fun _ => Nat) p visited, rfl, fun i => ?_, last⟩
    cases i using Fin.cases with
    | zero =>
      subst first
      exact joins
    | succ i => exact moves i

theorem path_of_sequence {w : Word} (visited : Fin (w.length + 1) → Nat)
    (moves : ∀ i : Fin w.length, A.Joins (visited i.castSucc) w[i] (visited i.succ)) :
    A.Path (visited 0) w (visited (Fin.last w.length)) := by
  induction w with
  | nil => exact .nil
  | cons c w ih =>
    exact .cons (moves 0) (ih (fun i => visited i.succ) fun i => moves i.succ)

/-- A word is accepted exactly if some sequence of states reads it: from the initial
state with the lowest id, by a transition for each character, to a final state. -/
theorem accepts_iff_exists_sequence (A : Automaton) (w : Word) :
    A.accepts w = true ↔
      ∃ visited : Fin (w.length + 1) → Nat,
        A.IsStart (visited 0) ∧
        (∀ i : Fin w.length, A.Joins (visited i.castSucc) w[i] (visited i.succ)) ∧
        A.IsFinal (visited (Fin.last w.length)) := by
  rw [accepts_iff_exists_path]
  refine ⟨fun h => ?_, fun h => ?_⟩
  · obtain ⟨p, q, start, path, isFinal⟩ := h
    obtain ⟨visited, rfl, moves, rfl⟩ := exists_sequence_of_path path
    exact ⟨visited, start, moves, isFinal⟩
  · obtain ⟨visited, start, moves, isFinal⟩ := h
    exact ⟨_, _, start, path_of_sequence visited moves, isFinal⟩

end Automaton

end RightLinear
