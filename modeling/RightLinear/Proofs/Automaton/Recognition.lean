import RightLinear.Proofs.Automaton.Edit

/-!
# Edits and the words that are accepted

The verdict of an automaton depends on three things: which symbols join which states,
where words begin and where they end. An edit is described by what it does to each of
them, and what it does to the accepted words follows from that.

* `Automaton.joins_removeState`, `Automaton.isStart_removeState`,
  `Automaton.isFinal_removeState`: what a removed state takes along.
* `Automaton.path_removeState`: the paths that are left are those that avoid the state.
* `Automaton.accepts_removed_and_linked`: removed states, and symbols that widen a
  transition instead of lying beside it.
-/

namespace RightLinear.Automaton

variable {A : Automaton} {p q r : Nat} {c : Char} {w : Word}

/-! ## Removed states -/

theorem PathAvoiding.ends_ne (avoiding : A.PathAvoiding q p w r) : p ≠ q ∧ r ≠ q := by
  induction avoiding with
  | nil other => exact ⟨other, other⟩
  | cons other _ _ ih => exact ⟨other, ih.2⟩

/-- Only one state has the id, so the first with the id is the only one. -/
theorem mem_eraseP_id {s : State} {l : List State} (distinct : (l.map State.id).Nodup) :
    s ∈ l.eraseP (·.id = q) ↔ s ∈ l ∧ s.id ≠ q := by
  induction l with
  | nil => simp
  | cons t l ih =>
    obtain ⟨alone, distinct⟩ := List.nodup_cons.mp distinct
    by_cases same : t.id = q
    · have others : ∀ s ∈ l, s.id ≠ q := fun s mem twin =>
        alone (List.mem_map.mpr ⟨s, mem, twin.trans same.symm⟩)
      have erased : (t :: l).eraseP (·.id = q) = l :=
        List.eraseP_cons_of_pos (decide_eq_true same)
      rw [erased, List.mem_cons]
      constructor
      · exact fun mem => ⟨Or.inr mem, others s mem⟩
      · rintro ⟨rfl | mem, other⟩
        · exact absurd same other
        · exact mem
    · have kept : (t :: l).eraseP (·.id = q) = t :: l.eraseP (·.id = q) :=
        List.eraseP_cons_of_neg (by simpa using same)
      rw [kept, List.mem_cons, List.mem_cons, ih distinct]
      constructor
      · rintro (rfl | ⟨mem, other⟩)
        · exact ⟨Or.inl rfl, same⟩
        · exact ⟨Or.inr mem, other⟩
      · rintro ⟨rfl | mem, other⟩
        · exact Or.inl rfl
        · exact Or.inr ⟨mem, other⟩

section Removed

variable (declared : A.Declares q)

include declared

theorem removeState_of_declares :
    A.removeState q =
      { states := A.states.eraseP (·.id = q)
        transitions := A.transitions.filter fun t => t.source ≠ q && t.target ≠ q } :=
  if_pos (hasState_iff_declares.mpr declared)

theorem joins_removeState :
    (A.removeState q).Joins p c r ↔ p ≠ q ∧ r ≠ q ∧ A.Joins p c r := by
  rw [removeState_of_declares declared]
  simp only [Joins, List.mem_filter, Bool.and_eq_true, decide_eq_true_eq]
  constructor
  · intro h
    obtain ⟨t, ⟨mem, source, target⟩, rfl, symbol, rfl⟩ := h
    exact ⟨source, target, t, mem, rfl, symbol, rfl⟩
  · intro h
    obtain ⟨source, target, t, mem, rfl, symbol, rfl⟩ := h
    exact ⟨t, ⟨mem, source, target⟩, rfl, symbol, rfl⟩

/-- A path is left exactly if it never visits the removed state. -/
theorem path_removeState (other : p ≠ q) :
    (A.removeState q).Path p w r ↔ A.PathAvoiding q p w r := by
  constructor
  · intro path
    induction path with
    | nil => exact .nil other
    | cons joins _ ih =>
      obtain ⟨source, target, joins⟩ := (joins_removeState declared).mp joins
      exact .cons source joins (ih target)
  · intro avoiding
    induction avoiding with
    | nil _ => exact .nil
    | cons source joins rest ih =>
      have target := rest.ends_ne.1
      exact .cons ((joins_removeState declared).mpr ⟨source, target, joins⟩) (ih target)

variable (distinct : (A.states.map State.id).Nodup)

include distinct

theorem mem_states_removeState {s : State} :
    s ∈ (A.removeState q).states ↔ s ∈ A.states ∧ s.id ≠ q := by
  rw [removeState_of_declares declared]
  exact mem_eraseP_id distinct

theorem isFinal_removeState : (A.removeState q).IsFinal r ↔ r ≠ q ∧ A.IsFinal r := by
  simp only [IsFinal, mem_states_removeState declared distinct]
  constructor
  · intro h
    obtain ⟨s, ⟨mem, other⟩, rfl, final⟩ := h
    exact ⟨other, s, mem, rfl, final⟩
  · intro h
    obtain ⟨other, s, mem, rfl, final⟩ := h
    exact ⟨s, ⟨mem, other⟩, rfl, final⟩

/-- With one initial state at most, no other one takes the place of a removed one. -/
theorem isStart_removeState
    (single : ∀ s ∈ A.states, ∀ t ∈ A.states, s.isInitial → t.isInitial → s = t) :
    (A.removeState q).IsStart p ↔ p ≠ q ∧ A.IsStart p := by
  simp only [IsStart, mem_states_removeState declared distinct]
  constructor
  · intro h
    obtain ⟨⟨s, ⟨mem, other⟩, initial, rfl⟩, -⟩ := h
    refine ⟨other, ⟨s, mem, initial, rfl⟩, fun t memT initialT => ?_⟩
    rw [single s mem t memT initial initialT]
  · intro h
    obtain ⟨other, ⟨s, mem, initial, rfl⟩, least⟩ := h
    exact ⟨⟨s, ⟨mem, other⟩, initial, rfl⟩, fun t memT => least t memT.1⟩

end Removed

/-- After a removal the words are accepted that some path reads without visiting the state. -/
theorem accepts_removeState (distinct : (A.states.map State.id).Nodup)
    (single : ∀ s ∈ A.states, ∀ t ∈ A.states, s.isInitial → t.isInitial → s = t)
    (declared : A.Declares q) :
    (A.removeState q).accepts w = true ↔
      ∃ p r, A.IsStart p ∧ A.PathAvoiding q p w r ∧ A.IsFinal r := by
  rw [accepts_iff_exists_path]
  constructor
  · intro accepted
    obtain ⟨p, r, start, path, final⟩ := accepted
    obtain ⟨other, start⟩ := (isStart_removeState declared distinct single).mp start
    exact ⟨p, r, start, (path_removeState declared other).mp path,
      ((isFinal_removeState declared distinct).mp final).2⟩
  · intro h
    obtain ⟨p, r, start, avoiding, final⟩ := h
    obtain ⟨first, last⟩ := avoiding.ends_ne
    exact ⟨p, r, (isStart_removeState declared distinct single).mpr ⟨first, start⟩,
      (path_removeState declared first).mpr avoiding,
      (isFinal_removeState declared distinct).mpr ⟨last, final⟩⟩

/-! ## Parallel transitions -/

/-- A symbol on a transition that is there already joins the same states as a transition
of its own. -/
theorem agrees_link {source target : Nat} :
    (A.link source target c).Agrees (A.addTransition source target (.singleton c)).2 := by
  have states : (A.link source target c).states =
      (A.addTransition source target (.singleton c)).2.states := states_link
  constructor
  · intro p
    rw [IsStart, IsStart, states]
  · intro p d q
    rw [joins_link, joins_addTransition, OrderedSet.mem_singleton]
  · intro q
    rw [IsFinal, IsFinal, states]

/-! ## The verdict after an edit -/

/-- If ids are distinct and one state at most is initial, then the automaton without a state
accepts the words that are read on a path, from the initial state to a final one, that never
visits the state. A symbol between two states counts the same on a transition that joins them
already and on one of its own. -/
theorem accepts_removed_and_linked (distinct : (A.states.map State.id).Nodup)
    (single : ∀ s ∈ A.states, ∀ t ∈ A.states, s.isInitial → t.isInitial → s = t) :
    (∀ q, A.hasState q → ∀ w, (A.removeState q).accepts w = true ↔
      ∃ p r, A.IsStart p ∧ A.PathAvoiding q p w r ∧ A.IsFinal r) ∧
    ∀ source target c w, (A.link source target c).accepts w =
      (A.addTransition source target (.singleton c)).2.accepts w :=
  ⟨fun _ declared _ => accepts_removeState distinct single (hasState_iff_declares.mp declared),
    fun _ _ _ => agrees_link.accepts⟩

/-- Without the state in the middle there is only the direct way. -/
theorem accepts_removed_and_linked_of_detour :
    let A : Automaton :=
      ⟨[⟨0, .origin, true, false⟩, ⟨1, .origin, false, true⟩, ⟨2, .origin, false, true⟩],
        [⟨0, 0, 1, .singleton 'a'⟩, ⟨1, 1, 2, .singleton 'b'⟩, ⟨2, 0, 2, .singleton 'c'⟩]⟩
    (A.states.map State.id).Nodup ∧
    (∀ s ∈ A.states, ∀ t ∈ A.states, s.isInitial → t.isInitial → s = t) ∧
    A.hasState 1 ∧ A.accepts ['a', 'b'] = true ∧
    (¬ ∃ p r, A.IsStart p ∧ A.PathAvoiding 1 p ['a', 'b'] r ∧ A.IsFinal r) ∧
    (∃ p r, A.IsStart p ∧ A.PathAvoiding 1 p ['c'] r ∧ A.IsFinal r) ∧
    (A.addTransition 0 2 (.singleton 'd')).2.accepts ['d'] = true := by
  intro A
  have distinct : (A.states.map State.id).Nodup := by decide
  have single : ∀ s ∈ A.states, ∀ t ∈ A.states, s.isInitial → t.isInitial → s = t := by
    simp [A]
  have declared : A.hasState 1 = true := rfl
  obtain ⟨removed, linked⟩ := accepts_removed_and_linked distinct single
  have detour : (A.removeState 1).accepts ['a', 'b'] = false := by decide
  have direct : (A.removeState 1).accepts ['c'] = true := by decide
  have widened : (A.link 0 2 'd').accepts ['d'] = true := by decide
  refine ⟨distinct, single, declared, by decide, fun path => ?_, ?_, ?_⟩
  · rw [(removed 1 declared _).mpr path] at detour
    cases detour
  · exact (removed 1 declared _).mp direct
  · rw [← linked]
    exact widened

end RightLinear.Automaton
