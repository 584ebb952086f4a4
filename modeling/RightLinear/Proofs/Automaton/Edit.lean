import Mathlib.Data.List.Nodup
import Mathlib.Order.Bounds.Defs
import RightLinear.Automaton.Edit
import RightLinear.Proofs.Automaton.Directive

/-!
# What editing keeps in order

Ids are freed and given again, and nothing of a removed state may come back with its
id. That holds because every edit keeps the automaton tidy: a removed state takes its
transitions along, so an id that no state has is an id that no transition names.

* `firstFree_not_mem`, `mem_of_lt_firstFree`: the id that is given next.
* `Automaton.Tidy.edit`: what one edit keeps.
* `Automaton.Edited.tidy`: what a run of edits keeps.
* `Automaton.Tidy.bare_addState`, `Automaton.Edited.tidy_and_fresh`: what is added after any
  run of edits.
-/

namespace RightLinear

/-! ## The first free number -/

/-- In an ascending list the search stops at the first number that is missing: everything from the
expected number up to it is in the list. -/
theorem firstGap_spec {l : List Nat} (sorted : l.Pairwise (· ≤ ·)) (expected : Nat) :
    firstGap expected l ∉ l ∧ expected ≤ firstGap expected l ∧
      ∀ n, expected ≤ n → n < firstGap expected l → n ∈ l := by
  induction l generalizing expected with
  | nil => exact ⟨List.not_mem_nil, Nat.le_refl _, fun n le lt => absurd lt (Nat.not_lt_of_le le)⟩
  | cons id l ih =>
    obtain ⟨least, sorted⟩ := List.pairwise_cons.mp sorted
    rw [firstGap]
    split
    · next below =>
      obtain ⟨absent, le, filled⟩ := ih sorted expected
      refine ⟨fun mem => ?_, le, fun n from_ lt => List.mem_cons_of_mem _ (filled n from_ lt)⟩
      rcases List.mem_cons.mp mem with same | later
      · omega
      · exact absent later
    · split
      · next same =>
        obtain ⟨absent, le, filled⟩ := ih sorted (expected + 1)
        refine ⟨fun mem => ?_, by omega, fun n from_ lt => ?_⟩
        · rcases List.mem_cons.mp mem with same | later
          · omega
          · exact absent later
        · rcases Nat.eq_or_lt_of_le from_ with rfl | above
          · exact same ▸ List.mem_cons_self
          · exact List.mem_cons_of_mem _ (filled n above lt)
      · next notBelow notSame =>
        refine ⟨fun mem => ?_, Nat.le_refl _, fun n le lt => absurd lt (Nat.not_lt_of_le le)⟩
        rcases List.mem_cons.mp mem with same | later
        · exact notSame same.symm
        · have := least _ later
          omega

section FirstFree

variable {ids : List Nat} {n : Nat}

theorem pairwise_le_mergeSort : (ids.mergeSort (· ≤ ·)).Pairwise (· ≤ ·) := by
  have pairwise : (ids.mergeSort (· ≤ ·)).Pairwise fun p q => decide (p ≤ q) = true :=
    List.pairwise_mergeSort (fun _ _ _ => by simpa using Nat.le_trans)
      (fun p q => by simpa using Nat.le_total p q) ids
  exact pairwise.imp of_decide_eq_true

theorem firstFree_not_mem : firstFree ids ∉ ids := fun mem =>
  (firstGap_spec pairwise_le_mergeSort 0).1 (List.mem_mergeSort.mpr mem)

theorem mem_of_lt_firstFree (lt : n < firstFree ids) : n ∈ ids :=
  List.mem_mergeSort.mp ((firstGap_spec pairwise_le_mergeSort 0).2.2 n (Nat.zero_le n) lt)

end FirstFree

namespace Automaton

variable {A B : Automaton} {id n : Nat}

theorem not_declares_nextStateId : ¬ A.Declares A.nextStateId := fun declared =>
  firstFree_not_mem (declares_iff_mem_ids.mp declared)

theorem declares_of_lt_nextStateId (lt : n < A.nextStateId) : A.Declares n :=
  declares_iff_mem_ids.mpr (mem_of_lt_firstFree lt)

/-! ## One initial state at most -/

theorem Ascending.eq_of_id_eq (ascending : A.Ascending) {s t : State} (memS : s ∈ A.states)
    (memT : t ∈ A.states) (same : s.id = t.id) : s = t :=
  List.inj_on_of_nodup_map ascending.nodup memS memT same

/-- In ascending order, two initial states are one if the initial state is known by
its id. -/
theorem StartsAt.initial_unique {start? : Option Nat} (starts : A.StartsAt start?)
    (ascending : A.Ascending) :
    ∀ s ∈ A.states, ∀ t ∈ A.states, s.isInitial → t.isInitial → s = t := by
  have known : ∀ s ∈ A.states, s.isInitial → start? = some s.id := fun s mem initial =>
    (starts s.id).mp (List.mem_map.mpr ⟨s, mem, congrArg (s.id, ·) initial⟩)
  intro s memS t memT initialS initialT
  refine ascending.eq_of_id_eq memS memT (Option.some.inj ?_)
  rw [← known s memS initialS, known t memT initialT]

/-- A tidy automaton has one initial state or none. -/
theorem Tidy.exists_startsAt (tidy : A.Tidy) : ∃ start?, A.StartsAt start? := by
  by_cases marked : ∃ s ∈ A.states, s.isInitial = true
  · obtain ⟨s, memS, initialS⟩ := marked
    refine ⟨some s.id, fun id => ⟨fun mem => ?_, fun same => ?_⟩⟩
    · obtain ⟨t, memT, flag⟩ := List.mem_map.mp mem
      obtain ⟨rfl, initialT⟩ := Prod.mk.inj flag
      rw [tidy.initial_unique s memS t memT initialS initialT]
    · cases same
      exact List.mem_map.mpr ⟨s, memS, congrArg (s.id, ·) initialS⟩
  · refine ⟨none, fun id => ⟨fun mem => ?_, fun h => by cases h⟩⟩
    obtain ⟨t, memT, flag⟩ := List.mem_map.mp mem
    exact absurd ⟨t, memT, (Prod.mk.inj flag).2⟩ marked

/-! ## Single edits -/

/-- A symbol on a transition changes nothing else about it. -/
theorem map_linkFirst {β : Type} (view : Transition → β)
    (unlabelled : ∀ t symbols, view { t with symbols } = view t) {source target : Nat} {c : Char}
    {l linked : List Transition} (found : linkFirst source target c l = some linked) :
    linked.map view = l.map view := by
  induction l generalizing linked with
  | nil => cases found
  | cons t l ih =>
    rw [linkFirst] at found
    split at found
    · cases found
      rw [List.map_cons, List.map_cons, unlabelled]
    · obtain ⟨rest, foundLater, rfl⟩ := Option.map_eq_some_iff.mp found
      rw [List.map_cons, List.map_cons, ih foundLater]

/-! ## Edits of the states -/

namespace Tidy

variable {s : State} {source target : Nat} {symbols : OrderedSet Char} {c : Char} {e : Edit}

/-- Transitions join declared states. -/
theorem declares (tidy : A.Tidy) {t : Transition} (mem : t ∈ A.transitions) :
    A.Declares t.source ∧ A.Declares t.target :=
  ⟨hasState_iff_declares.mp (tidy.hasState_source t mem),
    hasState_iff_declares.mp (tidy.hasState_target t mem)⟩

/-- Edits of the states that lose none. -/
theorem of_states (tidy : A.Tidy) (same : B.transitions = A.transitions)
    (ascending : B.Ascending)
    (unique : ∀ s ∈ B.states, ∀ t ∈ B.states, s.isInitial → t.isInitial → s = t)
    (kept : ∀ {id}, A.Declares id → B.Declares id) : B.Tidy where
  ascending := ascending
  initial_unique := unique
  nodup_transitions := same ▸ tidy.nodup_transitions
  hasState_source _ mem := hasState_iff_declares.mpr (kept (tidy.declares (same ▸ mem)).1)
  hasState_target _ mem := hasState_iff_declares.mpr (kept (tidy.declares (same ▸ mem)).2)

/-- States that are initial only if they were initial before. -/
theorem initial_unique_of_subset (tidy : A.Tidy)
    (old : ∀ s ∈ B.states, s.isInitial → s ∈ A.states) :
    ∀ s ∈ B.states, ∀ t ∈ B.states, s.isInitial → t.isInitial → s = t :=
  fun s memS t memT initialS initialT => tidy.initial_unique s (old s memS initialS) t
    (old t memT initialT) initialS initialT

theorem withState (tidy : A.Tidy) (fresh : ¬ A.Declares s.id) (plain : s.isInitial = false) :
    (A.withState s).Tidy := by
  refine tidy.of_states rfl (Ascending.withState tidy.ascending fresh) ?_ ?_
  · refine tidy.initial_unique_of_subset fun t mem initial => ?_
    rcases mem_states_withState.mp mem with old | rfl
    · exact old
    · rw [plain] at initial
      cases initial
  · intro id declared
    obtain ⟨t, mem, same⟩ := declared
    exact ⟨t, mem_states_withState.mpr (Or.inl mem), same⟩

theorem addState (tidy : A.Tidy) (position : Position) : (A.addState position).2.Tidy :=
  tidy.withState not_declares_nextStateId rfl

theorem ensureState (tidy : A.Tidy) (id : Nat) : (A.ensureState id).Tidy := by
  rw [Automaton.ensureState]
  split
  · exact tidy
  · next absent =>
    exact tidy.withState (fun declared => absent (hasState_iff_declares.mpr declared)) rfl

/-- With a state go the transitions that touch it, so those that stay join states that
stay. -/
theorem removeState (tidy : A.Tidy) (id : Nat) : (A.removeState id).Tidy := by
  rw [Automaton.removeState]
  split
  · have kept : (A.states.eraseP (·.id = id)).Sublist A.states := List.eraseP_sublist
    have stays : ∀ {q}, A.Declares q → q ≠ id → ∃ s ∈ A.states.eraseP (·.id = id), s.id = q := by
      intro q declared other
      obtain ⟨s, mem, rfl⟩ := declared
      exact ⟨s, (List.mem_eraseP_of_neg (by simpa using other)).mpr mem, rfl⟩
    have untouched : ∀ t ∈ A.transitions.filter fun t => t.source ≠ id && t.target ≠ id,
        t ∈ A.transitions ∧ t.source ≠ id ∧ t.target ≠ id := by
      intro t mem
      simpa using mem
    constructor
    · exact tidy.ascending.sublist (kept.map State.id)
    · exact tidy.initial_unique_of_subset (B := ⟨_, _⟩) fun s mem _ => kept.subset mem
    · exact tidy.nodup_transitions.sublist (List.filter_sublist.map Transition.id)
    · intro t mem
      obtain ⟨old, source, _⟩ := untouched t mem
      exact hasState_iff_declares.mpr (stays (tidy.declares old).1 source)
    · intro t mem
      obtain ⟨old, _, target⟩ := untouched t mem
      exact hasState_iff_declares.mpr (stays (tidy.declares old).2 target)
  · exact tidy

/-- Marks on the states, with one initial state at most among them. -/
theorem marked (tidy : A.Tidy) (same : B.transitions = A.transitions)
    (ids : B.states.map State.id = A.states.map State.id) {start? : Option Nat}
    (starts : B.StartsAt start?) : B.Tidy := by
  have ascending : B.Ascending := Ascending.congr ids tidy.ascending
  exact tidy.of_states same ascending (starts.initial_unique ascending)
    (declares_congr ids).mpr

theorem setInitial (tidy : A.Tidy) (id : Nat) : (A.setInitial id).Tidy := by
  by_cases declared : A.Declares id
  · exact tidy.marked transitions_setInitial (map_states_setInitial fun _ _ => rfl)
      (startsAt_setInitial declared)
  · rw [Automaton.setInitial, if_neg fun h => declared (hasState_iff_declares.mp h)]
    exact tidy

theorem setFinal (tidy : A.Tidy) (id : Nat) (isFinal : Bool) : (A.setFinal id isFinal).Tidy := by
  obtain ⟨_, starts⟩ := tidy.exists_startsAt
  exact tidy.marked rfl (map_states_setFinal fun _ => rfl) (starts.congr initialFlags_setFinal)

/-! ## Edits of the transitions -/

/-- Edits of the transitions that name declared states only. -/
theorem of_transitions (tidy : A.Tidy) (same : B.states = A.states)
    (distinct : (B.transitions.map Transition.id).Nodup)
    (declared : ∀ t ∈ B.transitions, A.Declares t.source ∧ A.Declares t.target) : B.Tidy := by
  have kept : ∀ {id}, A.Declares id → B.Declares id := (declares_congr (by rw [same])).mpr
  constructor
  · rw [same]
    exact tidy.ascending
  · rw [same]
    exact tidy.initial_unique
  · exact distinct
  · exact fun t mem => hasState_iff_declares.mpr (kept (declared t mem).1)
  · exact fun t mem => hasState_iff_declares.mpr (kept (declared t mem).2)

theorem addTransition (tidy : A.Tidy) (declaredSource : A.Declares source)
    (declaredTarget : A.Declares target) : (A.addTransition source target symbols).2.Tidy := by
  refine tidy.of_transitions rfl ?_ fun t mem => ?_
  · rw [Automaton.addTransition, List.map_append, List.map_singleton, List.nodup_append]
    refine ⟨tidy.nodup_transitions, by simp, fun p mem q single => ?_⟩
    rintro rfl
    exact firstFree_not_mem (List.mem_singleton.mp single ▸ mem)
  · rcases List.mem_append.mp mem with old | new
    · exact tidy.declares old
    · obtain rfl := List.mem_singleton.mp new
      exact ⟨declaredSource, declaredTarget⟩

/-- A link keeps the automaton tidy if it joins states that are declared, whether it widens a
transition or adds one. -/
theorem link (tidy : A.Tidy) (declaredSource : A.Declares source)
    (declaredTarget : A.Declares target) : (A.link source target c).Tidy := by
  rw [Automaton.link]
  split
  · next linked found =>
    refine tidy.of_transitions rfl ?_ fun t mem => ?_
    · rw [map_linkFirst Transition.id (fun _ _ => rfl) found]
      exact tidy.nodup_transitions
    · have ends : (t.source, t.target) ∈ linked.map fun t => (t.source, t.target) :=
        List.mem_map_of_mem mem
      rw [map_linkFirst (fun t => (t.source, t.target)) (fun _ _ => rfl) found] at ends
      obtain ⟨old, memOld, same⟩ := List.mem_map.mp ends
      obtain ⟨sameSource, sameTarget⟩ := Prod.mk.inj same
      rw [← sameSource, ← sameTarget]
      exact tidy.declares memOld
  · exact tidy.addTransition declaredSource declaredTarget

theorem removeTransition (tidy : A.Tidy) (id : Nat) : (A.removeTransition id).Tidy := by
  have kept : (A.transitions.eraseP (·.id = id)).Sublist A.transitions := List.eraseP_sublist
  exact tidy.of_transitions rfl (tidy.nodup_transitions.sublist (kept.map Transition.id))
    fun t mem => tidy.declares (kept.subset mem)

/-! ## Runs of edits -/

/-- An edit that is admitted keeps an automaton tidy. -/
theorem edit (tidy : A.Tidy) (admitted : A.Admits e) : (A.edit e).Tidy := by
  cases e with
  | addState position => exact tidy.addState position
  | ensureState id => exact tidy.ensureState id
  | removeState id => exact tidy.removeState id
  | setInitial id => exact tidy.setInitial id
  | setFinal id isFinal => exact tidy.setFinal id isFinal
  | addTransition source target symbols =>
    obtain ⟨declaredSource, declaredTarget⟩ := admitted
    exact tidy.addTransition (hasState_iff_declares.mp declaredSource)
      (hasState_iff_declares.mp declaredTarget)
  | link source target c =>
    obtain ⟨declaredSource, declaredTarget⟩ := admitted
    exact tidy.link (hasState_iff_declares.mp declaredSource)
      (hasState_iff_declares.mp declaredTarget)
  | removeTransition id => exact tidy.removeTransition id

theorem empty : (∅ : Automaton).Tidy where
  ascending := .nil
  initial_unique _ mem := absurd mem List.not_mem_nil
  nodup_transitions := .nil
  hasState_source _ mem := absurd mem List.not_mem_nil
  hasState_target _ mem := absurd mem List.not_mem_nil

end Tidy

theorem Edited.tidy (edited : A.Edited) : A.Tidy := by
  induction edited with
  | empty => exact .empty
  | edit _ admitted ih => exact ih.edit admitted

/-! ## What is new -/

/-- The state with this id is there, neither initial nor final, and no transition
touches it. -/
structure Bare (A : Automaton) (id : Nat) : Prop where
  hasState : A.hasState id
  not_isInitial : ∀ s ∈ A.states, s.id = id → s.isInitial = false
  not_isFinal : ∀ s ∈ A.states, s.id = id → s.isFinal = false
  source_ne : ∀ t ∈ A.transitions, t.source ≠ id
  target_ne : ∀ t ∈ A.transitions, t.target ≠ id

theorem isLeast_addState (A : Automaton) (position : Position) :
    IsLeast {id | A.hasState id = false} (A.addState position).1 := by
  refine ⟨?_, fun id free => Nat.le_of_not_lt fun lt => ?_⟩
  · exact Bool.eq_false_iff.mpr fun h => not_declares_nextStateId (hasState_iff_declares.mp h)
  · have taken := hasState_iff_declares.mpr (declares_of_lt_nextStateId lt)
    cases taken.symm.trans free

theorem isLeast_addTransition (A : Automaton) (source target : Nat) (symbols : OrderedSet Char) :
    IsLeast {id | ∀ t ∈ A.transitions, t.id ≠ id} (A.addTransition source target symbols).1 := by
  refine ⟨fun t mem same => ?_, fun id free => Nat.le_of_not_lt fun lt => ?_⟩
  · exact firstFree_not_mem (List.mem_map.mpr ⟨t, mem, same⟩)
  · obtain ⟨t, mem, same⟩ := List.mem_map.mp (mem_of_lt_firstFree lt)
    exact free t mem same

/-- No transition names an id that no state has, so a new state has none, even if the id
is that of a removed one. -/
theorem Tidy.bare_addState (tidy : A.Tidy) (position : Position) :
    (A.addState position).2.Bare (A.addState position).1 := by
  have plain : ∀ s ∈ (A.addState position).2.states, s.id = A.nextStateId →
      s = { State.plain A.nextStateId with position } := by
    intro s mem same
    rcases mem_states_withState.mp mem with old | new
    · exact absurd ⟨s, old, same⟩ not_declares_nextStateId
    · exact new
  constructor
  · exact hasState_iff_declares.mpr ⟨_, mem_states_withState.mpr (Or.inr rfl), rfl⟩
  · intro s mem same
    rw [plain s mem same]
    rfl
  · intro s mem same
    rw [plain s mem same]
    rfl
  · intro t mem same
    exact not_declares_nextStateId (same ▸ (tidy.declares mem).1)
  · intro t mem same
    exact not_declares_nextStateId (same ▸ (tidy.declares mem).2)

/-- After any run of edits the automaton is tidy, a state that is added gets the smallest
free id and has nothing else, and a transition that is added gets the smallest free id. -/
theorem Edited.tidy_and_fresh (edited : A.Edited) :
    A.Tidy ∧
    (∀ position, IsLeast {id | A.hasState id = false} (A.addState position).1 ∧
      (A.addState position).2.Bare (A.addState position).1) ∧
    ∀ source target symbols, IsLeast {id | ∀ t ∈ A.transitions, t.id ≠ id}
      (A.addTransition source target symbols).1 :=
  ⟨edited.tidy, fun position => ⟨isLeast_addState A position, edited.tidy.bare_addState position⟩,
    isLeast_addTransition A⟩

/-- The id of a removed state that was initial and final and had a transition is given
again. -/
theorem Edited.tidy_and_fresh_of_removed :
    let A : Automaton := [Edit.ensureState 0, .ensureState 1, .addTransition 0 1 (.singleton 'a'),
      .setInitial 0, .setFinal 0 true, .removeState 0].foldl Automaton.edit ∅
    A.Edited ∧ A.Tidy ∧ (A.addState .origin).1 = 0 ∧ (A.addState .origin).2.Bare 0 := by
  intro A
  have first : (∅ : Automaton).edit (.ensureState 0) = ⟨[.plain 0], []⟩ := by
    simp [Automaton.edit, Automaton.ensureState, Automaton.hasState, state?, sortStates,
      EmptyCollection.emptyCollection, Automaton.empty]
  have second : (⟨[.plain 0], []⟩ : Automaton).edit (.ensureState 1) =
      ⟨[.plain 0, .plain 1], []⟩ := by
    simp [Automaton.edit, Automaton.ensureState, Automaton.hasState, state?, State.plain,
      sortStates, List.mergeSort]
  have admitted : (((∅ : Automaton).edit (.ensureState 0)).edit (.ensureState 1)).Admits
      (.addTransition 0 1 (.singleton 'a')) := by
    rw [first, second]
    exact ⟨rfl, rfl⟩
  have declared := (Edited.empty.edit (e := .ensureState 0) trivial).edit
    (e := .ensureState 1) trivial
  have linked := declared.edit (e := .addTransition 0 1 (.singleton 'a')) admitted
  have edited : A.Edited := ((linked.edit (e := .setInitial 0) trivial).edit
    (e := .setFinal 0 true) trivial).edit (e := .removeState 0) trivial
  have removed : A.hasState 0 = false := by
    simp only [A, List.foldl_cons, List.foldl_nil, first, second]
    decide
  obtain ⟨tidy, fresh, -⟩ := edited.tidy_and_fresh
  obtain ⟨least, bare⟩ := fresh .origin
  have again : (A.addState .origin).1 = 0 := Nat.le_zero.mp (least.2 removed)
  exact ⟨edited, tidy, again, again ▸ bare⟩

end Automaton

end RightLinear
