import RightLinear.Automaton.Directive
import RightLinear.Proofs.Automaton.EmptyMove
import RightLinear.Proofs.Text.Line

/-!
# The automaton that lines describe

Lines are applied one after another to an automaton that grows: states appear where
they are first mentioned and are kept in order, an initial state displaces the one
before it. What the automaton does in the end depends on less than that. Its moves
and its final states are those of any line, and its initial state is that of the
last line that names one.

* `Automaton.joins_ofDirectives`, `Automaton.isFinal_ofDirectives`,
  `Automaton.isStart_ofDirectives`, `Automaton.declares_ofDirectives`,
  `Automaton.links_ofDirectives`: the automaton by its lines.
* `Automaton.ascending_ofDirectives`, `Automaton.numbered_ofDirectives`: states ascend
  by their ids, transitions are numbered.
* `Automaton.read_eq_ok`: the automaton of a text.
-/

namespace RightLinear

namespace Directive

/-- The line lets a symbol lead from one state to another. -/
def Moves : Directive → Nat → Char → Nat → Prop
  | .transition source target symbols, p, c, q => p = source ∧ c ∈ symbols ∧ q = target
  | _, _, _, _ => False

/-- The line makes a state final. -/
def Ends : Directive → Nat → Prop
  | .final ids, q => q ∈ ids
  | _, _ => False

/-- The state that the line makes the initial one. -/
def start? : Directive → Option Nat
  | .initial id => some id
  | _ => none

/-- The states that the line mentions. -/
def mentions : Directive → List Nat
  | .state id _ | .initial id => [id]
  | .final ids => ids
  | .transition source target _ => [source, target]

/-- The endpoints and the symbols of the transition that the line adds. -/
def link? : Directive → Option (Nat × Nat × OrderedSet Char)
  | .transition source target symbols => some (source, target, .ofList symbols)
  | _ => none

end Directive

namespace Automaton

variable {A : Automaton} {p q id : Nat} {c : Char} {d : Directive}

/-! ## Single edits -/

theorem hasState_iff_declares : A.hasState id = true ↔ A.Declares id := by
  rw [hasState, state?, List.find?_isSome]
  simp [Declares]

theorem mem_states_ensureState {s : State} :
    s ∈ (A.ensureState id).states ↔ s ∈ A.states ∨ ¬ A.Declares id ∧ s = State.plain id := by
  rw [← hasState_iff_declares, ensureState]
  split
  · next present => simp [present]
  · next absent =>
    rw [sortStates, List.mem_mergeSort, List.mem_append, List.mem_singleton]
    simp [absent]

theorem declares_ensureState : (A.ensureState id).Declares q ↔ A.Declares q ∨ q = id := by
  refine ⟨fun h => ?_, fun h => ?_⟩
  · obtain ⟨s, mem, rfl⟩ := h
    rcases mem_states_ensureState.mp mem with old | ⟨_, rfl⟩
    · exact Or.inl ⟨s, old, rfl⟩
    · exact Or.inr rfl
  · rcases h with ⟨s, mem, rfl⟩ | rfl
    · exact ⟨s, mem_states_ensureState.mpr (Or.inl mem), rfl⟩
    · by_cases present : A.Declares q
      · obtain ⟨s, mem, same⟩ := present
        exact ⟨s, mem_states_ensureState.mpr (Or.inl mem), same⟩
      · exact ⟨.plain q, mem_states_ensureState.mpr (Or.inr ⟨present, rfl⟩), rfl⟩

theorem isFinal_ensureState : (A.ensureState id).IsFinal q ↔ A.IsFinal q := by
  refine ⟨fun h => ?_, fun h => ?_⟩
  · obtain ⟨s, mem, same, isFinal⟩ := h
    rcases mem_states_ensureState.mp mem with old | ⟨_, rfl⟩
    · exact ⟨s, old, same, isFinal⟩
    · cases isFinal
  · obtain ⟨s, mem, same, isFinal⟩ := h
    exact ⟨s, mem_states_ensureState.mpr (Or.inl mem), same, isFinal⟩

theorem transitions_ensureState : (A.ensureState id).transitions = A.transitions := by
  rw [ensureState]
  split <;> rfl

theorem transitions_setInitial : (A.setInitial id).transitions = A.transitions := by
  rw [setInitial]
  split <;> rfl

theorem map_modifyFirst {β : Type} {view : State → β} {change : State → State}
    (unchanged : ∀ s, view (change s) = view s) (l : List State) :
    (modifyFirst id change l).map view = l.map view := by
  induction l with
  | nil => rfl
  | cons s l ih =>
    rw [modifyFirst]
    split
    · rw [List.map_cons, List.map_cons, unchanged]
    · rw [List.map_cons, List.map_cons, ih]

theorem map_states_setPosition {β : Type} {view : State → β} {position : Position}
    (unplaced : ∀ s, view { s with position } = view s) :
    (A.setPosition id position).states.map view = A.states.map view :=
  map_modifyFirst unplaced A.states

theorem map_states_setInitial {β : Type} {view : State → β}
    (unmarked : ∀ s isInitial, view { s with isInitial } = view s) :
    (A.setInitial id).states.map view = A.states.map view := by
  rw [setInitial]
  split
  · rw [List.map_map]
    exact List.map_congr_left fun s _ => unmarked s _
  · rfl

theorem map_states_setFinal {β : Type} {view : State → β} {isFinal : Bool}
    (unmarked : ∀ s, view { s with isFinal } = view s) :
    (A.setFinal id isFinal).states.map view = A.states.map view :=
  map_modifyFirst unmarked A.states

theorem isFinal_setPosition {position : Position} :
    (A.setPosition id position).IsFinal q ↔ A.IsFinal q := by
  rw [isFinal_iff_mem_map, isFinal_iff_mem_map, map_states_setPosition fun _ => rfl]

theorem isFinal_setInitial : (A.setInitial id).IsFinal q ↔ A.IsFinal q := by
  rw [isFinal_iff_mem_map, isFinal_iff_mem_map, map_states_setInitial fun _ _ => rfl]

theorem joins_congr {B : Automaton} (same : A.transitions = B.transitions) :
    A.Joins p c q ↔ B.Joins p c q := by
  rw [Joins, Joins, same]

theorem declares_iff_mem_ids : A.Declares q ↔ q ∈ A.states.map State.id := by
  rw [Declares, List.mem_map]

theorem declares_congr {B : Automaton} (same : A.states.map State.id = B.states.map State.id) :
    A.Declares q ↔ B.Declares q := by
  rw [declares_iff_mem_ids, declares_iff_mem_ids, same]

/-! ## The initial state

One state at most is initial, and it is known which: this is kept by every line. -/

/-- The states that are initial are those with the given id. -/
def StartsAt (A : Automaton) (start? : Option Nat) : Prop :=
  ∀ id, (id, true) ∈ A.initialFlags ↔ start? = some id

theorem StartsAt.isStart_iff {start? : Option Nat} (starts : A.StartsAt start?) :
    A.IsStart q ↔ start? = some q := by
  rw [isStart_iff_mem_initialFlags, starts]
  refine ⟨And.left, fun same => ⟨same, fun other mem => ?_⟩⟩
  exact Nat.le_of_eq (Option.some.inj (same.symm.trans ((starts other).mp mem)))

theorem StartsAt.ensureState {start? : Option Nat} (starts : A.StartsAt start?) :
    (A.ensureState id).StartsAt start? := by
  intro other
  rw [← starts, initialFlags, initialFlags, List.mem_map, List.mem_map]
  refine ⟨fun h => ?_, fun h => ?_⟩
  · obtain ⟨s, mem, flag⟩ := h
    rcases mem_states_ensureState.mp mem with old | ⟨_, rfl⟩
    · exact ⟨s, old, flag⟩
    · cases flag
  · obtain ⟨s, mem, flag⟩ := h
    exact ⟨s, mem_states_ensureState.mpr (Or.inl mem), flag⟩

theorem startsAt_setInitial (declared : A.Declares id) : (A.setInitial id).StartsAt (some id) := by
  intro other
  rw [initialFlags, setInitial, if_pos (hasState_iff_declares.mpr declared), List.map_map,
    List.mem_map]
  refine ⟨fun h => ?_, fun h => ?_⟩
  · obtain ⟨s, _, flag⟩ := h
    obtain ⟨rfl, isInitial⟩ := Prod.mk.inj flag
    rw [of_decide_eq_true isInitial]
  · obtain ⟨s, mem, rfl⟩ := declared
    cases h
    exact ⟨s, mem, by simp⟩

theorem StartsAt.congr {B : Automaton} {start? : Option Nat}
    (same : A.initialFlags = B.initialFlags) (starts : B.StartsAt start?) : A.StartsAt start? := by
  intro other
  rw [same]
  exact starts other

/-! ## One line -/

/-- What every single edit of a line keeps, the line keeps. -/
theorem apply_induction {P : Automaton → Prop}
    (ensureState : ∀ A id, id ∈ d.mentions → P A → P (A.ensureState id))
    (setPosition : ∀ A id position, d = .state id (some position) → P A →
      P (A.setPosition id position))
    (setInitial : ∀ A id, d.start? = some id → P A → P (A.setInitial id))
    (setFinal : ∀ A id, P A → P (A.setFinal id true))
    (addTransition : ∀ A source target symbols, P A → P (A.addTransition source target symbols).2)
    (holds : P A) : P (A.apply d) := by
  cases d with
  | state id position =>
    have declared := ensureState A id List.mem_cons_self holds
    cases position with
    | none => exact declared
    | some position => exact setPosition _ id position rfl declared
  | initial id => exact setInitial _ id rfl (ensureState A id List.mem_cons_self holds)
  | final ids =>
    refine List.foldlRecOn ids _ holds fun B holdsB id mem => ?_
    exact setFinal _ id (ensureState B id mem holdsB)
  | transition source target symbols =>
    have declared := ensureState A source List.mem_cons_self holds
    refine addTransition _ _ _ _ (ensureState _ target ?_ declared)
    exact List.mem_cons_of_mem _ List.mem_cons_self

theorem transitions_foldl_setFinal (ids : List Nat) :
    (ids.foldl (fun A id => (A.ensureState id).setFinal id true) A).transitions =
      A.transitions := by
  induction ids generalizing A with
  | nil => rfl
  | cons id ids ih => rw [List.foldl_cons, ih, setFinal, transitions_ensureState]

theorem isFinal_foldl_setFinal (ids : List Nat) :
    (ids.foldl (fun A id => (A.ensureState id).setFinal id true) A).IsFinal q ↔
      A.IsFinal q ∨ q ∈ ids := by
  induction ids generalizing A with
  | nil => simp
  | cons id ids ih =>
    rw [List.foldl_cons, ih, isFinal_setFinal, isFinal_ensureState, declares_ensureState,
      List.mem_cons, or_assoc]
    simp only [or_true, and_true]

/-- A directive adds the moves that it states, and takes none away. -/
theorem joins_apply : (A.apply d).Joins p c q ↔ A.Joins p c q ∨ d.Moves p c q := by
  have unmoved : ¬ d.Moves p c q → (A.apply d).transitions = A.transitions →
      ((A.apply d).Joins p c q ↔ A.Joins p c q ∨ d.Moves p c q) := fun still same =>
    (joins_congr same).trans (or_iff_left still).symm
  cases d with
  | state id position =>
    cases position with
    | none => exact unmoved (fun h => h) transitions_ensureState
    | some position => exact unmoved (fun h => h) transitions_ensureState
  | initial id => exact unmoved (fun h => h) (transitions_setInitial.trans transitions_ensureState)
  | final ids => exact unmoved (fun h => h) (transitions_foldl_setFinal ids)
  | transition source target symbols =>
    rw [apply, joins_addTransition, OrderedSet.mem_ofList]
    exact or_congr (joins_congr (transitions_ensureState.trans transitions_ensureState)) Iff.rfl

/-- A directive makes the states final that it lists, and no others. -/
theorem isFinal_apply : (A.apply d).IsFinal q ↔ A.IsFinal q ∨ d.Ends q := by
  have unended : ¬ d.Ends q → ((A.apply d).IsFinal q ↔ A.IsFinal q) →
      ((A.apply d).IsFinal q ↔ A.IsFinal q ∨ d.Ends q) := fun still same =>
    same.trans (or_iff_left still).symm
  cases d with
  | state id position =>
    cases position with
    | none => exact unended (fun h => h) isFinal_ensureState
    | some position =>
      exact unended (fun h => h) (isFinal_setPosition.trans isFinal_ensureState)
  | initial id => exact unended (fun h => h) (isFinal_setInitial.trans isFinal_ensureState)
  | final ids => exact isFinal_foldl_setFinal ids
  | transition source target symbols =>
    refine unended (fun h => h) ?_
    exact (isFinal_ensureState (A := A.ensureState source)).trans isFinal_ensureState

theorem declares_foldl_setFinal (ids : List Nat) :
    (ids.foldl (fun A id => (A.ensureState id).setFinal id true) A).Declares q ↔
      A.Declares q ∨ q ∈ ids := by
  induction ids generalizing A with
  | nil => simp
  | cons id ids ih =>
    rw [List.foldl_cons, ih, declares_congr (map_states_setFinal fun _ => rfl),
      declares_ensureState, List.mem_cons, or_assoc]

/-- A directive declares the states that it mentions. -/
theorem declares_apply : (A.apply d).Declares q ↔ A.Declares q ∨ q ∈ d.mentions := by
  have ensured : ∀ id, (A.ensureState id).Declares q ↔ A.Declares q ∨ q ∈ [id] := by
    intro id
    rw [declares_ensureState, List.mem_singleton]
  cases d with
  | state id position =>
    cases position with
    | none => exact ensured id
    | some position =>
      exact (declares_congr (map_states_setPosition fun _ => rfl)).trans (ensured id)
  | initial id =>
    exact (declares_congr (map_states_setInitial fun _ _ => rfl)).trans (ensured id)
  | final ids => exact declares_foldl_setFinal ids
  | transition source target symbols =>
    have second : ((A.ensureState source).ensureState target).Declares q ↔
        (A.Declares q ∨ q = source) ∨ q = target := by
      rw [declares_ensureState, declares_ensureState]
    rw [Directive.mentions, List.mem_pair, ← or_assoc]
    exact second

/-- A directive that states an initial state takes the place of an earlier one. -/
theorem StartsAt.apply {start? : Option Nat} (starts : A.StartsAt start?) :
    (A.apply d).StartsAt (d.start?.or start?) := by
  have unnamed : d.start? = none → (A.apply d).StartsAt start? := by
    intro none
    refine apply_induction (P := fun A => A.StartsAt start?) (fun _ _ _ => .ensureState) ?_ ?_ ?_ ?_
      starts
    · exact fun _ _ _ _ => .congr (map_states_setPosition fun _ => rfl)
    · intro _ _ some
      rw [none] at some
      cases some
    · exact fun _ _ => .congr initialFlags_setFinal
    · exact fun _ _ _ _ => .congr rfl
  cases d with
  | initial id => exact startsAt_setInitial (declares_ensureState.mpr (Or.inr rfl))
  | state id position => exact unnamed rfl
  | final ids => exact unnamed rfl
  | transition source target symbols => exact unnamed rfl

/-! ## Ascending ids -/

/-- States are listed in ascending order of their ids, each id once. -/
def Ascending (A : Automaton) : Prop := (A.states.map State.id).Pairwise (· < ·)

theorem Ascending.nodup (ascending : A.Ascending) : (A.states.map State.id).Nodup :=
  ascending.imp Nat.ne_of_lt

theorem ascending_sortStates {l : List State} (distinct : (l.map State.id).Nodup) :
    ((sortStates l).map State.id).Pairwise (· < ·) := by
  have sorted : ((sortStates l).map State.id).Pairwise (· ≤ ·) := by
    have pairwise : (sortStates l).Pairwise fun s t => decide (s.id ≤ t.id) = true :=
      List.pairwise_mergeSort (fun _ _ _ => by simpa using Nat.le_trans)
        (fun s t => by simpa using Nat.le_total s.id t.id) l
    exact List.pairwise_map.mpr (pairwise.imp of_decide_eq_true)
  have stillDistinct : ((sortStates l).map State.id).Nodup :=
    ((List.mergeSort_perm l _).map State.id).nodup_iff.mpr distinct
  exact (sorted.and stillDistinct).imp fun both => Nat.lt_of_le_of_ne both.1 both.2

/-- The automaton with one more state, in order. -/
def withState (A : Automaton) (s : State) : Automaton :=
  { A with states := sortStates (A.states ++ [s]) }

theorem mem_states_withState {s t : State} :
    t ∈ (A.withState s).states ↔ t ∈ A.states ∨ t = s := by
  rw [withState, sortStates, List.mem_mergeSort, List.mem_append, List.mem_singleton]

theorem Ascending.withState {s : State} (ascending : A.Ascending) (fresh : ¬ A.Declares s.id) :
    (A.withState s).Ascending := by
  refine ascending_sortStates ?_
  rw [List.map_append, List.map_singleton, List.nodup_append]
  refine ⟨ascending.nodup, by simp, fun p mem q single => ?_⟩
  rintro rfl
  exact fresh (declares_iff_mem_ids.mpr (List.mem_singleton.mp single ▸ mem))

theorem Ascending.ensureState (ascending : A.Ascending) : (A.ensureState id).Ascending := by
  rw [Automaton.ensureState]
  split
  · exact ascending
  · next absent =>
    refine ascending.withState (s := .plain id) fun declared => absent ?_
    exact hasState_iff_declares.mpr declared

theorem Ascending.congr {B : Automaton} (same : A.states.map State.id = B.states.map State.id)
    (ascending : B.Ascending) : A.Ascending := by
  rw [Ascending, same]
  exact ascending

theorem Ascending.apply (ascending : A.Ascending) : (A.apply d).Ascending :=
  apply_induction (P := Ascending) (fun _ _ _ => .ensureState)
    (fun _ _ _ _ => .congr (map_states_setPosition fun _ => rfl))
    (fun _ _ _ => .congr (map_states_setInitial fun _ _ => rfl))
    (fun _ _ => .congr (map_states_setFinal fun _ => rfl))
    (fun _ _ _ _ => .congr rfl)
    ascending

/-! ## Numbered transitions -/

/-- The transitions, without their ids. -/
def links (A : Automaton) : List (Nat × Nat × OrderedSet Char) :=
  A.transitions.map fun t => (t.source, t.target, t.symbols)

/-- The ids of the transitions are their places in the list. -/
def Numbered (A : Automaton) : Prop :=
  A.transitions.map Transition.id = List.range A.transitions.length

theorem firstGap_range' (first amount : Nat) :
    firstGap first (List.range' first amount) = first + amount := by
  induction amount generalizing first with
  | zero => rfl
  | succ amount ih =>
    rw [List.range'_succ, firstGap, if_neg (Nat.lt_irrefl first), if_pos rfl, ih]
    omega

/-- After the numbers from zero on comes the next one. -/
theorem firstFree_range (amount : Nat) : firstFree (List.range amount) = amount := by
  have sorted : (List.range amount).Pairwise fun p q => decide (p ≤ q) = true :=
    List.pairwise_lt_range.imp fun lt => decide_eq_true (Nat.le_of_lt lt)
  rw [firstFree, List.mergeSort_of_pairwise sorted, List.range_eq_range', firstGap_range',
    Nat.zero_add]

theorem Numbered.addTransition {source target : Nat} {symbols : OrderedSet Char}
    (numbered : A.Numbered) : (A.addTransition source target symbols).2.Numbered := by
  rw [Numbered, Automaton.addTransition, nextTransitionId, numbered, firstFree_range,
    List.map_append, List.map_singleton, List.length_append, List.length_singleton,
    List.range_succ, numbered]

theorem Numbered.congr {B : Automaton} (same : A.transitions = B.transitions)
    (numbered : B.Numbered) : A.Numbered := by
  rw [Numbered, same]
  exact numbered

theorem Numbered.apply (numbered : A.Numbered) : (A.apply d).Numbered :=
  apply_induction (P := Numbered) (fun _ _ _ => .congr transitions_ensureState)
    (fun _ _ _ _ => .congr rfl) (fun _ _ _ => .congr transitions_setInitial)
    (fun _ _ => .congr rfl) (fun _ _ _ _ => .addTransition) numbered

theorem links_addTransition {source target : Nat} {symbols : OrderedSet Char} :
    (A.addTransition source target symbols).2.links = A.links ++ [(source, target, symbols)] :=
  List.map_append

/-- A directive appends at most one transition, without regard to its id. -/
theorem links_apply : (A.apply d).links = A.links ++ d.link?.toList := by
  have unlinked : ∀ {B : Automaton}, B.transitions = A.transitions →
      B.links = A.links ++ [] := by
    intro B same
    rw [links, same, List.append_nil, links]
  cases d with
  | state id position =>
    cases position with
    | none => exact unlinked transitions_ensureState
    | some position => exact unlinked transitions_ensureState
  | initial id => exact unlinked (transitions_setInitial.trans transitions_ensureState)
  | final ids => exact unlinked (transitions_foldl_setFinal ids)
  | transition source target symbols =>
    rw [apply, links_addTransition, links, transitions_ensureState, transitions_ensureState]
    rfl

/-- Numbered transitions are determined by their endpoints and symbols. -/
theorem transitions_eq_of_links_eq {B : Automaton} (numberedA : A.Numbered)
    (numberedB : B.Numbered) (same : A.links = B.links) : A.transitions = B.transitions := by
  have length : A.transitions.length = B.transitions.length := by
    have mapped := congrArg List.length same
    rw [links, links, List.length_map, List.length_map] at mapped
    exact mapped
  have ids : A.transitions.map Transition.id = B.transitions.map Transition.id := by
    rw [numberedA, numberedB, length]
  -- an id and a link make up a transition
  have parts : ∀ l : List Transition, (l.map Transition.id).zip
      (l.map fun t => (t.source, t.target, t.symbols)) =
        l.map fun t => (t.id, t.source, t.target, t.symbols) := fun l => List.zip_map'
  have zipped := congrArg₂ List.zip ids same
  rw [links, links, parts, parts] at zipped
  refine List.map_injective_iff.mpr (fun s t same => ?_) zipped
  cases s
  cases t
  simpa using same

/-! ## All lines -/

variable {l : List Directive}

theorem joins_foldl_apply :
    (l.foldl apply A).Joins p c q ↔ A.Joins p c q ∨ ∃ d ∈ l, d.Moves p c q := by
  induction l generalizing A with
  | nil => simp
  | cons d l ih => rw [List.foldl_cons, ih, joins_apply, List.exists_mem_cons_iff, or_assoc]

theorem isFinal_foldl_apply :
    (l.foldl apply A).IsFinal q ↔ A.IsFinal q ∨ ∃ d ∈ l, d.Ends q := by
  induction l generalizing A with
  | nil => simp
  | cons d l ih => rw [List.foldl_cons, ih, isFinal_apply, List.exists_mem_cons_iff, or_assoc]

/-- The moves of the automaton are those of its lines. -/
theorem joins_ofDirectives : (ofDirectives l).Joins p c q ↔ ∃ d ∈ l, d.Moves p c q := by
  rw [ofDirectives, joins_foldl_apply]
  refine or_iff_right fun h => ?_
  obtain ⟨t, mem, _⟩ := h
  exact absurd mem List.not_mem_nil

/-- The final states of the automaton are those of its lines. -/
theorem isFinal_ofDirectives : (ofDirectives l).IsFinal q ↔ ∃ d ∈ l, d.Ends q := by
  rw [ofDirectives, isFinal_foldl_apply]
  refine or_iff_right fun h => ?_
  obtain ⟨s, mem, _⟩ := h
  exact absurd mem List.not_mem_nil

theorem declares_foldl_apply :
    (l.foldl apply A).Declares q ↔ A.Declares q ∨ ∃ d ∈ l, q ∈ d.mentions := by
  induction l generalizing A with
  | nil => simp
  | cons d l ih => rw [List.foldl_cons, ih, declares_apply, List.exists_mem_cons_iff, or_assoc]

/-- The states of the automaton are those that its lines mention. -/
theorem declares_ofDirectives : (ofDirectives l).Declares q ↔ ∃ d ∈ l, q ∈ d.mentions := by
  rw [ofDirectives, declares_foldl_apply]
  refine or_iff_right fun h => ?_
  obtain ⟨s, mem, _⟩ := h
  exact absurd mem List.not_mem_nil

theorem links_foldl_apply : (l.foldl apply A).links = A.links ++ l.filterMap Directive.link? := by
  induction l generalizing A with
  | nil => exact (List.append_nil _).symm
  | cons d l ih =>
    rw [List.foldl_cons, ih, links_apply, List.append_assoc, List.filterMap_cons]
    cases d.link? <;> rfl

/-- The transitions of the automaton are those of its lines, in order. -/
theorem links_ofDirectives : (ofDirectives l).links = l.filterMap Directive.link? :=
  links_foldl_apply

/-- The last directive that states an initial state decides. -/
theorem startsAt_foldl_apply {start? : Option Nat} (starts : A.StartsAt start?) :
    (l.foldl apply A).StartsAt ((l.filterMap Directive.start?).getLast?.or start?) := by
  induction l generalizing A start? with
  | nil => exact starts
  | cons d l ih =>
    have onward := ih (starts.apply (d := d))
    rw [List.foldl_cons, List.filterMap_cons]
    cases named : d.start? with
    | none =>
      rw [named] at onward
      exact onward
    | some id =>
      rw [named] at onward
      rw [List.getLast?_cons]
      cases last : (l.filterMap Directive.start?).getLast? with
      | none =>
        rw [last] at onward
        exact onward
      | some other =>
        rw [last] at onward
        exact onward

theorem startsAt_ofDirectives :
    (ofDirectives l).StartsAt (l.filterMap Directive.start?).getLast? := by
  have nowhere : (∅ : Automaton).StartsAt none := fun id => by
    refine ⟨fun mem => absurd mem List.not_mem_nil, fun h => ?_⟩
    cases h
  have starts := startsAt_foldl_apply (l := l) nowhere
  rw [Option.or_none] at starts
  exact starts

/-- The initial state of the automaton is that of the last line that names one. -/
theorem isStart_ofDirectives :
    (ofDirectives l).IsStart q ↔ (l.filterMap Directive.start?).getLast? = some q :=
  startsAt_ofDirectives.isStart_iff

theorem ascending_ofDirectives : (ofDirectives l).Ascending :=
  List.foldlRecOn l apply .nil fun _ ascending _ _ => ascending.apply

theorem numbered_ofDirectives : (ofDirectives l).Numbered :=
  List.foldlRecOn l apply rfl fun _ numbered _ _ => numbered.apply

/-- The automaton of a text is the one that its lines describe. -/
theorem read_eq_ok {text : List Char} :
    read text = .ok A ↔ ∃ l, Holds Directive.read text l ∧ A = ofDirectives l := by
  rw [read, map_eq_ok]
  refine ⟨fun h => ?_, fun h => ?_⟩
  · obtain ⟨items, isRead, rfl⟩ := h
    exact ⟨_, exists_readLines_iff.mp ⟨items, isRead, rfl⟩, rfl⟩
  · obtain ⟨l, holds, rfl⟩ := h
    obtain ⟨items, isRead, rfl⟩ := exists_readLines_iff.mpr holds
    exact ⟨items, isRead, rfl⟩

theorem faultsIn_read (text : List Char) :
    faultsIn (read text) = faultsOf Directive.read text := by
  rw [read, faultsIn_map, faultsIn_readLines]

theorem ascending_of_read {text : List Char} (isRead : read text = .ok A) : A.Ascending := by
  obtain ⟨l, _, rfl⟩ := read_eq_ok.mp isRead
  exact ascending_ofDirectives

end Automaton

end RightLinear
