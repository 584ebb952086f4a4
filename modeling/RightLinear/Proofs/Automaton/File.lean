import Mathlib.Data.Bool.AllAny
import Mathlib.Data.List.Nodup
import RightLinear.Proofs.Automaton.Printer

/-!
# What an automaton file holds

An automaton that was read is in better order than one that was put together: its
ids are bounded and ascend, its transitions are numbered, join states that there are
and carry symbols that a line can hold. That is what it takes to write it and read
it again without losing anything but the fractions of its positions. The reader
declares the states in the order in which they were written, so that no later line
adds one, and every transition comes back under the number it had.

* `Directive.Wording`, `Directive.wording_of_ofWords`: the words of a line that was read.
* `Directive.Legible`, `Directive.legible_of_read`: what is known of a line that was
  read.
* `Automaton.FromFile`, `Automaton.fromFile_of_read`: what is known of an automaton
  that was read.
* `Automaton.read_render_of_read`: such an automaton, written and read again.
-/

namespace RightLinear

/-! ## The characters of a word -/

theorem Text.mem_of_mem_words {text word : List Char} {c : Char} (listed : word ∈ words text)
    (mem : c ∈ word) : c ∈ text ∧ isBlank c = false := by
  have later : ∀ {d : Char} {rest : List Char}, c ∈ rest ∧ isBlank c = false →
      c ∈ d :: rest ∧ isBlank c = false := And.imp_left (List.mem_cons_of_mem _)
  have first : ∀ {d : Char} {rest : List Char}, ¬ isBlank d = true → c = d →
      c ∈ d :: rest ∧ isBlank c = false := by
    rintro d rest shown rfl
    exact ⟨List.mem_cons_self, by simpa using shown⟩
  fun_induction words text generalizing word with
  | case1 => cases listed
  | case2 d rest _ ih => exact later (ih listed mem)
  | case3 d rest shown _ ih =>
    rcases List.mem_cons.mp listed with rfl | other
    · exact first shown (List.mem_singleton.mp mem)
    · exact later (ih other mem)
  | case4 d rest shown _ none ih =>
    obtain rfl := List.mem_singleton.mp listed
    exact first shown (List.mem_singleton.mp mem)
  | case5 d rest shown _ begun others some ih =>
    rw [some] at ih
    rcases List.mem_cons.mp listed with rfl | other
    · rcases List.mem_cons.mp mem with same | inBegun
      · exact first shown same
      · exact later (ih List.mem_cons_self inBegun)
    · exact later (ih (List.mem_cons_of_mem begun other) mem)

namespace Directive

variable {line : List Char} {words : List (List Char)} {d : Directive}

/-- Besides commas, which are lost, the signs are all that is not from the text. -/
theorem mem_spaceOut {text : List Char} {c : Char} (mem : c ∈ spaceOut text) :
    c ∈ text ∧ c ≠ ',' ∨ c ∈ [' ', '-', '>', ':'] := by
  have grow : ∀ {rest : List Char} {e : Char}, c ∈ rest ∧ c ≠ ',' ∨ c ∈ [' ', '-', '>', ':'] →
      c ∈ e :: rest ∧ c ≠ ',' ∨ c ∈ [' ', '-', '>', ':'] :=
    Or.imp_left (And.imp_left (List.mem_cons_of_mem _))
  have signs : ∀ e ∈ " -> ".toList ++ " : ".toList, e ∈ [' ', '-', '>', ':'] :=
    List.all_iff_forall_prop.mp (by decide)
  fun_induction spaceOut text with
  | case1 => cases mem
  | case2 rest ih =>
    rcases List.mem_append.mp mem with sign | later
    · exact Or.inr (signs c (List.mem_append_left _ sign))
    · exact grow (grow (ih later))
  | case3 rest _ ih =>
    rcases List.mem_append.mp mem with sign | later
    · exact Or.inr (signs c (List.mem_append_right _ sign))
    · exact grow (ih later)
  | case4 rest _ _ ih =>
    rcases List.mem_cons.mp mem with rfl | later
    · exact Or.inr List.mem_cons_self
    · exact grow (ih later)
  | case5 d rest _ _ notComma ih =>
    rcases List.mem_cons.mp mem with rfl | later
    · exact Or.inl ⟨List.mem_cons_self, notComma⟩
    · exact grow (ih later)

/-- The characters of a line's words are such as a symbol may be. -/
theorem legible_of_mem_words {word : List Char} {c : Char}
    (listed : word ∈ Text.words (spaceOut (Text.stripComment line))) (mem : c ∈ word) :
    RightLinear.Legible c := by
  obtain ⟨inText, shown⟩ := Text.mem_of_mem_words listed mem
  rcases mem_spaceOut inText with ⟨inLine, notComma⟩ | sign
  · exact ⟨shown, notComma, Text.ne_semicolon_of_mem_stripComment inLine⟩
  · have unlike : ∀ e ∈ [' ', '-', '>', ':'], e ≠ ',' ∧ e ≠ ';' :=
      List.all_iff_forall_prop.mp (by decide)
    exact ⟨shown, unlike c sign⟩

/-! ## What a line says -/

/-- A line whose ids can be read again, and so can its symbols, of which there is one
at least. -/
inductive Legible : Directive → Prop
  | state {id : Nat} {position : Option Position} : id < idBound → Legible (.state id position)
  | initial {id : Nat} : id < idBound → Legible (.initial id)
  | final {ids : List Nat} : (∀ id ∈ ids, id < idBound) → Legible (.final ids)
  | transition {source target : Nat} {symbols : List Char} :
    source < idBound → target < idBound → symbols ≠ [] →
    (∀ c ∈ symbols, RightLinear.Legible c) → Legible (.transition source target symbols)

theorem Legible.mentions (legible : d.Legible) : ∀ id ∈ d.mentions, id < idBound := by
  intro id mem
  cases legible with
  | state bounded => exact List.mem_singleton.mp mem ▸ bounded
  | initial bounded => exact List.mem_singleton.mp mem ▸ bounded
  | final bounded => exact bounded id mem
  | transition boundedSource boundedTarget _ _ =>
    rcases List.mem_pair.mp mem with rfl | rfl
    · exact boundedSource
    · exact boundedTarget

theorem lt_idBound_of_readId {word : List Char} {id : Nat} (isRead : readId word = .ok id) :
    id < idBound := by
  rw [readId] at isRead
  cases found : Numeral.read? idBound word with
  | none =>
    rw [found] at isRead
    cases isRead
  | some value =>
    rw [found] at isRead
    cases isRead
    exact Numeral.lt_of_read? found

theorem lt_idBound_of_readIds {ids : List Nat} (isRead : readIds words = .ok ids) :
    ∀ id ∈ ids, id < idBound := by
  induction words generalizing ids with
  | nil =>
    cases isRead
    exact fun _ none => absurd none List.not_mem_nil
  | cons word words ih =>
    obtain ⟨first, firstRead, isRead⟩ := bind_eq_ok.mp isRead
    obtain ⟨rest, restRead, isRead⟩ := bind_eq_ok.mp isRead
    cases isRead
    exact List.forall_mem_cons.mpr ⟨lt_idBound_of_readId firstRead, ih restRead⟩

/-- A symbol that is read is a word of its own. -/
theorem mem_of_readSymbols {symbols : List Char} (isRead : readSymbols words = .ok symbols) :
    ∀ c ∈ symbols, [c] ∈ words := by
  fun_induction readSymbols words generalizing symbols with
  | case1 =>
    cases isRead
    exact fun _ none => absurd none List.not_mem_nil
  | case2 c words ih =>
    obtain ⟨rest, restRead, rfl⟩ := map_eq_ok.mp isRead
    intro d mem
    rcases List.mem_cons.mp mem with rfl | later
    · exact List.mem_cons_self
    · exact List.mem_cons_of_mem _ (ih restRead d later)
  | case3 => cases isRead

/-- The words of a line that is read, and what the line says. -/
inductive Wording : List (List Char) → Directive → Prop
  | state {word : List Char} {rest : List (List Char)} {id : Nat} {position : Option Position} :
    readId word = .ok id → Wording ("state".toList :: word :: rest) (.state id position)
  | initial {word : List Char} {rest : List (List Char)} {id : Nat} :
    readId word = .ok id → Wording ("initial".toList :: word :: rest) (.initial id)
  | final {rest : List (List Char)} {ids : List Nat} :
    readIds rest = .ok ids → Wording ("final".toList :: rest) (.final ids)
  | transition {first word : List Char} {rest : List (List Char)} {source target : Nat}
    {symbols : List Char} :
    readId first = .ok source → readId word = .ok target → readSymbols rest = .ok symbols →
    symbols ≠ [] →
    Wording (first :: ['-', '>'] :: word :: [':'] :: rest) (.transition source target symbols)

/-- What is read after the word for a state is worded as a directive for a state is. -/
theorem wording_of_readState (isRead : readState words = .ok d) :
    Wording ("state".toList :: words) d := by
  rw [readState.eq_def] at isRead
  split at isRead
  · cases isRead
  · obtain ⟨id, idRead, rfl⟩ := map_eq_ok.mp isRead
    exact .state idRead
  · obtain ⟨_, _, isRead⟩ := bind_eq_ok.mp isRead
    cases isRead
  · obtain ⟨id, idRead, isRead⟩ := bind_eq_ok.mp isRead
    obtain ⟨x, _, isRead⟩ := bind_eq_ok.mp isRead
    obtain ⟨y, _, isRead⟩ := bind_eq_ok.mp isRead
    cases isRead
    exact .state idRead

theorem wording_of_readInitial (isRead : readInitial words = .ok d) :
    Wording ("initial".toList :: words) d := by
  rw [readInitial.eq_def] at isRead
  split at isRead
  · cases isRead
  · obtain ⟨id, idRead, rfl⟩ := map_eq_ok.mp isRead
    exact .initial idRead

theorem wording_of_readFinal (isRead : readFinal words = .ok d) :
    Wording ("final".toList :: words) d := by
  rw [readFinal.eq_def] at isRead
  split at isRead
  · cases isRead
  · obtain ⟨ids, idsRead, rfl⟩ := map_eq_ok.mp isRead
    exact .final idsRead

/-- What is read as a transition is worded as one. -/
theorem wording_of_readTransition {first : List Char}
    (isRead : readTransition first words = .ok d) : Wording (first :: words) d := by
  obtain ⟨source, sourceRead, isRead⟩ := bind_eq_ok.mp isRead
  split at isRead
  · split at isRead
    · cases isRead
    · obtain ⟨target, targetRead, isRead⟩ := bind_eq_ok.mp isRead
      split at isRead
      · obtain ⟨symbols, symbolsRead, isRead⟩ := bind_eq_ok.mp isRead
        split at isRead
        · cases isRead
        · next nonempty =>
          cases isRead
          exact .transition sourceRead targetRead symbolsRead nonempty
      · cases isRead
  · cases isRead

/-- There are four ways to word a line. -/
theorem wording_of_ofWords (isRead : ofWords words = .ok d) : Wording words d := by
  cases words with
  | nil => cases isRead
  | cons word rest =>
    rw [ofWords] at isRead
    split at isRead
    · next keyword =>
      rw [keyword]
      exact wording_of_readState isRead
    · split at isRead
      · next keyword =>
        rw [keyword]
        exact wording_of_readInitial isRead
      · split at isRead
        · next keyword =>
          rw [keyword]
          exact wording_of_readFinal isRead
        · split at isRead
          · exact wording_of_readTransition isRead
          · cases isRead

/-- What is said by a line can be written again. -/
theorem legible_of_read (isRead : read line = .ok d) : d.Legible := by
  have legible : ∀ word ∈ Text.words (spaceOut (Text.stripComment line)), ∀ c ∈ word,
      RightLinear.Legible c := fun word listed c => legible_of_mem_words listed
  have wording := wording_of_ofWords isRead
  generalize Text.words (spaceOut (Text.stripComment line)) = words at legible wording
  cases wording with
  | state idRead => exact .state (lt_idBound_of_readId idRead)
  | initial idRead => exact .initial (lt_idBound_of_readId idRead)
  | final idsRead => exact .final (lt_idBound_of_readIds idsRead)
  | transition sourceRead targetRead symbolsRead nonempty =>
    refine .transition (lt_idBound_of_readId sourceRead) (lt_idBound_of_readId targetRead)
      nonempty fun c mem => ?_
    have listed := mem_of_readSymbols symbolsRead c mem
    refine legible [c] ?_ c List.mem_cons_self
    simp [listed]

end Directive

namespace Automaton

variable {A B : Automaton} {id : Nat} {d : Directive}

/-- What is known of an automaton that was read from a text. -/
structure FromFile (A : Automaton) : Prop where
  legible : A.Legible
  ascending : A.Ascending
  numbered : A.Numbered
  /-- Transitions join states that there are. -/
  declared : ∀ t ∈ A.transitions, A.Declares t.source ∧ A.Declares t.target
  /-- One state at most is initial. -/
  starts : ∃ start?, A.StartsAt start?

/-- Every transition is there because of a directive with its symbols. -/
theorem exists_directive_of_mem_transitions {l : List Directive} {t : Transition}
    (mem : t ∈ (ofDirectives l).transitions) :
    ∃ symbols, .transition t.source t.target symbols ∈ l ∧ t.symbols = .ofList symbols := by
  have linked : (t.source, t.target, t.symbols) ∈ (ofDirectives l).links :=
    List.mem_map_of_mem mem
  rw [links_ofDirectives] at linked
  obtain ⟨d, inLines, adds⟩ := List.mem_filterMap.mp linked
  cases d with
  | transition source target symbols =>
    simp only [Directive.link?, Option.some.injEq, Prod.mk.injEq] at adds
    obtain ⟨rfl, rfl, same⟩ := adds
    exact ⟨symbols, inLines, same.symm⟩
  | state _ _ => cases adds
  | initial _ => cases adds
  | final _ => cases adds

/-- Every line keeps its share of this: an automaton that was read is in order. -/
theorem fromFile_of_read {text : List Char} (isRead : read text = .ok A) : A.FromFile := by
  obtain ⟨l, holds, rfl⟩ := read_eq_ok.mp isRead
  have legible : ∀ d ∈ l, d.Legible := by
    intro d mem
    obtain ⟨line, _, isRead⟩ := holds.exists_line mem
    exact Directive.legible_of_read isRead
  refine ⟨⟨fun s mem => ?_, fun t mem => ?_⟩, ascending_ofDirectives, numbered_ofDirectives,
    fun t mem => ?_, _, startsAt_ofDirectives⟩
  · obtain ⟨d, inLines, mentioned⟩ := declares_ofDirectives.mp ⟨s, mem, rfl⟩
    exact (legible d inLines).mentions s.id mentioned
  · obtain ⟨symbols, inLines, same⟩ := exists_directive_of_mem_transitions mem
    cases legible _ inLines with
    | transition source target nonempty symbol =>
      obtain ⟨c, inSymbols⟩ := List.exists_mem_of_ne_nil symbols nonempty
      refine ⟨source, target, ?_, fun e memE => symbol e ?_⟩
      · rw [same]
        exact List.ne_nil_of_mem (OrderedSet.mem_ofList.mpr inSymbols)
      · rw [same, OrderedSet.mem_ofList] at memE
        exact memE
  · obtain ⟨symbols, inLines, _⟩ := exists_directive_of_mem_transitions mem
    exact ⟨declares_ofDirectives.mpr ⟨_, inLines, List.mem_pair.mpr (Or.inl rfl)⟩,
      declares_ofDirectives.mpr ⟨_, inLines, List.mem_pair.mpr (Or.inr rfl)⟩⟩

/-! ## Flags -/

/-- The ids of all states, each with whether the state is initial and whether it is
final. -/
def flags (A : Automaton) : List (Nat × Bool × Bool) :=
  A.states.map fun s => (s.id, s.isInitial, s.isFinal)

theorem mem_map_flag {l : List State} (flag : State → Bool) {s : State}
    (distinct : (l.map State.id).Nodup) (mem : s ∈ l) :
    (s.id, true) ∈ (l.map fun s => (s.id, flag s)) ↔ flag s = true := by
  refine ⟨fun h => ?_, fun h => List.mem_map.mpr ⟨s, mem, by rw [h]⟩⟩
  obtain ⟨t, inList, same⟩ := List.mem_map.mp h
  obtain ⟨sameId, flagged⟩ := Prod.mk.inj same
  rw [← List.inj_on_of_nodup_map distinct inList mem sameId]
  exact flagged

/-- States with different ids are listed with what holds of their ids. -/
theorem flags_eq_map (distinct : (A.states.map State.id).Nodup) :
    A.flags = (A.states.map State.id).map fun q => (q, decide ((q, true) ∈ A.initialFlags),
      decide ((q, true) ∈ A.states.map fun s => (s.id, s.isFinal))) := by
  rw [flags, List.map_map]
  refine List.map_congr_left fun s mem => ?_
  have initial := mem_map_flag State.isInitial distinct mem
  have final := mem_map_flag State.isFinal distinct mem
  simp only [Function.comp_apply, initialFlags, initial, final, Bool.decide_eq_true]

/-- Flags are determined by ids, initial states and final states. -/
theorem flags_eq_of_ids (distinct : (B.states.map State.id).Nodup)
    (ids : A.states.map State.id = B.states.map State.id)
    (initial : ∀ q, (q, true) ∈ A.initialFlags ↔ (q, true) ∈ B.initialFlags)
    (final : ∀ q, A.IsFinal q ↔ B.IsFinal q) : A.flags = B.flags := by
  have distinctA : (A.states.map State.id).Nodup := by rwa [ids]
  rw [flags_eq_map distinct, flags_eq_map distinctA, ids]
  refine List.map_congr_left fun q _ => ?_
  have sameFinal : (q, true) ∈ (A.states.map fun s => (s.id, s.isFinal)) ↔
      (q, true) ∈ B.states.map fun s => (s.id, s.isFinal) := by
    rw [← isFinal_iff_mem_map, ← isFinal_iff_mem_map]
    exact final q
  simp only [initial, sameFinal]

theorem StartsAt.mem_initialFlags_iff {start? : Option Nat} (starts : A.StartsAt start?)
    (q : Nat) : (q, true) ∈ A.initialFlags ↔ A.IsStart q := by
  rw [starts, starts.isStart_iff]

/-! ## Positions -/

/-- The ids of all states, each with the state's position. -/
def placements (A : Automaton) : List (Nat × Position) := A.states.map fun s => (s.id, s.position)

theorem map_fst_placements : A.placements.map Prod.fst = A.states.map State.id := List.map_map

theorem map_snd_placements : A.placements.map Prod.snd = A.states.map State.position :=
  List.map_map

theorem ensureState_of_declares (declared : A.Declares id) : A.ensureState id = A := by
  rw [ensureState, if_pos (hasState_iff_declares.mpr declared)]

/-- A line about states that there are already moves none of them, unless it gives a
position. -/
theorem placements_apply (declared : ∀ id ∈ d.mentions, A.Declares id)
    (unplaced : ∀ id position, d ≠ .state id (some position)) :
    (A.apply d).placements = A.placements := by
  refine apply_induction (P := fun B => B.placements = A.placements) ?_ ?_ ?_ ?_ ?_ rfl
  · intro B id mem same
    have ids : B.states.map State.id = A.states.map State.id := by
      rw [← map_fst_placements, same, map_fst_placements]
    rw [ensureState_of_declares ((declares_congr ids).mpr (declared id mem))]
    exact same
  · exact fun _ id position placed => absurd placed (unplaced id position)
  · exact fun _ _ _ same => (map_states_setInitial fun _ _ => rfl).trans same
  · exact fun _ _ same => (map_states_setFinal fun _ => rfl).trans same
  · exact fun _ _ _ _ same => same

theorem sortStates_eq_self {l : List State} (ascending : (l.map State.id).Pairwise (· < ·)) :
    sortStates l = l :=
  List.mergeSort_of_pairwise
    ((List.pairwise_map.mp ascending).imp fun lt => decide_eq_true (Nat.le_of_lt lt))

theorem modifyFirst_append {change : State → State} {l rest : List State}
    (absent : ∀ s ∈ l, s.id ≠ id) :
    modifyFirst id change (l ++ rest) = l ++ modifyFirst id change rest := by
  induction l with
  | nil => rfl
  | cons s l ih =>
    obtain ⟨other, absent⟩ := List.forall_mem_cons.mp absent
    rw [List.cons_append, modifyFirst, if_neg other, ih absent, List.cons_append]

/-- A state with a greater id than all others is declared at the end. -/
theorem placements_apply_state {position : Position}
    (ascending : (A.states.map State.id ++ [id]).Pairwise (· < ·)) :
    (A.apply (.state id (some position))).placements = A.placements ++ [(id, position)] := by
  have below : ∀ s ∈ A.states, s.id < id := fun s mem =>
    (List.pairwise_append.mp ascending).2.2 s.id (List.mem_map_of_mem mem) id List.mem_cons_self
  have absent : ¬ A.hasState id = true := by
    rw [hasState_iff_declares]
    rintro ⟨s, mem, same⟩
    exact Nat.lt_irrefl id (same ▸ below s mem)
  have declared : (A.ensureState id).states = A.states ++ [State.plain id] := by
    rw [ensureState, if_neg absent]
    refine sortStates_eq_self ?_
    rw [List.map_append]
    exact ascending
  rw [apply, placements, setPosition, declared,
    modifyFirst_append fun s mem => Nat.ne_of_lt (below s mem), modifyFirst,
    if_pos (show (State.plain id).id = id from rfl), List.map_append]
  rfl

/-- Directives for new states in ascending order place one state after another. -/
theorem placements_foldl_state {l : List State} (place : State → Position)
    (ascending : (A.states.map State.id ++ l.map State.id).Pairwise (· < ·)) :
    ((l.map fun s => .state s.id (some (place s))).foldl apply A).placements =
      A.placements ++ l.map fun s => (s.id, place s) := by
  induction l generalizing A with
  | nil => exact (List.append_nil _).symm
  | cons s l ih =>
    rw [List.map_cons, ← List.singleton_append, ← List.append_assoc] at ascending
    have first : (A.apply (.state s.id (some (place s)))).placements =
        A.placements ++ [(s.id, place s)] :=
      placements_apply_state (List.pairwise_append.mp ascending).1
    have ids : (A.apply (.state s.id (some (place s)))).states.map State.id =
        A.states.map State.id ++ [s.id] := by
      rw [← map_fst_placements, first, List.map_append, map_fst_placements]
      rfl
    rw [List.map_cons, List.foldl_cons, ih (by rw [ids]; exact ascending), first,
      List.append_assoc]
    rfl

/-! ## Written and read again -/

section

variable (fromFile : A.FromFile)

include fromFile

theorem declares_of_mem_directives (mem : d ∈ A.directives) : ∀ id ∈ d.mentions, A.Declares id := by
  intro id mentioned
  rcases List.mem_append.mp mem with state | transition
  · rcases mem_stateDirectives.mp state with ⟨s, inStates, rfl⟩ | ⟨s, initial, rfl⟩ | ⟨_, rfl⟩
    · exact ⟨s, inStates, (List.mem_singleton.mp mentioned).symm⟩
    · obtain ⟨⟨t, inStates, _, same⟩, _⟩ := isStart_of_initialState? initial
      exact ⟨t, inStates, same.trans (List.mem_singleton.mp mentioned).symm⟩
    · obtain ⟨s, isFinal, same⟩ := List.mem_map.mp mentioned
      exact ⟨s, List.mem_of_mem_filter isFinal, same⟩
  · obtain ⟨t, listed, rfl⟩ := List.mem_map.mp transition
    obtain ⟨source, target⟩ := fromFile.declared t listed
    rcases List.mem_pair.mp mentioned with rfl | rfl
    · exact source
    · exact target

/-- The states are declared in their order, and no later line changes their places. -/
theorem placements_ofDirectives_directives :
    (ofDirectives A.directives).placements = A.states.map fun s => (s.id, s.position.reread) := by
  have placed : ((A.states.map fun s => .state s.id (some s.position.reread)).foldl apply
      ∅).placements = A.states.map fun s => (s.id, s.position.reread) :=
    placements_foldl_state (fun s => s.position.reread) fromFile.ascending
  have whole : ∀ d ∈ A.directives, ∀ id ∈ d.mentions, A.Declares id := fun d =>
    declares_of_mem_directives fromFile
  rw [directives, stateDirectives, List.append_assoc, List.append_assoc] at whole ⊢
  -- the states come first, and the lines after them mention no others
  rw [ofDirectives, List.foldl_append]
  refine List.foldlRecOn _ (motive := fun B : Automaton => B.placements =
    A.states.map fun s => (s.id, s.position.reread)) apply placed fun B same d mem => ?_
  have ids : B.states.map State.id = A.states.map State.id := by
    rw [← map_fst_placements, same, List.map_map]
    rfl
  refine (placements_apply (fun id mentioned => ?_) (fun id position placed => ?_)).trans same
  · exact (declares_congr ids).mpr (whole d (List.mem_append_right _ mem) id mentioned)
  · subst placed
    simp only [List.mem_append, List.mem_map] at mem
    rcases mem with ⟨_, _, absurd⟩ | final | ⟨_, _, absurd⟩
    · cases absurd
    · split at final
      · cases final
      · cases List.mem_singleton.mp final
    · cases absurd

end

/-- The directives of an automaton give its transitions back, in order and with new ids. -/
theorem links_ofDirectives_directives : (ofDirectives A.directives).links = A.links := by
  have unlinked : A.stateDirectives.filterMap Directive.link? = [] := by
    refine List.filterMap_eq_nil_iff.mpr fun d mem => ?_
    rcases mem_stateDirectives.mp mem with ⟨_, _, rfl⟩ | ⟨_, _, rfl⟩ | ⟨_, rfl⟩
    · rfl
    · rfl
    · rfl
  rw [links_ofDirectives, directives, List.filterMap_append, unlinked, List.nil_append,
    List.filterMap_map, links, ← List.filterMap_eq_map]
  refine List.filterMap_congr fun t _ => ?_
  have same : OrderedSet.ofList t.symbols.toList = t.symbols :=
    OrderedSet.ext fun _ => OrderedSet.mem_ofList
  rw [Function.comp_apply, Function.comp_apply, Directive.link?, same]

/-- An automaton in any order is written as a file that can be read, provided that its
symbols can stand in a line: states with one id become one, states are declared where they
are only mentioned, and of several initial states the lowest is kept. What is read is in
order, has the same transitions and accepts the same words. -/
theorem read_render_of_legible (legible : A.Legible) :
    ∃ B, read A.render = .ok B ∧ B.FromFile ∧ B.links = A.links ∧
      ∀ w, B.accepts w = A.accepts w := by
  have isRead := read_render legible
  exact ⟨_, isRead, fromFile_of_read isRead, links_ofDirectives_directives,
    (agrees_ofDirectives_directives A).accepts⟩

/-- A repeated id, two initial states, a state that is only mentioned, and symbols that are
signs of the file. -/
theorem read_render_of_legible_of_disorder :
    let A : Automaton := ⟨[⟨5, .origin, true, true⟩, ⟨2, .origin, true, false⟩,
        ⟨5, .origin, false, false⟩],
      [⟨7, 2, 9, .ofList [':', '>', '-']⟩, ⟨7, 9, 5, .ofList ['a']⟩, ⟨0, 2, 9, .ofList ['-']⟩]⟩
    A.Legible ∧ ∃ B, read A.render = .ok B ∧ B.FromFile ∧ B.links = A.links ∧
      B.accepts ['>', 'a'] = true ∧ B.accepts ['a'] = false := by
  intro A
  have legible : A.Legible := by
    have transitions : ∀ t ∈ A.transitions, t.source < Directive.idBound ∧
        t.target < Directive.idBound ∧ t.symbols.toList ≠ [] ∧
        t.symbols.toList.all (fun c => decide (RightLinear.Legible c)) := by decide
    refine ⟨by decide, fun t mem => ?_⟩
    obtain ⟨source, target, nonempty, symbol⟩ := transitions t mem
    exact ⟨source, target, nonempty, List.all_iff_forall_prop.mp symbol⟩
  obtain ⟨B, isRead, fromFile, links, accepts⟩ := read_render_of_legible legible
  exact ⟨legible, B, isRead, fromFile, links, (accepts _).trans (by decide),
    (accepts _).trans (by decide)⟩

/-- An automaton that was read is written as a file that can be read, and what is read is
the automaton itself: all that has changed are positions, which are rounded. -/
theorem read_render_of_read {text : List Char} (isRead : read text = .ok A) :
    ∃ B, read A.render = .ok B ∧ B.flags = A.flags ∧
      B.states.map State.position = A.states.map (fun s => s.position.reread) ∧
      B.transitions = A.transitions := by
  have fromFile := fromFile_of_read isRead
  have placed := placements_ofDirectives_directives fromFile
  have agrees := agrees_ofDirectives_directives A
  refine ⟨_, read_render fromFile.legible, ?_, ?_, ?_⟩
  · obtain ⟨start?, starts⟩ := fromFile.starts
    refine flags_eq_of_ids fromFile.ascending.nodup ?_ (fun q => ?_) agrees.isFinal
    · rw [← map_fst_placements, placed, List.map_map]
      rfl
    · rw [startsAt_ofDirectives.mem_initialFlags_iff, starts.mem_initialFlags_iff]
      exact agrees.isStart q
  · rw [← map_snd_placements, placed, List.map_map]
    rfl
  · exact transitions_eq_of_links_eq numbered_ofDirectives fromFile.numbered
      links_ofDirectives_directives

/-- Signs as symbols, states that are declared in no order and by being mentioned. -/
theorem read_render_of_read_of_signs :
    let A := ofDirectives [.final [2, 1], .transition 7 2 [':', '>', '-'], .initial 1,
      .initial 7]
    read "final 2 1\n7->2: : > -\ninitial 1\ninitial 7\n".toList = .ok A ∧
      ∃ B, read A.render = .ok B ∧
        B.flags = [(1, false, true), (2, false, true), (7, true, false)] ∧
        B.transitions = [⟨0, 7, 2, .ofList ['-', ':', '>']⟩] := by
  intro A
  have isRead : read "final 2 1\n7->2: : > -\ninitial 1\ninitial 7\n".toList = .ok A := rfl
  have flags : A.flags = [(1, false, true), (2, false, true), (7, true, false)] := by
    simp [A, flags, ofDirectives, EmptyCollection.emptyCollection, empty, apply, ensureState,
      hasState, state?, sortStates, List.mergeSort, State.plain, setFinal, setInitial, modifyFirst,
      addTransition]
  have transitions : A.transitions = [⟨0, 7, 2, .ofList ['-', ':', '>']⟩] := by
    have links : A.links = [(7, 2, .ofList ['-', ':', '>'])] := links_ofDirectives.trans (by decide)
    refine transitions_eq_of_links_eq numbered_ofDirectives ?_ links (B := ⟨[], [_]⟩)
    rfl
  obtain ⟨B, reread, sameFlags, _, sameTransitions⟩ := read_render_of_read isRead
  exact ⟨isRead, B, reread, sameFlags.trans flags, sameTransitions.trans transitions⟩

end Automaton

end RightLinear
