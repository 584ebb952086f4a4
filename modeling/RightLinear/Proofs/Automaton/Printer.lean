import RightLinear.Automaton.Printer
import RightLinear.Proofs.Automaton.Directive
import RightLinear.Proofs.Text.Line

/-!
# A written automaton is read back

The reader sets arrows and colons apart and takes commas for blanks wherever they
stand, so a line comes back as the words it was made of if none of them holds such
a character, unless the word is an arrow or a single character by itself. A written
automaton consists of such lines, provided that its symbols are neither blank nor
one of the characters that the reader removes. What is read is not the automaton
itself: states are declared in the order of their ids and positions are rounded.
It has the same moves, final states and initial state, though, and so accepts the
same words.

* `Directive.Standing`: the words that a line may be made of.
* `Automaton.Legible`: the automata whose text can be read.
* `Automaton.read_render`: what is read, line by line.
* `Automaton.agrees_ofDirectives_directives`: what is kept.
-/

namespace RightLinear

/-! ## Words with blanks between them -/

@[simp] theorem unwords_singleton (word : List Char) : unwords [word] = word :=
  List.intercalate_singleton

theorem unwords_cons_cons (word next : List Char) (rest : List (List Char)) :
    unwords (word :: next :: rest) = word ++ ' ' :: unwords (next :: rest) := by
  simp [unwords, List.intercalate_cons_cons]

theorem unwords_cons {word : List Char} {rest : List (List Char)} (more : rest ≠ []) :
    unwords (word :: rest) = word ++ ' ' :: unwords rest := by
  cases rest with
  | nil => exact absurd rfl more
  | cons next rest => exact unwords_cons_cons word next rest

theorem mem_unwords {words : List (List Char)} {c : Char} (mem : c ∈ unwords words) :
    c = ' ' ∨ ∃ word ∈ words, c ∈ word :=
  (mem_of_mem_intercalate mem).imp_left List.mem_singleton.mp

namespace Directive

/-! ## The words of a line -/

/-- A character that the reader of a line leaves as it is, whatever follows. -/
def Plain (c : Char) : Prop :=
  Text.isBlank c = false ∧ c ≠ ';' ∧ c ≠ ':' ∧ c ≠ ',' ∧ c ≠ '>'

theorem plain_of_isAlphanum {c : Char} (h : c.isAlphanum) : Plain c := by
  refine ⟨Text.not_isBlank_of_isAlphanum h, ?_, ?_, ?_, ?_⟩ <;>
  · rintro rfl
    revert h
    decide

/-- A word that is still one word after arrows, colons and commas are set apart. -/
inductive Standing : List Char → Prop
  | plain {word : List Char} : word ≠ [] → (∀ c ∈ word, Plain c) → Standing word
  | arrow : Standing ['-', '>']
  | symbol {c : Char} : Text.isBlank c = false → c ≠ ',' → c ≠ ';' → Standing [c]

theorem Standing.ne_nil {word : List Char} (stands : Standing word) : word ≠ [] := by
  cases stands with
  | plain nonempty _ => exact nonempty
  | arrow => exact List.cons_ne_nil _ _
  | symbol _ _ _ => exact List.cons_ne_nil _ _

theorem Standing.shown {word : List Char} (stands : Standing word) :
    ∀ c ∈ word, Text.isBlank c = false ∧ c ≠ ';' := by
  intro c mem
  cases stands with
  | plain _ plain => exact ⟨(plain c mem).1, (plain c mem).2.1⟩
  | arrow =>
    rcases List.mem_pair.mp mem with rfl | rfl
    · exact ⟨rfl, by decide⟩
    · exact ⟨rfl, by decide⟩
  | symbol shown _ uncommented =>
    rw [List.mem_singleton.mp mem]
    exact ⟨shown, uncommented⟩

theorem spaceOut_cons {c : Char} {rest : List Char} (notColon : c ≠ ':') (notComma : c ≠ ',')
    (noArrow : c = '-' → rest.head? ≠ some '>') : spaceOut (c :: rest) = c :: spaceOut rest := by
  rw [spaceOut, if_neg notColon, if_neg notComma]
  rintro after dash rfl
  exact noArrow dash rfl

/-- Plain characters are kept as they are, if a space follows or nothing. -/
theorem spaceOut_append {word rest : List Char} (plain : ∀ c ∈ word, Plain c)
    (gap : rest.head?.all (· = ' ') = true) :
    spaceOut (word ++ rest) = word ++ spaceOut rest := by
  induction word with
  | nil => rfl
  | cons c word ih =>
    obtain ⟨_, _, notColon, notComma, _⟩ := plain c List.mem_cons_self
    have plainRest : ∀ d ∈ word, Plain d := fun d mem => plain d (List.mem_cons_of_mem c mem)
    rw [List.cons_append, spaceOut_cons notColon notComma, ih plainRest, List.cons_append]
    intro _ atHead
    cases word with
    | nil =>
      rw [List.nil_append] at atHead
      rw [atHead] at gap
      revert gap
      decide
    | cons d word => exact (plainRest d List.mem_cons_self).2.2.2.2 (Option.some.inj atHead)

theorem gap_spaceOut {rest : List Char} (gap : rest.head?.all (· = ' ') = true) :
    (spaceOut rest).head?.all Text.isBlank = true := by
  cases rest with
  | nil => rfl
  | cons c rest =>
    obtain rfl : c = ' ' := by simpa using gap
    rw [spaceOut_cons (by decide) (by decide) fun dash => absurd dash (by decide)]
    rfl

/-- A standing word before a blank or the end is the first word that the reader
finds. -/
theorem Standing.words_spaceOut {word rest : List Char} (stands : Standing word)
    (gap : rest.head?.all (· = ' ') = true) :
    Text.words (spaceOut (word ++ rest)) = word :: Text.words (spaceOut rest) := by
  have gap' := gap_spaceOut gap
  -- the word set apart by blanks of its own
  have apart : Text.words (' ' :: (word ++ ' ' :: spaceOut rest)) =
      word :: Text.words (spaceOut rest) := by
    have shown : ∀ c ∈ word, Text.isBlank c = false := fun c mem => (stands.shown c mem).1
    rw [Text.words_blank rfl, Text.words_append stands.ne_nil shown rfl, Text.words_blank rfl]
  cases stands with
  | plain nonempty plain =>
    rw [spaceOut_append plain gap, Text.words_append nonempty (fun c mem => (plain c mem).1) gap']
  | arrow =>
    refine Eq.trans ?_ apart
    rw [List.cons_append, List.singleton_append, spaceOut]
    rfl
  | @symbol c shown notComma _ =>
    by_cases colon : c = ':'
    · subst colon
      refine Eq.trans ?_ apart
      rw [List.singleton_append, spaceOut, if_pos rfl]
      · rfl
      · exact fun _ dash => absurd dash (by decide)
    · rw [List.singleton_append, spaceOut_cons colon notComma]
      · refine Text.words_append (List.cons_ne_nil c []) (fun d mem => ?_) gap'
        rw [List.mem_singleton.mp mem]
        exact shown
      · intro _ atHead
        rw [atHead] at gap
        revert gap
        decide

/-- Words that stand alone are found again, one by one. -/
theorem words_spaceOut_unwords {words : List (List Char)} (stand : ∀ w ∈ words, Standing w) :
    Text.words (spaceOut (unwords words)) = words := by
  induction words with
  | nil => rfl
  | cons word rest ih =>
    have standsFirst := stand word List.mem_cons_self
    have onward := ih fun w mem => stand w (List.mem_cons_of_mem word mem)
    by_cases more : rest = []
    · subst more
      have alone := @Standing.words_spaceOut word [] standsFirst rfl
      rw [List.append_nil] at alone
      rw [unwords_singleton]
      exact alone
    · rw [unwords_cons more, standsFirst.words_spaceOut rfl,
        spaceOut_cons (by decide) (by decide) (fun dash => absurd dash (by decide)),
        Text.words_blank rfl, onward]

section

variable {words : List (List Char)} (stand : ∀ w ∈ words, Standing w)

include stand

/-- Standing words that are joined by single blanks stay on one line. -/
theorem oneLine_unwords : ∀ c ∈ unwords words, c ≠ '\n' ∧ c ≠ '\r' := by
  have shown : ∀ c ∈ unwords words, c = ' ' ∨ Text.isBlank c = false := by
    intro c mem
    refine (mem_unwords mem).imp_right fun found => ?_
    obtain ⟨word, inWords, mem⟩ := found
    exact ((stand word inWords).shown c mem).1
  intro c mem
  constructor <;>
  · rintro rfl
    rcases shown _ mem with absurd | absurd
    · revert absurd
      decide
    · revert absurd
      decide

theorem stripComment_unwords : Text.stripComment (unwords words) = unwords words := by
  refine Text.stripComment_eq_self fun c mem => ?_
  rcases mem_unwords mem with rfl | ⟨word, inWords, mem⟩
  · decide
  · exact ((stand word inWords).shown c mem).2

/-- A line of such words is no blank line and no comment. -/
theorem isRuleLine_unwords (nonempty : words ≠ []) : Text.isRuleLine (unwords words) = true := by
  cases words with
  | nil => exact absurd rfl nonempty
  | cons word rest =>
    have standsFirst := stand word List.mem_cons_self
    obtain ⟨c, inWord⟩ := List.exists_mem_of_ne_nil word standsFirst.ne_nil
    refine Text.isRuleLine_of_mem (c := c) ?_ (standsFirst.shown c inWord).1
    rw [stripComment_unwords stand]
    by_cases more : rest = []
    · subst more
      rw [unwords_singleton]
      exact inWord
    · rw [unwords_cons more]
      exact List.mem_append_left _ inWord

/-- A line of standing words says what its words say. -/
theorem read_unwords : read (unwords words) = ofWords words := by
  rw [read, stripComment_unwords stand, words_spaceOut_unwords stand]

end

/-! ## Numerals and coordinates -/

theorem standing_of_isAlphanum {word : List Char} (nonempty : word ≠ [])
    (alphanumeric : word.all Char.isAlphanum) : Standing word :=
  .plain nonempty fun c mem => plain_of_isAlphanum (List.all_eq_true.mp alphanumeric c mem)

theorem standing_numeral (n : Nat) : Standing (Numeral.render n) := by
  refine standing_of_isAlphanum (Numeral.render_ne_nil n) (List.all_eq_true.mpr fun c mem => ?_)
  exact Text.isAlphanum_of_isDigit (Numeral.isDigit_of_mem_render mem)

/-- A number is printed as one word, whichever it is. -/
theorem standing_coordinate (x : Float) : Standing (Coordinate.render x) := by
  have numeral : ∀ {n : Nat} {c : Char}, c ∈ Numeral.render n → Plain c := by
    intro n c mem
    exact plain_of_isAlphanum (Text.isAlphanum_of_isDigit (Numeral.isDigit_of_mem_render mem))
  rw [Coordinate.render]
  dsimp only
  split
  · exact standing_of_isAlphanum (by decide) (by decide)
  · refine .plain ?_ fun c mem => ?_
    · refine List.append_ne_nil_of_right_ne_nil _ ?_
      split
      · decide
      · exact Numeral.render_ne_nil _
    · rcases List.mem_append.mp mem with sign | digits
      · split at sign
        · rw [List.mem_singleton.mp sign]
          exact ⟨rfl, by decide, by decide, by decide, by decide⟩
        · cases sign
      · split at digits
        · have letters : "inf".toList.all Char.isAlphanum = true := by decide
          exact plain_of_isAlphanum (List.all_eq_true.mp letters c digits)
        · exact numeral digits

theorem readId_render {id : Nat} (bounded : id < idBound) :
    readId (Numeral.render id) = .ok id := by
  rw [readId, Numeral.read_render bounded]
  rfl

theorem readIds_render {ids : List Nat} (bounded : ∀ id ∈ ids, id < idBound) :
    readIds (ids.map Numeral.render) = .ok ids := by
  induction ids with
  | nil => rfl
  | cons id ids ih =>
    rw [List.map_cons, readIds, readId_render (bounded id List.mem_cons_self),
      ih fun other mem => bounded other (List.mem_cons_of_mem _ mem)]
    rfl

theorem readSymbols_singletons (symbols : List Char) :
    readSymbols (symbols.map fun c => [c]) = .ok symbols := by
  induction symbols with
  | nil => rfl
  | cons c symbols ih =>
    rw [List.map_cons, readSymbols, ih]
    rfl

end Directive

/-- The coordinate that is read where one is written. -/
def Coordinate.reread (x : Float) : Float := (Coordinate.read? (Coordinate.render x)).getD 0.0

theorem Coordinate.read_render (x : Float) :
    Coordinate.read? (Coordinate.render x) = some (Coordinate.reread x) := by
  obtain ⟨y, isRead⟩ := Option.isSome_iff_exists.mp (Coordinate.isSome_read_render x)
  rw [Coordinate.reread, isRead]
  rfl

/-- The position that is read where one is written. -/
def Position.reread (position : Position) : Position :=
  ⟨Coordinate.reread position.x, Coordinate.reread position.y⟩

/-! ## The lines of an automaton -/

/-- A character that stands for itself in the line of a transition. -/
def Legible (c : Char) : Prop := Text.isBlank c = false ∧ c ≠ ',' ∧ c ≠ ';'

instance decidableLegible (c : Char) : Decidable (Legible c) :=
  inferInstanceAs (Decidable (Text.isBlank c = false ∧ c ≠ ',' ∧ c ≠ ';'))

theorem legible_of_isAlphanum {c : Char} (alphanumeric : c.isAlphanum) : Legible c := by
  obtain ⟨shown, uncommented, _, notComma, _⟩ := Directive.plain_of_isAlphanum alphanumeric
  exact ⟨shown, notComma, uncommented⟩

/-- A transition whose line says all about it. -/
structure Transition.Legible (t : Transition) : Prop where
  source : t.source < Directive.idBound
  target : t.target < Directive.idBound
  nonempty : t.symbols.toList ≠ []
  symbol : ∀ c ∈ t.symbols, RightLinear.Legible c

namespace Directive

variable {line : List Char} {words : List (List Char)} {d : Directive}

theorem tells_unwords (stand : ∀ w ∈ words, Standing w) (nonempty : words ≠ [])
    (reads : ofWords words = .ok d) : Tells read (unwords words) d where
  reads := (read_unwords stand).trans reads
  shown := isRuleLine_unwords stand nonempty
  oneLine := oneLine_unwords stand

theorem standing_keyword : Standing "state".toList ∧ Standing "initial".toList ∧
    Standing "final".toList := by
  refine ⟨?_, ?_, ?_⟩ <;> exact standing_of_isAlphanum (by decide) (by decide)

/-- The line of a state is read as its directive, with the position as it is read again. -/
theorem tells_state {s : State} (bounded : s.id < idBound) :
    Tells read s.render (.state s.id (some s.position.reread)) := by
  refine tells_unwords (fun w mem => ?_) (List.cons_ne_nil _ _) ?_
  · simp only [List.mem_cons, List.not_mem_nil, or_false] at mem
    rcases mem with rfl | rfl | rfl | rfl
    · exact standing_keyword.1
    · exact standing_numeral _
    · exact standing_coordinate _
    · exact standing_coordinate _
  · rw [ofWords, if_pos rfl, readState, readId_render bounded, readCoordinate, readCoordinate,
      Coordinate.read_render, Coordinate.read_render]
    rfl

/-- The line of the initial state is read as its directive. -/
theorem tells_initial {id : Nat} (bounded : id < idBound) :
    Tells read ("initial ".toList ++ Numeral.render id) (.initial id) := by
  have asWords : "initial ".toList ++ Numeral.render id =
      unwords ["initial".toList, Numeral.render id] := by
    rw [unwords_cons_cons, unwords_singleton]
    rfl
  rw [asWords]
  refine tells_unwords (fun w mem => ?_) (List.cons_ne_nil _ _) ?_
  · simp only [List.mem_cons, List.not_mem_nil, or_false] at mem
    rcases mem with rfl | rfl
    · exact standing_keyword.2.1
    · exact standing_numeral _
  · rw [ofWords, if_neg (by decide), if_pos rfl, readInitial, readId_render bounded]
    rfl

/-- The line of the final states is read as their directive. -/
theorem tells_final {ids : List Nat} (nonempty : ids ≠ []) (bounded : ∀ id ∈ ids, id < idBound) :
    Tells read ("final ".toList ++ unwords (ids.map Numeral.render)) (.final ids) := by
  have someNumerals : ids.map Numeral.render ≠ [] := by simpa using nonempty
  have asWords : "final ".toList ++ unwords (ids.map Numeral.render) =
      unwords ("final".toList :: ids.map Numeral.render) := by
    rw [unwords_cons someNumerals]
    rfl
  rw [asWords]
  refine tells_unwords (fun w mem => ?_) (List.cons_ne_nil _ _) ?_
  · rcases List.mem_cons.mp mem with rfl | numeral
    · exact standing_keyword.2.2
    · obtain ⟨id, _, rfl⟩ := List.mem_map.mp numeral
      exact standing_numeral id
  · rw [ofWords, if_neg (by decide), if_neg (by decide), if_pos rfl, readFinal,
      readIds_render bounded]
    · rfl
    · exact fun absurd => someNumerals absurd

theorem all_isDigit_numeral (n : Nat) : (Numeral.render n).all Char.isDigit = true :=
  List.all_eq_true.mpr fun _ mem => Numeral.isDigit_of_mem_render mem

/-- A numeral is none of the words that begin other lines. -/
theorem numeral_ne {n : Nat} {word : List Char} (letters : word.all Char.isDigit = false) :
    Numeral.render n ≠ word := by
  rintro rfl
  rw [all_isDigit_numeral] at letters
  cases letters

/-- The line of a transition is read as its directive if each symbol stands alone. -/
theorem tells_transition {t : Transition} (legible : t.Legible) :
    Tells read t.render (.transition t.source t.target t.symbols.toList) := by
  have someSymbols : (t.symbols.toList.map fun c => [c]) ≠ [] := by
    simpa using legible.nonempty
  have asWords : t.render = unwords (Numeral.render t.source :: ['-', '>'] ::
      Numeral.render t.target :: [':'] :: t.symbols.toList.map fun c => [c]) := by
    rw [unwords_cons_cons, unwords_cons_cons, unwords_cons_cons, unwords_cons someSymbols,
      Transition.render]
    simp only [List.append_assoc]
    rfl
  rw [asWords]
  refine tells_unwords (fun w mem => ?_) (List.cons_ne_nil _ _) ?_
  · simp only [List.mem_cons, List.mem_map] at mem
    rcases mem with rfl | rfl | rfl | rfl | ⟨c, inSymbols, rfl⟩
    · exact standing_numeral _
    · exact .arrow
    · exact standing_numeral _
    · exact .symbol rfl (by decide) (by decide)
    · obtain ⟨shown, notComma, uncommented⟩ := legible.symbol c inSymbols
      exact .symbol shown notComma uncommented
  · obtain ⟨c, symbols, listed⟩ := List.exists_cons_of_ne_nil legible.nonempty
    rw [ofWords, if_neg (numeral_ne (by decide)), if_neg (numeral_ne (by decide)),
      if_neg (numeral_ne (by decide)), if_pos (all_isDigit_numeral _)]
    simp only [readTransition, bind, Except.bind, readId_render legible.source,
      readId_render legible.target, readSymbols_singletons, listed]
    rfl

end Directive

namespace Automaton

variable {A B : Automaton}

/-- An automaton whose lines can all be read. -/
structure Legible (A : Automaton) : Prop where
  state : ∀ s ∈ A.states, s.id < Directive.idBound
  transition : ∀ t ∈ A.transitions, t.Legible

/-- What the lines of an automaton's states say. -/
def stateDirectives (A : Automaton) : List Directive :=
  (A.states.map fun s => .state s.id (some s.position.reread)) ++
    (A.initialState?.toList.map fun s => .initial s.id) ++
    if A.finalStates = [] then [] else [.final (A.finalStates.map State.id)]

/-- What the lines of an automaton say. -/
def directives (A : Automaton) : List Directive :=
  A.stateDirectives ++ A.transitions.map fun t => .transition t.source t.target t.symbols.toList

section

variable {α : Type} {l : List α} {line : α → List Char} {said : α → Directive}

theorem tells_map (tells : ∀ a ∈ l, Tells Directive.read (line a) (said a)) :
    List.Forall₂ (Tells Directive.read) (l.map line) (l.map said) := by
  rw [List.forall₂_map_left_iff, List.forall₂_map_right_iff, List.forall₂_same]
  exact tells

end

/-- The lines of the states tell what they should if all ids can be read. -/
theorem tells_renderLines {moves : List Directive}
    (bounded : ∀ s ∈ A.states, s.id < Directive.idBound)
    (tells : List.Forall₂ (Tells Directive.read) (A.transitions.map Transition.render) moves) :
    List.Forall₂ (Tells Directive.read) A.renderLines (A.stateDirectives ++ moves) := by
  have startBounded : ∀ s ∈ A.initialState?.toList, s.id < Directive.idBound := by
    intro s mem
    obtain ⟨⟨t, inStates, _, same⟩, _⟩ := isStart_of_initialState? (Option.mem_toList.mp mem)
    rw [← same]
    exact bounded t inStates
  refine List.rel_append (List.rel_append (List.rel_append ?_ ?_) ?_) tells
  · exact tells_map fun s mem => Directive.tells_state (bounded s mem)
  · exact tells_map fun s mem => Directive.tells_initial (startBounded s mem)
  · split
    · exact .nil
    · next some =>
      have finalBounded : ∀ id ∈ A.finalStates.map State.id, id < Directive.idBound := by
        intro id mem
        obtain ⟨s, isFinal, rfl⟩ := List.mem_map.mp mem
        exact bounded s (List.mem_of_mem_filter isFinal)
      have tellsFinal := Directive.tells_final (by simpa using some) finalBounded
      rw [List.map_map] at tellsFinal
      exact .cons tellsFinal .nil

/-- A written automaton is read as the automaton that its lines describe. -/
theorem read_render (legible : A.Legible) : read A.render = .ok (ofDirectives A.directives) := by
  have moves := tells_map fun t mem => Directive.tells_transition (legible.transition t mem)
  exact read_eq_ok.mpr ⟨_, holds_flatMap (tells_renderLines legible.state moves), rfl⟩

/-! ## What is kept -/

theorem mem_stateDirectives {d : Directive} : d ∈ A.stateDirectives ↔
    (∃ s ∈ A.states, d = .state s.id (some s.position.reread)) ∨
    (∃ s, A.initialState? = some s ∧ d = .initial s.id) ∨
    A.finalStates ≠ [] ∧ d = .final (A.finalStates.map State.id) := by
  rw [stateDirectives, List.mem_append, List.mem_append, or_assoc]
  refine or_congr ?_ (or_congr ?_ ?_)
  · simp only [List.mem_map, eq_comm]
  · simp only [List.mem_map, Option.mem_toList, eq_comm]
  · split
    · next none => simp [none]
    · next some => simp [some]

theorem still_of_mem_stateDirectives {d : Directive} (mem : d ∈ A.stateDirectives) {p q : Nat}
    {c : Char} : ¬ d.Moves p c q := by
  rcases mem_stateDirectives.mp mem with ⟨_, _, rfl⟩ | ⟨_, _, rfl⟩ | ⟨_, rfl⟩
  · exact id
  · exact id
  · exact id

/-- Among the directives of an automaton one states the initial state, if there is any. -/
theorem filterMap_start?_directives :
    A.directives.filterMap Directive.start? = A.initialState?.toList.map State.id := by
  have unnamed : ∀ {l : List Directive}, (∀ d ∈ l, d.start? = none) →
      l.filterMap Directive.start? = [] := List.filterMap_eq_nil_iff.mpr
  have mapped : ∀ {α : Type} {l : List α} {said : α → Directive},
      (∀ a, (said a).start? = none) → (l.map said).filterMap Directive.start? = [] := by
    intro α l said none
    exact unnamed (List.forall_mem_map.mpr fun a _ => none a)
  have initial : (A.initialState?.toList.map fun s => Directive.initial s.id).filterMap
      Directive.start? = A.initialState?.toList.map State.id := by
    rw [List.filterMap_map, ← List.filterMap_eq_map]
    rfl
  rw [directives, stateDirectives, List.filterMap_append, List.filterMap_append,
    List.filterMap_append, initial, mapped fun _ => rfl, mapped fun _ => rfl, List.nil_append,
    List.append_nil]
  refine List.append_right_eq_self.mpr (unnamed fun d mem => ?_)
  split at mem
  · cases mem
  · rw [List.mem_singleton.mp mem]
    rfl

/-- The automaton that is read does what the written one does. -/
theorem agrees_ofDirectives_directives (A : Automaton) : (ofDirectives A.directives).Agrees A where
  isStart q := by
    rw [isStart_ofDirectives, filterMap_start?_directives, ← map_id_initialState?]
    cases A.initialState? <;> rfl
  joins p c q := by
    rw [joins_ofDirectives]
    refine ⟨fun h => ?_, fun h => ?_⟩
    · obtain ⟨d, mem, moves⟩ := h
      rcases List.mem_append.mp mem with state | transition
      · exact absurd moves (still_of_mem_stateDirectives state)
      · obtain ⟨t, listed, rfl⟩ := List.mem_map.mp transition
        obtain ⟨rfl, symbol, rfl⟩ := moves
        exact ⟨t, listed, rfl, symbol, rfl⟩
    · obtain ⟨t, listed, rfl, symbol, rfl⟩ := h
      refine ⟨_, List.mem_append_right _ (List.mem_map_of_mem listed), ?_⟩
      exact ⟨rfl, symbol, rfl⟩
  isFinal q := by
    have byId : A.IsFinal q ↔ q ∈ A.finalStates.map State.id := by
      simp only [IsFinal, finalStates, List.mem_map, List.mem_filter, and_assoc]
      exact exists_congr fun s => and_congr_right fun _ => and_comm
    rw [isFinal_ofDirectives, byId]
    refine ⟨fun h => ?_, fun mem => ?_⟩
    · obtain ⟨d, mem, ends⟩ := h
      rcases List.mem_append.mp mem with state | transition
      · rcases mem_stateDirectives.mp state with ⟨_, _, rfl⟩ | ⟨_, _, rfl⟩ | ⟨_, rfl⟩
        · cases ends
        · cases ends
        · exact ends
      · obtain ⟨t, _, rfl⟩ := List.mem_map.mp transition
        cases ends
    · have some : A.finalStates ≠ [] := by
        rintro none
        rw [none] at mem
        cases mem
      have last : Directive.final (A.finalStates.map State.id) ∈ A.stateDirectives :=
        mem_stateDirectives.mpr (Or.inr (Or.inr ⟨some, rfl⟩))
      exact ⟨_, List.mem_append_left _ last, mem⟩

end Automaton

end RightLinear
