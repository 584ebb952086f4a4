import RightLinear.Proofs.Automaton.File
import RightLinear.Proofs.Rule.File
import RightLinear.Proofs.Text.Joined

/-!
# Files with a line feed between them

Neither reader looks at a blank at the end of a line, so a grammar file or an automaton
file that is put together from two is refused with the faults of both, or says what both
say. A fault leaves no trace in what comes after it. In a grammar the alternatives of the
second file come after those of the first, for each nonterminal, and in an automaton so
do the transitions.

* `Token.read_concat_blank`, `Directive.read_concat_blank`: a blank at the end of a line.
* `Grammar.joined_of_read`, `Automaton.joined_of_read`: files that can both be read.
* `read_joined`: the faults and the contents of a joined file.
-/

namespace RightLinear

open Text (Numbered lines isRuleLine)

/-! ## A blank at the end of a line -/

section

variable {c : Char}

namespace Token

theorem not_joins_concat_blank {text rest : List Char} (ends : ¬ Joins text rest)
    (blank : Text.isBlank c) : ¬ Joins text (rest ++ [c]) := by
  rintro ⟨alphanumeric, d, atHead, joined⟩
  cases rest with
  | nil =>
    obtain rfl := Option.some.inj atHead
    rw [Text.not_isBlank_of_isAlphanum joined] at blank
    cases blank
  | cons e rest => exact ends ⟨alphanumeric, d, atHead, joined⟩

/-- The tokens of a line and its faults are the same with a blank at its end. -/
theorem read_concat_blank (blank : Text.isBlank c) (line : List Char) :
    read (line ++ [c]) = read line := by
  fun_induction read line with
  | case1 =>
    rw [List.nil_append, read_blank blank, read]
  | case2 rest ih => rw [List.cons_append, read_equals, ih]
  | case3 rest _ ih => rw [List.cons_append, List.cons_append, read_arrow, ih]
  | case4 rest noArrow _ =>
    refine read_dash fun atHead => ?_
    cases rest with
    | nil => exact Text.ne_of_isBlank blank rfl (Option.some.inj atHead)
    | cons d rest => exact noArrow rest (congrArg (· :: rest) (Option.some.inj atHead))
  | case5 rest _ _ ih => rw [List.cons_append, read_bar, ih]
  | case6 rest _ _ _ ih => rw [List.cons_append, read_epsilon, ih]
  | case7 quote rest _ _ _ _ quotes none =>
    refine read_unmatched quotes fun mem => ?_
    rcases List.mem_append.mp mem with inRest | last
    · simpa using List.dropWhile_eq_nil_iff.mp none quote inRest
    · rw [List.mem_singleton.mp last, isQuote, Bool.or_eq_true, decide_eq_true_eq,
        decide_eq_true_eq] at quotes
      rcases quotes with same | same
      · exact Text.ne_of_isBlank blank rfl same
      · exact Text.ne_of_isBlank blank rfl same
  | case8 quote rest _ _ _ _ quotes d after found ih =>
    obtain ⟨unquoted, cut⟩ := cut_at found
    have spelled : quote :: rest ++ [c] =
        quote :: rest.takeWhile (· ≠ quote) ++ quote :: (after ++ [c]) := by
      conv_lhs => rw [cut]
      simp only [List.cons_append, List.append_assoc]
    rw [spelled, read_quoted quotes unquoted, ih]
  | case9 d rest _ _ _ _ _ alphanumeric ih =>
    have spelled : d :: rest ++ [c] =
        d :: rest.takeWhile Char.isAlphanum ++ (rest.dropWhile Char.isAlphanum ++ [c]) := by
      simp only [List.cons_append, ← List.append_assoc, List.takeWhile_append_dropWhile]
    rw [spelled, read_word (List.cons_ne_nil _ _) (all_cons_takeWhile alphanumeric)
      (not_joins_concat_blank not_joins_dropWhile blank), ih]
  | case10 d rest _ _ _ _ _ _ blankHere ih => rw [List.cons_append, read_blank blankHere, ih]
  | case11 d rest notEquals notDash notBar notEpsilon notQuote notAlphanumeric shown =>
    have plain : d ∉ signs := by
      simp only [signs, List.mem_cons, List.not_mem_nil, or_false, not_or]
      refine ⟨notEquals, notDash, notBar, notEpsilon, ?_⟩
      simpa [isQuote] using notQuote
    rw [List.cons_append, read_of_not_mem_signs plain, if_neg notAlphanumeric, if_neg shown]

end Token

theorem Rule.read_concat_blank (blank : Text.isBlank c) (line : List Char) :
    Rule.read (line ++ [c]) = Rule.read line :=
  @Text.stripComment_concat_blank c _ (fun line => Token.read line >>= ofTokens)
    (fun line => by rw [Token.read_concat_blank blank]) blank line

theorem Text.words_concat_blank (blank : isBlank c) (line : List Char) :
    words (line ++ [c]) = words line := by
  induction line with
  | nil => exact words_blank blank
  | cons d rest ih =>
    have gap : (rest ++ [c]).head?.all isBlank = rest.head?.all isBlank := by
      cases rest with
      | nil => exact blank
      | cons e rest => rfl
    rw [List.cons_append, words, words, gap, ih]

namespace Directive

/-- A blank at the end belongs to none of the signs. -/
theorem spaceOut_concat_blank (blank : Text.isBlank c) (line : List Char) :
    spaceOut (line ++ [c]) = spaceOut line ++ [c] := by
  fun_induction spaceOut line with
  | case1 =>
    refine spaceOut_cons (Text.ne_of_isBlank blank rfl) (Text.ne_of_isBlank blank rfl) fun _ => ?_
    rintro ⟨⟩
  | case2 rest ih => rw [List.cons_append, List.cons_append, spaceOut, ih, List.append_assoc]
  | case3 rest _ ih =>
    rw [List.cons_append, spaceOut, if_pos rfl, ih, List.append_assoc]
    exact fun _ dash => absurd dash (by decide)
  | case4 rest _ _ ih =>
    rw [List.cons_append, spaceOut, if_neg (by decide), if_pos rfl, ih, List.cons_append]
    exact fun _ dash => absurd dash (by decide)
  | case5 d rest noArrow notColon notComma ih =>
    rw [List.cons_append, spaceOut_cons notColon notComma, ih, List.cons_append]
    intro dash atHead
    cases rest with
    | nil => exact Text.ne_of_isBlank blank rfl (Option.some.inj atHead)
    | cons e rest => exact noArrow rest dash (congrArg (· :: rest) (Option.some.inj atHead))

/-- What a line says and its fault are the same with a blank at its end. -/
theorem read_concat_blank (blank : Text.isBlank c) (line : List Char) :
    read (line ++ [c]) = read line :=
  @Text.stripComment_concat_blank c _ (fun line => ofWords (Text.words (spaceOut line)))
    (fun line => by rw [spaceOut_concat_blank blank, Text.words_concat_blank blank]) blank line

end Directive

end

/-! ## Grammar files -/

theorem Holds.ne_nil {α : Type} {read : List Char → Except Fault α} {text : List Char}
    {said : List α} (holds : Holds read text said) (ruled : ∃ line ∈ lines text, isRuleLine line) :
    said ≠ [] := by
  rintro rfl
  obtain ⟨line, mem, shown⟩ := ruled
  have none := List.map_eq_nil_iff.mp holds
  exact absurd (List.mem_filter.mpr ⟨mem, shown⟩) (none ▸ List.not_mem_nil)

namespace Grammar

variable {text other : List Char} {G H : Grammar}

/-- Two grammar files with rules in them make one grammar: it starts like the first, and
each nonterminal has its alternatives of the first before those of the second. -/
theorem joined_of_read (ruled : ∃ line ∈ lines text, isRuleLine line)
    (ruledOther : ∃ line ∈ lines other, isRuleLine line)
    (isRead : read text = .ok G) (isReadOther : read other = .ok H) :
    ∃ K, read (text ++ '\n' :: other) = .ok K ∧ K.start = G.start ∧
      K.nonterminals = G.nonterminals ++ H.nonterminals.filter (· ∉ G.nonterminals) ∧
      ∀ name, K.bodies name = G.bodies name ++ H.bodies name := by
  obtain ⟨rules, holds, rfl⟩ := read_eq_ok.mp isRead
  obtain ⟨others, holdsOther, rfl⟩ := read_eq_ok.mp isReadOther
  obtain ⟨first, rest, rfl⟩ := List.exists_cons_of_ne_nil (holds.ne_nil ruled)
  obtain ⟨second, more, rfl⟩ := List.exists_cons_of_ne_nil (holdsOther.ne_nil ruledOther)
  have named : ∀ entry ∈ Rule.gathered (second :: more), entry.1 ≠ [] := fun entry mem =>
    ne_nil_of_isNonterminal (holdsOther.named entry mem)
  have joined := holds.joined (Rule.read_concat_blank rfl) holdsOther
  refine ⟨_, read_eq_ok.mpr ⟨_, joined, rfl⟩, ?_⟩
  -- the rules of the second file are added to the grammar of the first
  have added : ofLines (first :: rest ++ second :: more) =
      (Rule.gathered (second :: more)).foldl (fun G rule => G.addBody rule.1 rule.2)
        (ofLines (first :: rest)) := by
    have gathered : Rule.gathered (first :: rest ++ second :: more) =
        Rule.gathered (first :: rest) ++ Rule.gathered (second :: more) := List.flatMap_append
    rw [List.cons_append, ofLines, ← List.cons_append, gathered]
    exact List.foldl_append
  rw [added]
  refine ⟨start_foldl_addBody _, nonterminals_foldl_addBody named _, fun name => ?_⟩
  rw [bodies_foldl_addBody named, ofLines, ofLines, bodies_ofRules named]

end Grammar

/-! ## Automaton files -/

/-- Two automaton files make one automaton: it has the transitions of the first before
those of the second and the final states of both. -/
theorem Automaton.joined_of_read {text other : List Char} {A B : Automaton}
    (isRead : read text = .ok A) (isReadOther : read other = .ok B) :
    ∃ C, read (text ++ '\n' :: other) = .ok C ∧ C.links = A.links ++ B.links ∧
      ∀ q, C.IsFinal q ↔ A.IsFinal q ∨ B.IsFinal q := by
  obtain ⟨directives, holds, rfl⟩ := read_eq_ok.mp isRead
  obtain ⟨others, holdsOther, rfl⟩ := read_eq_ok.mp isReadOther
  have joined := holds.joined (Directive.read_concat_blank rfl) holdsOther
  refine ⟨_, read_eq_ok.mpr ⟨_, joined, rfl⟩, ?_, fun q => ?_⟩
  · rw [links_ofDirectives, links_ofDirectives, links_ofDirectives, List.filterMap_append]
  · simp only [isFinal_ofDirectives, List.mem_append, or_and_right, exists_or]

/-! ## Joined files -/

/-- Lines are read independently by both readers. A joined file is refused with the faults
of its first part and those of its second, so many lines further down, always in the order
of the lines. If both parts can be read, so can the whole, and it says what they say. -/
theorem read_joined (text other : List Char) :
    let joined := text ++ '\n' :: other
    let before := text.count '\n' + 1
    (faultsIn (Grammar.read joined) =
      faultsIn (Grammar.read text) ++ (faultsIn (Grammar.read other)).map (·.raise before)) ∧
    (faultsIn (Automaton.read joined) =
      faultsIn (Automaton.read text) ++ (faultsIn (Automaton.read other)).map (·.raise before)) ∧
    ((faultsIn (Grammar.read text)).Pairwise fun fault later => fault.line < later.line) ∧
    ((faultsIn (Automaton.read text)).Pairwise fun fault later => fault.line < later.line) ∧
    (∀ G H, (∃ line ∈ lines text, isRuleLine line) → (∃ line ∈ lines other, isRuleLine line) →
      Grammar.read text = .ok G → Grammar.read other = .ok H →
      ∃ K, Grammar.read joined = .ok K ∧ K.start = G.start ∧
        K.nonterminals = G.nonterminals ++ H.nonterminals.filter (· ∉ G.nonterminals) ∧
        ∀ name, K.bodies name = G.bodies name ++ H.bodies name) ∧
    ∀ A B, Automaton.read text = .ok A → Automaton.read other = .ok B →
      ∃ C, Automaton.read joined = .ok C ∧ C.links = A.links ++ B.links ∧
        ∀ q, C.IsFinal q ↔ A.IsFinal q ∨ B.IsFinal q := by
  intro joined before
  simp only [Grammar.faultsIn_read, Automaton.faultsIn_read]
  refine ⟨faultsOf_joined (Rule.read_concat_blank rfl),
    faultsOf_joined (Directive.read_concat_blank rfl), pairwise_faultsOf _ _,
    pairwise_faultsOf _ _, fun G H => Grammar.joined_of_read, fun A B => Automaton.joined_of_read⟩

/-- Rules for a nonterminal on both sides, a carriage return before the line feed between
them, and a state that is final on either side; and faults on both sides. -/
theorem read_joined_of_seam :
    let rules := "S -> aO | b\r".toList
    let more := "; odd\nO -> aS\nS -> ε".toList
    let G := Grammar.ofLines [⟨['S'], [.continued ['a'] ['O'], .terminal ['b']]⟩]
    let H := Grammar.ofLines [⟨['O'], [.continued ['a'] ['S']]⟩, ⟨['S'], [.empty]⟩]
    let moves := "initial 0\n0 -> 1 : a\r".toList
    let ends := "1 -> 0 : c, b\nfinal 0 1 ; both".toList
    let A := Automaton.ofDirectives [.initial 0, .transition 0 1 ['a']]
    let B := Automaton.ofDirectives [.transition 1 0 ['c', 'b'], .final [0, 1]]
    (Grammar.read rules = .ok G ∧ Grammar.read more = .ok H ∧
      ∃ K, Grammar.read (rules ++ '\n' :: more) = .ok K ∧ K.start = ['S'] ∧
        K.nonterminals = [['S'], ['O']] ∧
        K.bodies ['S'] = [.continued ['a'] ['O'], .terminal ['b'], .empty]) ∧
    (Automaton.read moves = .ok A ∧ Automaton.read ends = .ok B ∧
      ∃ C, Automaton.read (moves ++ '\n' :: ends) = .ok C ∧
        C.links = [(0, 1, .ofList ['a']), (1, 0, .ofList ['b', 'c'])] ∧ C.IsFinal 1) ∧
    faultsIn (Automaton.read "final q\n1 -> 2\n\nstart".toList) =
      [⟨1, .invalidStateId ['q']⟩, ⟨2, .missingSymbols⟩,
        ⟨4, .unknownDirective "start".toList⟩] := by
  intro rules more G H moves ends A B
  -- the tokens of the three rules, which are found by recursion on the rest of the line
  have tokens : Token.read "S -> aO | b\r".toList =
        .ok [.word ['S'], .separator, .word ['a', 'O'], .bar, .word ['b']] ∧
      Token.read "O -> aS".toList = .ok [.word ['O'], .separator, .word ['a', 'S']] ∧
      Token.read "S -> ε".toList = .ok [.word ['S'], .separator, .empty] := by
    simp [Token.read, Token.isQuote, Text.isBlank]
  obtain ⟨first, second, third⟩ := tokens
  have holds : Holds Rule.read rules [⟨['S'], [.continued ['a'] ['O'], .terminal ['b']]⟩] :=
    congrArg List.singleton (@Rule.read_of_tokens _ rules first)
  have rulesRead : Grammar.read rules = .ok G := Grammar.read_eq_ok.mpr ⟨_, holds, rfl⟩
  have holdsMore : Holds Rule.read more [⟨['O'], [.continued ['a'] ['S']]⟩, ⟨['S'], [.empty]⟩] :=
    congrArg₂ (fun rule other => [rule, other])
      (@Rule.read_of_tokens _ "O -> aS".toList second)
      (@Rule.read_of_tokens _ "S -> ε".toList third)
  have moreRead : Grammar.read more = .ok H := Grammar.read_eq_ok.mpr ⟨_, holdsMore, rfl⟩
  have movesRead : Automaton.read moves = .ok A := rfl
  have endsRead : Automaton.read ends = .ok B := rfl
  obtain ⟨_, _, _, _, grammars, _⟩ := read_joined rules more
  obtain ⟨K, joined, start, nonterminals, bodies⟩ :=
    grammars G H ⟨_, List.mem_cons_self, rfl⟩ (by decide) rulesRead moreRead
  obtain ⟨_, _, _, _, _, automata⟩ := read_joined moves ends
  obtain ⟨C, together, links, isFinal⟩ := automata A B movesRead endsRead
  obtain ⟨_, faults, _⟩ := read_joined "final q\n1 -> 2".toList "\nstart".toList
  refine ⟨⟨rulesRead, moreRead, K, joined, start, nonterminals.trans (by decide),
    (bodies ['S']).trans (by decide)⟩, ⟨movesRead, endsRead, C, together, ?_, ?_⟩, faults⟩
  · rw [links, Automaton.links_ofDirectives, Automaton.links_ofDirectives]
    decide
  · have listed : Directive.final [0, 1] ∈ [.transition 1 0 ['c', 'b'], .final [0, 1]] :=
      List.mem_cons_of_mem _ List.mem_cons_self
    have ends : (Directive.final [0, 1]).Ends 1 := List.mem_cons_of_mem _ List.mem_cons_self
    exact (isFinal 1).mpr (Or.inr (Automaton.isFinal_ofDirectives.mpr ⟨_, listed, ends⟩))

end RightLinear
