import RightLinear.Proofs.Pattern.Size

/-!
# Whole words and choices

A pattern describes whole words although its text is pasted between marks and searched
for anywhere: what it describes is what its tree, read from the text alone, matches from
the beginning of a word to the end. This holds of a choice as of any other pattern, so
the marks bind its outermost branches too, and a bar between two patterns is read as the
choice between them.

* `Pattern.parse?_bar`: the tree of two patterns with a bar between them.
* `Pattern.anchored_reading`: when a text is compiled, and which words it describes then.
* `Pattern.compile_eq_error_of_marks`: a pattern that only the marks make too big.
-/

namespace RightLinear.Pattern

variable {text more : List Char} {p q : Pattern} {tokens others : List Token}
  {engine : Engine} {refusal : Refusal}

/-! ## Two patterns with a bar between them -/

/-- The branches behind a bar are added to those before it. -/
theorem ofTokens?_bar (first : ofTokens? tokens = some p) (second : ofTokens? others = some q) :
    ∃ r, ofTokens? (tokens ++ .bar :: others) = some r ∧
      ∀ {w i j}, Matches w r i j ↔ Matches w p i j ∨ Matches w q i j := by
  obtain ⟨frame, run, rfl⟩ := ofTokens?_eq_some.mp first
  obtain ⟨last, run', rfl⟩ := ofTokens?_eq_some.mp second
  have joined : Stack.run? (.fresh, []) (tokens ++ .bar :: others) =
      some (last.after frame.finish.branches, []) := by
    rw [Stack.run?_append, run, Option.bind_some, Stack.run?_cons, Stack.step?, Option.bind_some]
    exact Stack.run?_within run'
  refine ⟨_, ofTokens?_eq_some.mpr ⟨_, joined, rfl⟩, ?_⟩
  have branches : (last.after frame.finish.branches).finish.branches.reverse =
      frame.finish.branches.reverse ++ last.finish.branches.reverse := by
    rw [← List.reverse_append]
    rfl
  intro w i j
  simp only [Frame.toPattern, branches, matches_ofBranches, List.mem_append, or_and_right,
    exists_or]

/-- A bar between two texts is read as the choice between their trees. -/
theorem parse?_bar (first : parse? text = some p) (second : parse? more = some q) :
    ∃ r, parse? (text ++ '|' :: more) = some r ∧
      ∀ {w i j}, Matches w r i j ↔ Matches w p i j ∨ Matches w q i j := by
  obtain ⟨tokens, read, tree⟩ := parse?_eq_some.mp first
  obtain ⟨others, read', tree'⟩ := parse?_eq_some.mp second
  obtain ⟨r, joined, same⟩ := ofTokens?_bar tree tree'
  have bar : Token.readAll? ('|' :: more) = some (.bar :: others) := by
    rw [Token.readAll?_cons rfl, read']
    rfl
  refine ⟨r, parse?_eq_some.mpr ⟨_, ?_, joined⟩, same⟩
  rw [Token.readAll?_append (Or.inr rfl) read, bar]
  rfl

/-! ## Whole words -/

theorem compile_eq_error_of_read (h : read engine text = .error refusal) :
    compile engine text = .error refusal := by
  rw [compile, h]

/-- A text that is compiled on its own, with a tree within the limit that the marks and the
group around it leave, describes the words that the tree matches from the beginning to the
end, unless the marks are what makes it take too much space. If the tree is a choice then it
describes those that some branch of it matches so, and if a bar stands between two texts that
can be read on their own then those that the tree of either matches so. A text that is refused
on its own is refused for the same reason. -/
theorem anchored_reading (engine : Engine) (text : List Char) :
    (∀ tree, read engine text = .ok tree → tree.height ≤ 248 →
      ((∃ p, compile engine text = .ok p) ↔ engine.size (anchor text) ≤ sizeLimit) ∧
      (engine.size (anchor text) ≤ sizeLimit →
        ∀ w, ∃ verdict, accepts? engine text w = some verdict ∧
          (verdict = true ↔ MatchesWhole tree w) ∧
          (∀ branches, tree = alt branches →
            (verdict = true ↔ ∃ p ∈ branches, MatchesWhole p w)) ∧
          ∀ left right p q, text = left ++ '|' :: right →
            parse? left = some p → parse? right = some q →
            (verdict = true ↔ MatchesWhole p w ∨ MatchesWhole q w))) ∧
    ∀ refusal, read engine text = .error refusal →
      compile engine text = .error refusal ∧ ∀ w, accepts? engine text w = none := by
  constructor
  · intro tree alone low
    obtain ⟨parsed, -, small⟩ := read_eq_ok.mp alone
    constructor
    · rw [exists_compile_iff parsed]
      exact ⟨fun h => h.2.2, fun fits => ⟨low, small, fits⟩⟩
    · intro fits w
      obtain ⟨verdict, accepted, whole⟩ := accepts?_eq parsed low ⟨small, fits⟩ (w := w)
      refine ⟨verdict, accepted, whole, ?_, ?_⟩
      · intro branches choice
        subst choice
        exact whole.trans matches_alt
      · intro left right p q joint first second
        subst joint
        obtain ⟨r, joined, either⟩ := parse?_bar first second
        obtain rfl : r = tree := Option.some.inj (joined.symm.trans parsed)
        exact whole.trans either
  · intro refusal refused
    have uncompiled := compile_eq_error_of_read refused
    exact ⟨uncompiled, fun w => by rw [accepts?, uncompiled]; rfl⟩

/-- The marks are what makes this text take too much space. -/
theorem compile_eq_error_of_marks :
    let text := "^a\x7b327674\x7d".toList
    (∃ tree, read .counting text = .ok tree ∧ tree.height ≤ 248) ∧
      compile .counting text = .error (.oversized sizeLimit) := by
  intro text
  have tokens : Token.readAll? text =
      some [.atom .textStart, .atom (.literal 'a'), .repeated ⟨327674, some 327674⟩] := by
    change Token.readAll? ('^' :: 'a' :: '\x7b' :: "327674\x7d".toList) = _
    have count : Token.next? '\x7b' "327674\x7d".toList =
        some (.repeated ⟨327674, some 327674⟩, []) := rfl
    rw [Token.readAll?_cons rfl, Token.readAll?_cons rfl, Token.readAll?_cons count,
      Token.readAll?_nil]
    rfl
  have parsed : parse? text = some (concat [atom .textStart,
      repeated ⟨327674, some 327674⟩ (atom (.literal 'a'))]) :=
    parse?_eq_some.mpr ⟨_, tokens, rfl⟩
  have alone : Engine.counting.size text ≤ sizeLimit := by
    rw [size_counting parsed]
    decide
  exact ⟨⟨_, read_eq_ok.mpr ⟨parsed, by decide, alone⟩, by decide⟩,
    compile_counting_of_big parsed (by decide) (by decide)⟩

/-- Both branches are bound at both ends, and the marks do not lend their group to
parentheses that do not match. -/
theorem anchored_reading_of_bar :
    let a : Pattern := atom (.literal 'a')
    let b : Pattern := concat [atom (.literal 'b'), repeated ⟨0, none⟩ (atom (.literal 'c'))]
    read .counting "a|bc*".toList = .ok (alt [a, b]) ∧ (alt [a, b]).height ≤ 248 ∧
    Engine.counting.size (anchor "a|bc*".toList) ≤ sizeLimit ∧
    (∃ p, compile .counting "a|bc*".toList = .ok p) ∧
    (∀ w, accepts? .counting "a|bc*".toList w = some true ↔
      MatchesWhole a w ∨ MatchesWhole b w) ∧
    (∃ refusal, read .counting "a)|(b".toList = .error refusal ∧
      compile .counting "a)|(b".toList = .error refusal) ∧
    (∃ p, read .counting (anchor "a)|(b".toList) = .ok p) := by
  intro a b
  have left : parse? "a".toList = some a := by cbv
  have right : parse? "bc*".toList = some b := by cbv
  have parsed : parse? "a|bc*".toList = some (alt [a, b]) := by cbv
  have fits : Engine.counting.Fits "a|bc*".toList := (counting_fits_iff parsed).mpr (by decide)
  have low : (alt [a, b]).height ≤ 248 := by decide
  have alone : read .counting "a|bc*".toList = .ok (alt [a, b]) :=
    read_eq_ok.mpr ⟨parsed, by decide, fits.1⟩
  have unread : parse? "a)|(b".toList = none := by cbv
  have refused : read .counting "a)|(b".toList = .error (.malformed "regex parse error:") := by
    rw [read, unread]
    rfl
  have tree : parse? (anchor "a)|(b".toList) =
      some (alt [concat [atom .textStart, group (atom (.literal 'a'))],
        concat [group (atom (.literal 'b')), atom .textEnd]]) := by cbv
  have space : Engine.counting.size (anchor "a)|(b".toList) ≤ sizeLimit := by
    rw [size_counting tree]
    decide
  obtain ⟨compiled, verdicts⟩ := (anchored_reading .counting "a|bc*".toList).1 _ alone low
  refine ⟨alone, low, fits.2, compiled.mpr fits.2, fun w => ?_,
    ⟨_, refused, ((anchored_reading .counting _).2 _ refused).1⟩,
    _, read_eq_ok.mpr ⟨tree, by decide, space⟩⟩
  obtain ⟨verdict, accepted, -, -, either⟩ := verdicts fits.2 w
  rw [accepted, Option.some.injEq]
  exact either "a".toList "bc*".toList a b rfl left right

end RightLinear.Pattern
