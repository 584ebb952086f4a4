import Mathlib.Data.Bool.AllAny
import RightLinear.Proofs.Text.Line
import RightLinear.Rule.Spelling

/-!
# A rule line is read by its spelling

The reader of a rule line looks at one character at a time, cuts the tokens at the
bars and looks for the first uppercase letter of each alternative. What it accepts is
just what the spelling of a rule allows, and it finds the one rule that is spelled.

* `Token.read_eq_ok`: the tokens of a line.
* `Body.read_eq_ok`: the alternative that a run of text stands for.
* `Rule.ofTokens_eq_ok`, `Rule.read_eq_ok`: the rule on a line.
-/

namespace RightLinear

namespace Token

/-! ## Tokens -/

section

variable {c quote : Char} {text rest : List Char}

theorem read_equals : read ('=' :: rest) = (.separator :: ·) <$> read rest := by
  rw [read.eq_def]
  exact if_pos rfl

theorem read_arrow : read ('-' :: '>' :: rest) = (.separator :: ·) <$> read rest := by
  rw [read, if_neg (by decide), if_pos rfl]

theorem read_bar : read ('|' :: rest) = (.bar :: ·) <$> read rest := by
  rw [read.eq_def]
  dsimp only
  rw [if_neg (by decide), if_neg (by decide), if_pos rfl]

theorem read_epsilon : read ('ε' :: rest) = (.empty :: ·) <$> read rest := by
  rw [read.eq_def]
  dsimp only
  rw [if_neg (by decide), if_neg (by decide), if_neg (by decide), if_pos rfl]

theorem read_dash (noArrow : rest.head? ≠ some '>') :
    read ('-' :: rest) = .error (.invalidCharacter '-') := by
  rw [read.eq_def]
  dsimp only
  rw [if_neg (by decide), if_pos rfl]
  split
  · exact absurd rfl noArrow
  · rfl

theorem not_sign_of_isQuote (quotes : isQuote quote) :
    quote ≠ '=' ∧ quote ≠ '-' ∧ quote ≠ '|' ∧ quote ≠ 'ε' := by
  rw [isQuote, Bool.or_eq_true, decide_eq_true_eq, decide_eq_true_eq] at quotes
  rcases quotes with rfl | rfl
  · decide
  · decide

/-- A quote that is not closed. -/
theorem read_unmatched (quotes : isQuote quote) (unquoted : quote ∉ rest) :
    read (quote :: rest) = .error .unmatchedQuote := by
  obtain ⟨notEquals, notDash, notBar, notEpsilon⟩ := not_sign_of_isQuote quotes
  have dropped : rest.dropWhile (· ≠ quote) = [] := List.dropWhile_eq_nil_iff.mpr fun d mem =>
    decide_eq_true (ne_of_mem_of_not_mem mem unquoted)
  rw [read.eq_def]
  dsimp only
  rw [if_neg notEquals, if_neg notDash, if_neg notBar, if_neg notEpsilon, if_pos quotes]
  split
  · rfl
  · next some =>
    rw [dropped] at some
    cases some

/-- A text between quotes. -/
theorem read_quoted (quotes : isQuote quote) (unquoted : quote ∉ text) :
    read (quote :: text ++ quote :: rest) = (quoted text :: ·) <$> read rest := by
  have inside : ∀ d ∈ text, decide (d ≠ quote) = true := fun d mem =>
    decide_eq_true (ne_of_mem_of_not_mem mem unquoted)
  have taken : (text ++ quote :: rest).takeWhile (· ≠ quote) = text := by
    rw [List.takeWhile_append_of_pos inside, List.takeWhile_cons_of_neg (by simp), List.append_nil]
  have dropped : (text ++ quote :: rest).dropWhile (· ≠ quote) = quote :: rest := by
    rw [List.dropWhile_append_of_pos inside, List.dropWhile_cons_of_neg (by simp)]
  obtain ⟨notEquals, notDash, notBar, notEpsilon⟩ := not_sign_of_isQuote quotes
  rw [List.cons_append, read.eq_def]
  dsimp only
  rw [if_neg notEquals, if_neg notDash, if_neg notBar, if_neg notEpsilon, if_pos quotes]
  split
  · next none =>
    rw [dropped] at none
    cases none
  · next d after some =>
    rw [dropped] at some
    obtain ⟨rfl, rfl⟩ := List.cons.inj some
    rw [taken]

/-- The characters that are a token or begin one, other than letters and digits. -/
def signs : List Char := ['=', '-', '|', 'ε', '\x22', '\x27']

/-- A character that is no sign begins a word, is passed over, or is refused. -/
theorem read_of_not_mem_signs (plain : c ∉ signs) :
    read (c :: rest) =
      if c.isAlphanum then
        (.word (c :: rest.takeWhile Char.isAlphanum) :: ·) <$> read (rest.dropWhile Char.isAlphanum)
      else if Text.isBlank c then read rest
      else .error (.invalidCharacter c) := by
  simp only [signs, List.mem_cons, List.not_mem_nil, or_false, not_or] at plain
  obtain ⟨notEquals, notDash, notBar, notEpsilon, notQuote⟩ := plain
  rw [read.eq_def]
  dsimp only
  rw [if_neg notEquals, if_neg notDash, if_neg notBar, if_neg notEpsilon,
    if_neg (by simpa [isQuote] using notQuote)]

theorem read_blank (blank : Text.isBlank c) : read (c :: rest) = read rest := by
  have plain : c ∉ signs := by
    intro sign
    have shown : ∀ d ∈ signs, Text.isBlank d = false := List.all_iff_forall_prop.mp (by decide)
    rw [shown c sign] at blank
    cases blank
  have notAlphanumeric : ¬ c.isAlphanum := by
    intro alphanumeric
    rw [Text.not_isBlank_of_isAlphanum alphanumeric] at blank
    cases blank
  rw [read_of_not_mem_signs plain, if_neg notAlphanumeric, if_pos blank]

/-- A word that goes on as long as it can. -/
theorem read_word (nonempty : text ≠ []) (alphanumeric : text.all Char.isAlphanum)
    (ends : ¬ Joins text rest) : read (text ++ rest) = (.word text :: ·) <$> read rest := by
  cases text with
  | nil => exact absurd rfl nonempty
  | cons c word =>
    obtain ⟨first, more⟩ := Bool.and_eq_true_iff.mp alphanumeric
    have plain : c ∉ signs := by
      intro sign
      have unlike : ∀ d ∈ signs, d.isAlphanum = false := List.all_iff_forall_prop.mp (by decide)
      rw [unlike c sign] at first
      cases first
    have inWord := List.all_eq_true.mp more
    have stops : ∀ d, rest.head? = some d → ¬ d.isAlphanum := fun d atHead joined =>
      ends ⟨alphanumeric, d, atHead, joined⟩
    have taken : (word ++ rest).takeWhile Char.isAlphanum = word := by
      rw [List.takeWhile_append_of_pos inWord]
      cases rest with
      | nil => exact List.append_nil word
      | cons d rest => rw [List.takeWhile_cons_of_neg (stops d rfl), List.append_nil]
    have dropped : (word ++ rest).dropWhile Char.isAlphanum = rest := by
      rw [List.dropWhile_append_of_pos inWord]
      cases rest with
      | nil => rfl
      | cons d rest => rw [List.dropWhile_cons_of_neg (stops d rfl)]
    rw [List.cons_append, read_of_not_mem_signs plain, if_pos first, taken, dropped]

end

variable {line : List Char} {tokens : List Token}

/-- A line that spells tokens is read as those tokens. -/
theorem read_of_line (spelled : Line line tokens) : read line = .ok tokens := by
  induction spelled with
  | nil => rw [read]
  | blank blank _ ih => rw [read_blank blank, ih]
  | @token text rest token tokens spells ends _ ih =>
    have onward : ∀ token : Token, (token :: ·) <$> read rest = .ok (token :: tokens) := by
      intro token
      rw [ih]
      rfl
    cases spells with
    | arrow => exact read_arrow.trans (onward _)
    | equals => exact read_equals.trans (onward _)
    | bar => exact read_bar.trans (onward _)
    | epsilon => exact read_epsilon.trans (onward _)
    | quoted quotes unquoted =>
      rw [List.append_assoc, List.singleton_append, read_quoted quotes unquoted]
      exact onward _
    | word nonempty alphanumeric =>
      rw [read_word nonempty alphanumeric ends]
      exact onward _

theorem not_isAlphanum_of_isQuote {c : Char} (quotes : isQuote c) : c.isAlphanum = false := by
  rw [isQuote, Bool.or_eq_true, decide_eq_true_eq, decide_eq_true_eq] at quotes
  rcases quotes with rfl | rfl
  · rfl
  · rfl

theorem not_joins {text rest : List Char} (sign : text.all Char.isAlphanum = false) :
    ¬ Joins text rest := by
  rintro ⟨alphanumeric, _⟩
  rw [sign] at alphanumeric
  cases alphanumeric

theorem not_joins_nil {text : List Char} : ¬ Joins text [] := by
  rintro ⟨_, c, atHead, _⟩
  cases atHead

theorem not_joins_blank {text rest : List Char} : ¬ Joins text (' ' :: rest) := by
  rintro ⟨_, c, atHead, alphanumeric⟩
  cases atHead
  cases alphanumeric

/-- The text up to a character that is looked for. -/
theorem cut_at {rest after : List Char} {c d : Char}
    (found : rest.dropWhile (· ≠ c) = d :: after) :
    c ∉ rest.takeWhile (· ≠ c) ∧ rest = rest.takeWhile (· ≠ c) ++ c :: after := by
  have cut := List.takeWhile_append_dropWhile (p := (· ≠ c)) (l := rest)
  have closes := List.head?_dropWhile_not (· ≠ c) rest
  rw [found] at cut closes
  obtain rfl : d = c := by simpa using closes
  refine ⟨fun mem => ?_, cut.symm⟩
  simpa using List.mem_takeWhile_imp mem

theorem all_cons_takeWhile {c : Char} {rest : List Char} (alphanumeric : c.isAlphanum) :
    (c :: rest.takeWhile Char.isAlphanum).all Char.isAlphanum = true := by
  rw [List.all_cons, alphanumeric, List.all_takeWhile]
  rfl

theorem not_joins_dropWhile {text rest : List Char} :
    ¬ Joins text (rest.dropWhile Char.isAlphanum) := by
  rintro ⟨_, c, atHead, joined⟩
  have stops := List.head?_dropWhile_not Char.isAlphanum rest
  rw [atHead] at stops
  rw [stops] at joined
  cases joined

theorem line_of_map_read {text rest : List Char} {token : Token} (spells : Spells text token)
    (ends : ¬ Joins text rest) (spelled : ∀ {tokens}, read rest = .ok tokens → Line rest tokens)
    (isRead : (token :: ·) <$> read rest = .ok tokens) : Line (text ++ rest) tokens := by
  obtain ⟨tokens, restRead, rfl⟩ := map_eq_ok.mp isRead
  exact .token spells ends (spelled restRead)

/-- What the reader takes off a line is a spelling of its tokens. -/
theorem line_of_read (isRead : read line = .ok tokens) : Line line tokens := by
  fun_induction read line generalizing tokens with
  | case1 =>
    cases isRead
    exact .nil
  | case2 rest ih => exact line_of_map_read .equals (not_joins rfl) ih isRead
  | case3 rest _ ih => exact line_of_map_read .arrow (not_joins rfl) ih isRead
  | case4 rest _ _ => cases isRead
  | case5 rest _ _ ih => exact line_of_map_read .bar (not_joins rfl) ih isRead
  | case6 rest _ _ _ ih => exact line_of_map_read .epsilon (not_joins rfl) ih isRead
  | case7 => cases isRead
  | case8 quote rest _ _ _ _ quotes d after found ih =>
    obtain ⟨unquoted, cut⟩ := cut_at found
    have sign : (quote :: rest.takeWhile (· ≠ quote) ++ [quote]).all Char.isAlphanum = false := by
      rw [List.cons_append, List.all_cons, not_isAlphanum_of_isQuote quotes]
      rfl
    have spelled := line_of_map_read (.quoted quotes unquoted) (not_joins sign) ih isRead
    rw [List.append_assoc, List.singleton_append, List.cons_append, ← cut] at spelled
    exact spelled
  | case9 c rest _ _ _ _ _ alphanumeric ih =>
    have spelled := line_of_map_read
      (.word (List.cons_ne_nil _ _) (all_cons_takeWhile alphanumeric))
      not_joins_dropWhile ih isRead
    rw [List.cons_append, List.takeWhile_append_dropWhile] at spelled
    exact spelled
  | case10 c rest _ _ _ _ _ _ blank ih => exact .blank blank (ih isRead)
  | case11 => cases isRead

theorem read_eq_ok : read line = .ok tokens ↔ Line line tokens := ⟨line_of_read, read_of_line⟩

end Token

/-! ## Alternatives -/

theorem exists_cons_of_isNonterminal {name : List Char} (named : isNonterminal name) :
    ∃ c digits, name = c :: digits ∧ c.isUpper ∧ digits.all Char.isDigit := by
  cases name with
  | nil => cases named
  | cons c digits =>
    obtain ⟨upper, digits'⟩ := Bool.and_eq_true_iff.mp named
    exact ⟨c, digits, rfl, upper, digits'⟩

theorem ne_nil_of_isNonterminal {name : List Char} (named : isNonterminal name) : name ≠ [] := by
  rintro rfl
  cases named

theorem all_isAlphanum_of_isNonterminal {name : List Char} (named : isNonterminal name) :
    name.all Char.isAlphanum := by
  obtain ⟨c, digits, rfl, upper, digits'⟩ := exists_cons_of_isNonterminal named
  rw [List.all_cons, Text.isAlphanum_of_isUpper upper, Bool.true_and, List.all_eq_true]
  exact fun d mem => Text.isAlphanum_of_isDigit (List.all_eq_true.mp digits' d mem)

namespace Body

variable {text : List Char} {body : Body}

/-- What is read as an alternative spells it. -/
theorem spells_of_read (isRead : Body.read text = .ok body) : Spells text body := by
  have cut := List.takeWhile_append_dropWhile (p := fun c : Char => !c.isUpper) (l := text)
  have lower : ∀ c ∈ text.takeWhile fun c => !c.isUpper, ¬ c.isUpper := by
    intro c mem
    simpa using List.mem_takeWhile_imp mem
  rw [Body.read] at isRead
  split at isRead
  · next none =>
    cases isRead
    rw [none]
    exact .empty
  · next nonempty =>
    split at isRead
    · next noName =>
      cases isRead
      rw [noName, List.append_nil] at cut
      rw [cut] at lower
      exact .terminal nonempty lower
    · split at isRead
      · cases isRead
      · next linear =>
        cases isRead
        rw [Bool.or_eq_true, decide_eq_true_eq, not_or, Bool.not_eq_true'] at linear
        obtain ⟨someText, named⟩ := linear
        have spelled := Spells.continued someText lower (by simpa using named)
        rw [cut] at spelled
        exact spelled

/-- A text that spells an alternative is read as it. -/
theorem read_of_spells (spelled : Spells text body) : Body.read text = .ok body := by
  cases spelled with
  | empty => rfl
  | terminal nonempty lower =>
    have none : text.dropWhile (fun c => !c.isUpper) = [] := by
      rw [List.dropWhile_eq_nil_iff]
      simpa using lower
    rw [Body.read]
    rw [if_neg nonempty, if_pos none]
  | @continued before next nonempty lower named =>
    obtain ⟨c, digits, rfl, upper, _⟩ := exists_cons_of_isNonterminal named
    have stops : ¬ (!c.isUpper) = true := by
      rw [upper]
      exact Bool.false_ne_true
    have lower' : ∀ d ∈ before, (!d.isUpper) = true := by simpa using lower
    have taken : (before ++ c :: digits).takeWhile (fun c => !c.isUpper) = before := by
      rw [List.takeWhile_append_of_pos lower',
        List.takeWhile_cons_of_neg (p := fun d : Char => !d.isUpper) stops, List.append_nil]
    have dropped : (before ++ c :: digits).dropWhile (fun c => !c.isUpper) = c :: digits := by
      rw [List.dropWhile_append_of_pos lower',
        List.dropWhile_cons_of_neg (p := fun d : Char => !d.isUpper) stops]
    rw [Body.read]
    rw [taken, dropped, if_neg (by simp), if_neg (List.cons_ne_nil c digits), if_neg]
    rw [named, Bool.not_true, Bool.or_false, decide_eq_true_eq]
    exact nonempty

theorem read_eq_ok : Body.read text = .ok body ↔ Spells text body :=
  ⟨spells_of_read, read_of_spells⟩

end Body

namespace Rule

/-! ## Rules -/

variable {tokens : List Token} {text line : List Char} {bodies : List Body} {rule : Rule}

/-- Tokens are joined to a text just if they are a run of words with this text. -/
theorem text_eq_ok : Rule.text tokens = .ok text ↔ Run tokens text := by
  induction tokens generalizing text with
  | nil =>
    refine ⟨fun h => ?_, fun run => ?_⟩
    · cases h
      exact .nil
    · cases run
      rfl
  | cons token tokens ih =>
    cases token with
    | separator =>
      refine ⟨fun h => ?_, fun run => ?_⟩
      · cases h
      · cases run
    | bar =>
      refine ⟨fun h => ?_, fun run => ?_⟩
      · cases h
      · cases run
    | empty =>
      rw [Rule.text, ih]
      refine ⟨.empty, fun run => ?_⟩
      cases run with
      | empty run => exact run
    | word word =>
      rw [Rule.text, map_eq_ok]
      refine ⟨fun h => ?_, fun run => ?_⟩
      · obtain ⟨rest, read, rfl⟩ := h
        exact .word (ih.mp read)
      · cases run with
        | word run => exact ⟨_, ih.mpr run, rfl⟩

theorem Run.bar_not_mem (run : Run tokens text) : Token.bar ∉ tokens := by
  induction run with
  | nil => exact List.not_mem_nil
  | empty _ ih => simpa using ih
  | word _ ih => simpa using ih

theorem alternatives_of_not_mem (unbarred : Token.bar ∉ tokens) :
    alternatives tokens = [tokens] := by
  induction tokens with
  | nil => rfl
  | cons token tokens ih =>
    rw [List.mem_cons, not_or] at unbarred
    rw [alternatives, ih unbarred.2]
    exact fun same => unbarred.1 same.symm

theorem alternatives_append_bar {others : List Token} (unbarred : Token.bar ∉ tokens) :
    alternatives (tokens ++ .bar :: others) = tokens :: alternatives others := by
  induction tokens with
  | nil => rfl
  | cons token tokens ih =>
    rw [List.mem_cons, not_or] at unbarred
    rw [List.cons_append, alternatives, ih unbarred.2]
    exact fun same => unbarred.1 same.symm

theorem readBodies_cons_eq_ok {rest : List (List Token)} :
    readBodies (tokens :: rest) = .ok bodies ↔ ∃ text body others, Run tokens text ∧
      Body.Spells text body ∧ readBodies rest = .ok others ∧ bodies = body :: others := by
  rw [readBodies]
  simp only [bind_eq_ok, text_eq_ok, Body.read_eq_ok, pure, Except.pure, Except.ok.injEq]
  refine ⟨fun h => ?_, fun h => ?_⟩
  · obtain ⟨text, run, body, spelled, others, onward, rfl⟩ := h
    exact ⟨text, body, others, run, spelled, onward, rfl⟩
  · obtain ⟨text, body, others, run, spelled, onward, rfl⟩ := h
    exact ⟨text, run, body, spelled, others, onward, rfl⟩

/-- The tokens between the bars are read as the alternatives that they spell. -/
theorem readBodies_alternatives_eq_ok :
    readBodies (alternatives tokens) = .ok bodies ↔ Choice tokens bodies := by
  refine ⟨fun isRead => ?_, fun choice => ?_⟩
  · induction tokens using split_induction Token.bar generalizing bodies with
    | @last tokens unbarred =>
      rw [alternatives_of_not_mem unbarred, readBodies_cons_eq_ok] at isRead
      obtain ⟨text, body, others, run, spelled, ended, rfl⟩ := isRead
      cases ended
      exact .last run spelled
    | @more tokens others unbarred ih =>
      rw [alternatives_append_bar unbarred, readBodies_cons_eq_ok] at isRead
      obtain ⟨text, body, bodies, run, spelled, onward, rfl⟩ := isRead
      exact .more run spelled (ih onward)
  · induction choice with
    | last run spelled =>
      rw [alternatives_of_not_mem run.bar_not_mem, readBodies_cons_eq_ok]
      exact ⟨_, _, [], run, spelled, rfl, rfl⟩
    | more run spelled _ ih =>
      rw [alternatives_append_bar run.bar_not_mem, readBodies_cons_eq_ok]
      exact ⟨_, _, _, run, spelled, ih, rfl⟩

/-- A rule is a name, the sign behind it, and the alternatives that the other tokens spell. -/
theorem ofTokens_eq_ok :
    ofTokens tokens = .ok rule ↔ ∃ rest, tokens = .word rule.head :: .separator :: rest ∧
      isNonterminal rule.head ∧ Choice rest rule.bodies := by
  refine ⟨fun isRead => ?_, fun h => ?_⟩
  · rw [ofTokens.eq_def] at isRead
    split at isRead
    · cases isRead
    · split at isRead
      · next named =>
        split at isRead
        · rw [map_eq_ok] at isRead
          obtain ⟨bodies, isRead, rfl⟩ := isRead
          exact ⟨_, rfl, named, readBodies_alternatives_eq_ok.mp isRead⟩
        · cases isRead
      · cases isRead
    · cases isRead
  · obtain ⟨rest, rfl, named, choice⟩ := h
    rw [ofTokens, if_pos named, readBodies_alternatives_eq_ok.mpr choice]
    rfl

theorem read_of_tokens (isRead : Token.read (Text.stripComment line) = .ok tokens) :
    Rule.read line = ofTokens tokens := by
  rw [Rule.read, isRead]
  rfl

/-- A line is read as a rule exactly if it is spelled as one. -/
theorem read_eq_ok : Rule.read line = .ok rule ↔ Line (Text.stripComment line) rule := by
  rw [Rule.read, bind_eq_ok, Line]
  simp only [Token.read_eq_ok, ofTokens_eq_ok]
  refine ⟨fun h => ?_, fun h => ?_⟩
  · obtain ⟨_, spelled, tokens, rfl, named, choice⟩ := h
    exact ⟨tokens, named, choice, spelled⟩
  · obtain ⟨tokens, named, choice, spelled⟩ := h
    exact ⟨_, spelled, tokens, rfl, named, choice⟩

end Rule

end RightLinear
