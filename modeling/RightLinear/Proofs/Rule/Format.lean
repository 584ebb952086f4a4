import RightLinear.Proofs.Rule.File
import RightLinear.Proofs.Text.Joined

/-!
# The format of a rule line

A rule line is a head, a separator and alternatives with bars between them. Of the tokens
of an alternative only their texts count, one after another, so that a terminal may be
written in several words and in quotes. Quotes protect all characters but one: a comment
is cut off before quotes are looked at, and so a `;` inside of them leaves its quote
unmatched.

* `Rule.Alternative`: the tokens that stand for an alternative.
* `Rule.choice_iff`: alternatives are what stands between the bars.
* `Rule.read_eq_ok_iff_format`: the lines that can be read, and the rules they stand for.
* `Grammar.read_quoted_terminal`: a rule with a single terminal in quotes.
-/

namespace RightLinear

/-- The text that a token adds to its alternative. -/
def Token.text : Token → List Char
  | .word text => text
  | _ => []

namespace Rule

variable {tokens : List Token} {text : List Char} {body : Body} {bodies : List Body}

/-- Tokens that stand for an alternative: they are words, or stand for the empty word, and
their texts one after another spell the alternative. -/
def Alternative (tokens : List Token) (body : Body) : Prop :=
  (∀ token ∈ tokens, token ≠ .separator ∧ token ≠ .bar) ∧
    Body.Spells (tokens.flatMap Token.text) body

/-- Tokens between bars are joined if no sign for a rule is among them. -/
theorem run_iff : Run tokens text ↔
    (∀ token ∈ tokens, token ≠ .separator ∧ token ≠ .bar) ∧ tokens.flatMap Token.text = text := by
  refine ⟨fun run => ?_, fun h => ?_⟩
  · induction run with
    | nil => exact ⟨fun _ none => absurd none List.not_mem_nil, rfl⟩
    | empty _ ih =>
      refine ⟨List.forall_mem_cons.mpr ⟨⟨Token.noConfusion, Token.noConfusion⟩, ih.1⟩, ?_⟩
      exact ih.2
    | word _ ih =>
      refine ⟨List.forall_mem_cons.mpr ⟨⟨Token.noConfusion, Token.noConfusion⟩, ih.1⟩, ?_⟩
      rw [List.flatMap_cons, ih.2]
      rfl
  · obtain ⟨plain, rfl⟩ := h
    induction tokens with
    | nil => exact .nil
    | cons token tokens ih =>
      obtain ⟨⟨notSeparator, notBar⟩, plainRest⟩ := List.forall_mem_cons.mp plain
      cases token with
      | separator => exact absurd rfl notSeparator
      | bar => exact absurd rfl notBar
      | empty => exact .empty (ih plainRest)
      | word word => exact .word (ih plainRest)

theorem alternative_iff :
    Alternative tokens body ↔ ∃ text, Run tokens text ∧ Body.Spells text body := by
  simp only [Alternative, run_iff]
  refine ⟨fun h => ⟨_, ⟨h.1, rfl⟩, h.2⟩, fun h => ?_⟩
  obtain ⟨_, ⟨plain, rfl⟩, spelled⟩ := h
  exact ⟨plain, spelled⟩

/-- Tokens are a choice if they are alternatives with bars between them. -/
theorem choice_iff : Choice tokens bodies ↔ ∃ alternatives : List (List Token),
    alternatives ≠ [] ∧ tokens = [.bar].intercalate alternatives ∧
      List.Forall₂ Alternative alternatives bodies := by
  refine ⟨fun choice => ?_, fun h => ?_⟩
  · induction choice with
    | last run spelled =>
      have first := alternative_iff.mpr ⟨_, run, spelled⟩
      exact ⟨[_], List.cons_ne_nil _ _, List.intercalate_singleton.symm, .cons first .nil⟩
    | more run spelled _ ih =>
      have first := alternative_iff.mpr ⟨_, run, spelled⟩
      obtain ⟨alternatives, some, rfl, rest⟩ := ih
      obtain ⟨second, others, rfl⟩ := List.exists_cons_of_ne_nil some
      refine ⟨_ :: second :: others, List.cons_ne_nil _ _, ?_, .cons first rest⟩
      rw [List.intercalate_cons_cons, List.append_assoc, List.singleton_append]
  · obtain ⟨alternatives, some, rfl, each⟩ := h
    induction each with
    | nil => exact absurd rfl some
    | @cons first body others bodies spelled each ih =>
      obtain ⟨text, run, spelled⟩ := alternative_iff.mp spelled
      cases others with
      | nil =>
        cases each
        rw [List.intercalate_singleton]
        exact .last run spelled
      | cons second others =>
        rw [List.intercalate_cons_cons, List.append_assoc, List.singleton_append]
        exact .more run spelled (ih (List.cons_ne_nil _ _))

/-- A line is read as a rule exactly if, without its comment and apart from blanks, it is
the rule's nonterminal, a separator and the rule's alternatives in order, with bars between
them. -/
theorem read_eq_ok_iff_format (line : List Char) (rule : Rule) :
    Rule.read line = .ok rule ↔ ∃ alternatives : List (List Token),
      Token.Line (Text.stripComment line)
        (.word rule.head :: .separator :: [.bar].intercalate alternatives) ∧
      isNonterminal rule.head ∧ alternatives ≠ [] ∧
      List.Forall₂ Alternative alternatives rule.bodies := by
  rw [read_eq_ok, Line]
  simp only [choice_iff]
  refine ⟨fun h => ?_, fun h => ?_⟩
  · obtain ⟨_, named, ⟨alternatives, some, rfl, each⟩, spelled⟩ := h
    exact ⟨alternatives, spelled, named, some, each⟩
  · obtain ⟨alternatives, spelled, named, some, each⟩ := h
    exact ⟨_, named, ⟨alternatives, some, rfl, each⟩, spelled⟩

end Rule

/-! ## A terminal in quotes -/

theorem Token.read_headed (rest : List Char) :
    read ("S -> ".toList ++ rest) =
      (.word ['S'] :: ·) <$> (.separator :: ·) <$> read rest := by
  have arrow : read (' ' :: '-' :: '>' :: ' ' :: rest) = (.separator :: ·) <$> read rest := by
    rw [read_blank rfl, read_arrow, read_blank rfl]
  have word := @read_word ['S'] (' ' :: '-' :: '>' :: ' ' :: rest) (List.cons_ne_nil _ _) rfl
    not_joins_blank
  rw [arrow] at word
  exact word

section

variable {quote : Char} {text : List Char}

theorem ne_of_isQuote {c : Char} (quotes : Token.isQuote quote) (other : Token.isQuote c = false) :
    c ≠ quote := by
  rintro rfl
  rw [other] at quotes
  cases quotes

/-- A line with a rule for `S` that has a quoted text as its only alternative. -/
def quotedRule (quote : Char) (text : List Char) : List Char :=
  "S -> ".toList ++ (quote :: text ++ [quote])

theorem isRuleLine_quotedRule : Text.isRuleLine (quotedRule quote text) :=
  @Text.isRuleLine_of_mem _ 'S' List.mem_cons_self rfl

variable (quotes : Token.isQuote quote)

include quotes

/-- A character that stands neither before the quotes nor between them. -/
theorem not_mem_quotedRule {c : Char} (notHead : c ∉ "S -> ".toList)
    (other : Token.isQuote c = false) (absent : c ∉ text) : c ∉ quotedRule quote text := by
  intro mem
  rcases List.mem_append.mp mem with head | quoted
  · exact notHead head
  · rcases List.mem_append.mp quoted with opened | closed
    · rcases List.mem_cons.mp opened with same | inside
      · exact ne_of_isQuote quotes other same
      · exact absent inside
    · exact ne_of_isQuote quotes other (List.mem_singleton.mp closed)

variable (unquoted : quote ∉ text)

include unquoted

/-- Between quotes a terminal may have any character but an uppercase letter and a semicolon. -/
theorem Rule.read_quotedRule (nonempty : text ≠ []) (lower : ∀ c ∈ text, ¬ c.isUpper)
    (uncommented : ';' ∉ text) :
    Rule.read (quotedRule quote text) = .ok ⟨['S'], [.terminal text]⟩ := by
  have whole : Text.stripComment (quotedRule quote text) = quotedRule quote text := by
    refine Text.stripComment_eq_self fun c mem => ?_
    rintro rfl
    exact not_mem_quotedRule quotes (by decide) rfl uncommented mem
  have tokens : Token.read (quotedRule quote text) = .ok [.word ['S'], .separator, .word text] := by
    have word : Token.quoted text = .word text := if_neg nonempty
    show Token.read ("S -> ".toList ++ (quote :: text ++ [quote])) = _
    rw [Token.read_headed, Token.read_quoted quotes unquoted, Token.read, word]
    rfl
  have choice : Rule.Choice [.word text] [.terminal text] := by
    have run : Rule.Run [.word text] (text ++ []) := .word .nil
    rw [List.append_nil] at run
    exact .last run (.terminal nonempty lower)
  rw [Rule.read_of_tokens (whole.symm ▸ tokens)]
  exact Rule.ofTokens_eq_ok.mpr ⟨_, rfl, rfl, choice⟩

/-- A semicolon begins a comment, also between quotes, and then the quotes do not match. -/
theorem Rule.read_quotedRule_of_commented (commented : ';' ∈ text) :
    Rule.read (quotedRule quote text) = .error .unmatchedQuote := by
  obtain ⟨before, after, rfl, uncommented⟩ := List.eq_append_cons_of_mem commented
  have cut : Text.stripComment (quotedRule quote (before ++ ';' :: after)) =
      "S -> ".toList ++ quote :: before := by
    have shown : ';' ∉ "S -> ".toList ++ quote :: before := by
      refine fun mem => not_mem_quotedRule quotes (by decide) rfl uncommented ?_
      rcases List.mem_append.mp mem with head | opened
      · exact List.mem_append_left _ head
      · exact List.mem_append_right _ (List.mem_append_left _ opened)
    have split : quotedRule quote (before ++ ';' :: after) =
        ("S -> ".toList ++ quote :: before) ++ ';' :: (after ++ [quote]) := by
      show "S -> ".toList ++ (quote :: (before ++ ';' :: after) ++ [quote]) = _
      simp only [List.cons_append, List.append_assoc]
    rw [split, Text.stripComment_append_comment shown]
  have unclosed : quote ∉ before := fun mem => unquoted (List.mem_append_left _ mem)
  rw [Rule.read, cut, Token.read_headed, Token.read_unmatched quotes unclosed]
  rfl

end

namespace Grammar

section

variable {quote : Char} {text : List Char} (quotes : Token.isQuote quote) (nonempty : text ≠ [])
  (plain : ∀ c ∈ text, c ≠ '\n' ∧ c ≠ quote ∧ ¬ c.isUpper)

include quotes plain

include nonempty in
theorem read_quotedRule (uncommented : ';' ∉ text) :
    read (quotedRule quote text) = .ok (ofLines [⟨['S'], [.terminal text]⟩]) := by
  have unquoted : quote ∉ text := fun mem => (plain quote mem).2.1 rfl
  have oneLine : '\n' ∉ quotedRule quote text :=
    not_mem_quotedRule quotes (by decide) rfl fun mem => (plain _ mem).1 rfl
  have isRead := Rule.read_quotedRule quotes unquoted nonempty (fun c mem => (plain c mem).2.2)
    uncommented
  exact read_eq_ok.mpr ⟨_, holds_singleton isRead isRuleLine_quotedRule oneLine, rfl⟩

theorem read_quotedRule_of_commented (commented : ';' ∈ text) :
    read (quotedRule quote text) = .error [⟨1, .unmatchedQuote⟩] := by
  have unquoted : quote ∉ text := fun mem => (plain quote mem).2.1 rfl
  have oneLine : '\n' ∉ quotedRule quote text :=
    not_mem_quotedRule quotes (by decide) rfl fun mem => (plain _ mem).1 rfl
  have refused := Rule.read_quotedRule_of_commented quotes unquoted commented
  have faults := faultsOf_singleton refused isRuleLine_quotedRule oneLine
  exact eq_error_of_faultsIn ((faultsIn_read _).trans faults) (List.cons_ne_nil _ _)

end

/-- Quotes protect every text without a line feed, the quote itself and an uppercase letter:
it is the only alternative of its rule, as it stands. The one exception is a text with a
`;`, for which the quote is unmatched. -/
theorem read_quoted_terminal {quote : Char} {text : List Char} (quotes : Token.isQuote quote)
    (nonempty : text ≠ []) (plain : ∀ c ∈ text, c ≠ '\n' ∧ c ≠ quote ∧ ¬ c.isUpper) :
    (';' ∉ text → ∃ G, read ("S -> ".toList ++ (quote :: text ++ [quote])) = .ok G ∧
      G.start = ['S'] ∧ G.bodies ['S'] = [.terminal text]) ∧
    (';' ∈ text → read ("S -> ".toList ++ (quote :: text ++ [quote])) =
      .error [⟨1, .unmatchedQuote⟩]) := by
  refine ⟨fun uncommented => ?_, fun commented => ?_⟩
  · have bodies : (ofLines [⟨['S'], [.terminal text]⟩]).bodies ['S'] = [.terminal text] := by
      simp [ofLines, Rule.gathered, bodies_ofRules]
    exact ⟨_, read_quotedRule quotes nonempty plain uncommented, rfl, bodies⟩
  · exact read_quotedRule_of_commented quotes plain commented

/-- Signs of the format, a letter that is uppercase outside of ASCII, and a comment sign. -/
theorem read_quoted_terminal_of_signs :
    let text := "É|b -> \"ε= ".toList
    Token.isQuote '\x27' ∧ text ≠ [] ∧ (∀ c ∈ text, c ≠ '\n' ∧ c ≠ '\x27' ∧ ¬ c.isUpper) ∧
      ';' ∉ text ∧ (∃ G, read "S -> 'É|b -> \"ε= '".toList = .ok G ∧ G.start = ['S'] ∧
        G.bodies ['S'] = [.terminal text]) ∧
      read "S -> 'É|b -> \"ε= ;'".toList = .error [⟨1, .unmatchedQuote⟩] := by
  intro text
  have plain : ∀ c ∈ text ++ [';'], c ≠ '\n' ∧ c ≠ '\x27' ∧ ¬ c.isUpper :=
    List.all_iff_forall_prop.mp (by decide)
  have plainText : ∀ c ∈ text, c ≠ '\n' ∧ c ≠ '\x27' ∧ ¬ c.isUpper := fun c mem =>
    plain c (List.mem_append_left _ mem)
  have nonempty : text ≠ [] := List.cons_ne_nil _ _
  have uncommented : ';' ∉ text := by decide
  have wholeLine : "S -> 'É|b -> \"ε= '".toList =
      "S -> ".toList ++ ('\x27' :: text ++ ['\x27']) := by decide
  have cutLine : "S -> 'É|b -> \"ε= ;'".toList =
      "S -> ".toList ++ ('\x27' :: (text ++ [';']) ++ ['\x27']) := by decide
  have whole := @read_quoted_terminal '\x27' text rfl nonempty plainText
  have cut := @read_quoted_terminal '\x27' (text ++ [';']) rfl
    (List.append_ne_nil_of_left_ne_nil nonempty _) plain
  rw [wholeLine, cutLine]
  exact ⟨rfl, nonempty, plainText, uncommented, whole.1 uncommented,
    cut.2 (List.mem_append_right _ List.mem_cons_self)⟩

/-- A `;` in quotes is no terminal: the rest of its line is taken for a comment. -/
theorem not_read_of_quoted_semicolon :
    Token.isQuote '\x27' ∧ [';'] ≠ [] ∧ (∀ c ∈ [';'], c ≠ '\n' ∧ c ≠ '\x27' ∧ ¬ c.isUpper) ∧
      read "S -> ';'".toList = .error [⟨1, .unmatchedQuote⟩] ∧
      ¬ ∃ G, read "S -> ';'".toList = .ok G ∧ G.bodies ['S'] = [.terminal [';']] := by
  have plain : ∀ c ∈ [';'], c ≠ '\n' ∧ c ≠ '\x27' ∧ ¬ c.isUpper :=
    List.all_iff_forall_prop.mp (by decide)
  have refused : read "S -> ';'".toList = .error [⟨1, .unmatchedQuote⟩] :=
    @read_quotedRule_of_commented '\x27' [';'] rfl plain List.mem_cons_self
  refine ⟨rfl, List.cons_ne_nil _ _, plain, refused, ?_⟩
  rintro ⟨G, isRead, _⟩
  rw [refused] at isRead
  cases isRead

end Grammar

end RightLinear
