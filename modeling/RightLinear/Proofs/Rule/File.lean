import RightLinear.Proofs.Grammar.Rules
import RightLinear.Proofs.Rule.Spelling
import RightLinear.Rule.File

/-!
# What a grammar file holds

A grammar that was read has more to it than one that was put together: terminals are
not empty, hold no uppercase letter and no `;`, and nonterminals that are continued
with are names. A text also cannot hold less than its alternatives take, whichever
characters are counted. That bounds the number of states that the grammar needs: the
text is longer than all its terminals, with one character to spare for each
alternative.

* `Weighing`, `Holds.weight_le`: what alternatives take of their text.
* `Grammar.read_eq_ok`: the grammar of a text, by its rules.
* `Grammar.FromFile`, `Grammar.fromFile_of_read`: what is known of that grammar.
-/

namespace RightLinear

/-! ## The characters of a line -/

/-- The characters of a word that is read stand in its text, quoted or not. -/
theorem Token.Spells.mem {text word : List Char} {c : Char} (spells : Spells text (.word word))
    (mem : c ∈ word) : c ∈ text := by
  generalize isWord : Token.word word = token at spells
  cases spells with
  | @quoted quote text _ _ =>
    rw [Token.quoted] at isWord
    split at isWord
    · cases isWord
    · cases isWord
      exact List.mem_append_left _ (List.mem_cons_of_mem _ mem)
  | word _ _ =>
    cases isWord
    exact mem
  | _ => cases isWord

section

variable {line : List Char} {tokens : List Token}

theorem Token.Line.mem (spelled : Line line tokens) {word : List Char} {c : Char}
    (listed : .word word ∈ tokens) (mem : c ∈ word) : c ∈ line := by
  induction spelled with
  | nil => cases listed
  | blank _ _ ih => exact List.mem_cons_of_mem _ (ih listed)
  | token spells _ _ ih =>
    rcases List.mem_cons.mp listed with rfl | later
    · exact List.mem_append_left _ (spells.mem mem)
    · exact List.mem_append_right _ (ih later)

end

/-! ## The alternatives of a line -/

theorem Body.Spells.mem {text : List Char} {body : Body} {c : Char} (spelled : Spells text body)
    (mem : c ∈ body.text) : c ∈ text := by
  cases spelled with
  | empty => exact mem
  | terminal _ _ => exact mem
  | continued _ _ _ => exact List.mem_append_left _ mem

theorem Body.Spells.not_isUpper {text : List Char} {body : Body} (spelled : Spells text body) :
    ∀ c ∈ body.text, ¬ c.isUpper := by
  cases spelled with
  | empty => exact fun _ none => absurd none List.not_mem_nil
  | terminal _ lower => exact lower
  | continued _ lower _ => exact lower

namespace Rule

variable {tokens : List Token} {text : List Char} {bodies : List Body} {c : Char}

/-- A character of a joined text is from one of its words. -/
theorem Run.mem (run : Run tokens text) (mem : c ∈ text) :
    ∃ word, .word word ∈ tokens ∧ c ∈ word := by
  induction run with
  | nil => cases mem
  | empty _ ih =>
    obtain ⟨word, listed, mem⟩ := ih mem
    exact ⟨word, List.mem_cons_of_mem _ listed, mem⟩
  | @word first _ _ _ ih =>
    rcases List.mem_append.mp mem with here | later
    · exact ⟨first, List.mem_cons_self, here⟩
    · obtain ⟨word, listed, mem⟩ := ih later
      exact ⟨word, List.mem_cons_of_mem _ listed, mem⟩

theorem Choice.ne_nil (choice : Choice tokens bodies) : bodies ≠ [] := by
  cases choice with
  | last _ _ => exact List.cons_ne_nil _ _
  | more _ _ _ => exact List.cons_ne_nil _ _

/-- Each alternative is spelled, in characters of the words. -/
theorem Choice.spelled (choice : Choice tokens bodies) {body : Body} (mem : body ∈ bodies) :
    ∃ text, Body.Spells text body ∧ ∀ c ∈ text, ∃ word, .word word ∈ tokens ∧ c ∈ word := by
  induction choice with
  | last run spelled =>
    obtain rfl := List.mem_singleton.mp mem
    exact ⟨_, spelled, fun c => run.mem⟩
  | more run spelled _ ih =>
    rcases List.mem_cons.mp mem with rfl | later
    · refine ⟨_, spelled, fun c inText => ?_⟩
      obtain ⟨word, listed, inWord⟩ := run.mem inText
      exact ⟨word, List.mem_append_left _ listed, inWord⟩
    · obtain ⟨text, spelled, known⟩ := ih later
      refine ⟨text, spelled, fun c inText => ?_⟩
      obtain ⟨word, listed, inWord⟩ := known c inText
      exact ⟨word, List.mem_append_right _ (List.mem_cons_of_mem _ listed), inWord⟩

variable {line : List Char} {rule : Rule}

theorem Line.named (spelled : Line line rule) : isNonterminal rule.head := by
  obtain ⟨_, named, _⟩ := spelled
  exact named

theorem Line.ne_nil (spelled : Line line rule) : rule.bodies ≠ [] := by
  obtain ⟨_, _, choice, _⟩ := spelled
  exact choice.ne_nil

/-- Each alternative is spelled, in characters of the line. -/
theorem Line.spelled (spelled : Line line rule) {body : Body} (mem : body ∈ rule.bodies) :
    ∃ text, Body.Spells text body ∧ ∀ c ∈ text, c ∈ line := by
  obtain ⟨tokens, _, choice, spelled⟩ := spelled
  obtain ⟨text, spelledBody, known⟩ := choice.spelled mem
  refine ⟨text, spelledBody, fun c inText => ?_⟩
  obtain ⟨word, listed, inWord⟩ := known c inText
  exact spelled.mem (List.mem_cons_of_mem _ (List.mem_cons_of_mem _ listed)) inWord

/-- The alternatives of rules, in order. -/
def gathered (rules : List Rule) : List (Name × Body) :=
  rules.flatMap fun rule => rule.bodies.map (rule.head, ·)

theorem mem_gathered {rules : List Rule} {name : Name} {body : Body} :
    (name, body) ∈ gathered rules ↔ ∃ rule ∈ rules, rule.head = name ∧ body ∈ rule.bodies := by
  simp only [gathered, List.mem_flatMap, List.mem_map, Prod.mk.injEq]
  refine exists_congr fun rule => and_congr_right fun _ => ⟨fun h => ?_, fun h => ?_⟩
  · obtain ⟨_, mem, rfl, rfl⟩ := h
    exact ⟨rfl, mem⟩
  · obtain ⟨rfl, mem⟩ := h
    exact ⟨body, mem, rfl, rfl⟩

end Rule

/-! ## What alternatives take of their text -/

/-- What a token weighs: a word by its characters, all other tokens the same. -/
def Token.weight (word : List Char → Nat) (sign : Nat) : Token → Nat
  | .word text => word text
  | _ => sign

/-- Some characters count, and no token weighs more than its spelling counts. -/
structure Weighing where
  counts : Char → Bool
  /-- The weight of a word. -/
  word : List Char → Nat
  /-- The weight of a token that is no word. -/
  sign : Nat
  word_nil : word [] = 0
  le_word_append (before after : List Char) : word before ≤ word (before ++ after)
  word_append_le (before after : List Char) : word (before ++ after) ≤ word before + word after
  spells {text : List Char} {token : Token} : Token.Spells text token →
    token.weight word sign ≤ text.countP counts

namespace Weighing

variable (weighing : Weighing) {line text : List Char} {tokens : List Token}

/-- The weight of a token. -/
def token : Token → Nat := Token.weight weighing.word weighing.sign

/-- The weight of an alternative and the sign before it. -/
def body (body : Body) : Nat := weighing.sign + weighing.word body.text

theorem line_le (spelled : Token.Line line tokens) :
    (tokens.map weighing.token).sum ≤ line.countP weighing.counts := by
  induction spelled with
  | nil => exact Nat.le_refl 0
  | blank _ _ ih =>
    rw [List.countP_cons]
    omega
  | token spells _ _ ih =>
    have first := weighing.spells spells
    rw [List.map_cons, List.sum_cons, List.countP_append, token]
    exact Nat.add_le_add first ih

theorem run_le (run : Rule.Run tokens text) :
    weighing.word text ≤ (tokens.map weighing.token).sum := by
  induction run with
  | nil => exact Nat.le_of_eq weighing.word_nil
  | empty _ ih =>
    rw [List.map_cons, List.sum_cons]
    omega
  | word _ ih =>
    rw [List.map_cons, List.sum_cons, token, Token.weight]
    exact Nat.le_trans (weighing.word_append_le _ _) (Nat.add_le_add_left ih _)

theorem body_le {body : Body} (spelled : Body.Spells text body) :
    weighing.body body ≤ weighing.sign + weighing.word text := by
  cases spelled with
  | empty => exact Nat.le_refl _
  | terminal _ _ => exact Nat.le_refl _
  | continued _ _ _ => exact Nat.add_le_add_left (weighing.le_word_append _ _) _

/-- The alternatives of a line weigh no more than its tokens and one sign. -/
theorem choice_le {bodies : List Body} (choice : Rule.Choice tokens bodies) :
    (bodies.map weighing.body).sum ≤ weighing.sign + (tokens.map weighing.token).sum := by
  induction choice with
  | last run spelled =>
    have taken := weighing.run_le run
    have first := weighing.body_le spelled
    rw [List.map_singleton, List.sum_singleton]
    omega
  | more run spelled _ ih =>
    have taken := weighing.run_le run
    have first := weighing.body_le spelled
    have bar : weighing.token .bar = weighing.sign := rfl
    rw [List.map_cons, List.sum_cons, List.map_append, List.sum_append, List.map_cons,
      List.sum_cons]
    omega

theorem rule_le {rule : Rule} (spelled : Rule.Line line rule) :
    (rule.bodies.map weighing.body).sum ≤ line.countP weighing.counts := by
  obtain ⟨tokens, _, choice, spelled⟩ := spelled
  have taken := weighing.choice_le choice
  have whole := weighing.line_le spelled
  have separator : weighing.token .separator = weighing.sign := rfl
  rw [List.map_cons, List.map_cons, List.sum_cons, List.sum_cons] at whole
  omega

theorem sum_gathered (rules : List Rule) :
    ((Rule.gathered rules).map fun rule => weighing.body rule.2).sum =
      (rules.map fun rule => (rule.bodies.map weighing.body).sum).sum := by
  rw [Rule.gathered, List.map_flatMap, List.flatMap_def, List.sum_flatten, List.map_map]
  simp only [Function.comp_def, List.map_map]

end Weighing

/-! ## The rules of a file -/

open Text (stripComment)

namespace Holds

variable {text : List Char} {rules : List Rule} {rule : Rule}

theorem exists_spelling (holds : Holds Rule.read text rules) (mem : rule ∈ rules) :
    ∃ line, Rule.Line (stripComment line) rule := by
  obtain ⟨line, _, isRead⟩ := holds.exists_line mem
  exact ⟨line, Rule.read_eq_ok.mp isRead⟩

theorem named (holds : Holds Rule.read text rules) :
    ∀ entry ∈ Rule.gathered rules, isNonterminal entry.1 := by
  intro entry mem
  obtain ⟨rule, inRules, same, _⟩ := Rule.mem_gathered.mp mem
  obtain ⟨line, spelled⟩ := holds.exists_spelling inRules
  rw [← same]
  exact spelled.named

/-- The alternatives of a text weigh no more than the text counts. -/
theorem weight_le (weighing : Weighing) (holds : Holds Rule.read text rules) :
    ((Rule.gathered rules).map fun rule => weighing.body rule.2).sum ≤
      text.countP weighing.counts := by
  rw [weighing.sum_gathered]
  refine holds.sum_le fun isRead => ?_
  exact Nat.le_trans (weighing.rule_le (Rule.read_eq_ok.mp isRead))
    (Text.countP_stripComment_le weighing.counts _)

end Holds

/-! ## The number of characters -/

/-- All characters count. -/
def Weighing.length : Weighing where
  counts _ := true
  word := List.length
  sign := 1
  word_nil := rfl
  le_word_append := fun before after => (List.prefix_append before after).length_le
  word_append_le := fun _ _ => Nat.le_of_eq List.length_append
  spells := by
    intro text token spells
    rw [List.countP_true]
    cases spells with
    | arrow => decide
    | equals => decide
    | bar => decide
    | epsilon => decide
    | @quoted quote text _ _ =>
      rw [Token.quoted, List.length_append, List.length_cons]
      split
      · exact Nat.le_add_left 1 _
      · rw [Token.weight]
        omega
    | word _ _ => exact Nat.le_refl _

/-- The least number of characters that an alternative and the sign before it
take. -/
def Body.size (body : Body) : Nat := 1 + body.text.length

/-! ## The grammar of a file -/

namespace Grammar

variable {text : List Char} {G : Grammar}

/-- The grammar that rules make: it starts with the first of them. -/
def ofLines : List Rule → Grammar
  | [] => emptyWord
  | first :: rest => ofRules first.head (Rule.gathered (first :: rest))

/-- The lines on which the rules of a file stand do not show in its grammar. -/
theorem grammar_eq_ofLines (file : GrammarFile) :
    file.grammar = ofLines (file.rules.map Text.Numbered.item) := by
  obtain ⟨rules⟩ := file
  cases rules with
  | nil => rfl
  | cons first rest =>
    rw [GrammarFile.grammar, GrammarFile.alternatives, List.map_cons, ofLines, Rule.gathered,
      ← List.map_cons, List.flatMap_map]

/-- The grammar of a text is the one that its rules make. -/
theorem read_eq_ok :
    read text = .ok G ↔ ∃ rules, Holds Rule.read text rules ∧ G = ofLines rules := by
  rw [read, map_eq_ok]
  refine ⟨fun h => ?_, fun h => ?_⟩
  · obtain ⟨file, isRead, rfl⟩ := h
    obtain ⟨items, linesRead, rfl⟩ := map_eq_ok.mp isRead
    exact ⟨_, exists_readLines_iff.mp ⟨items, linesRead, rfl⟩, grammar_eq_ofLines ⟨items⟩⟩
  · obtain ⟨rules, holds, rfl⟩ := h
    obtain ⟨items, isRead, rfl⟩ := exists_readLines_iff.mpr holds
    exact ⟨⟨items⟩, map_eq_ok.mpr ⟨items, isRead, rfl⟩, grammar_eq_ofLines ⟨items⟩⟩

theorem faultsIn_read (text : List Char) : faultsIn (read text) = faultsOf Rule.read text := by
  rw [read, faultsIn_map, GrammarFile.read, faultsIn_map, faultsIn_readLines]

section

variable (isRead : read text = .ok G)

include isRead

/-- The alternatives of a grammar are those of its text, or there is only an empty
one. -/
theorem rules_perm_of_read : G.rules = [(['S'], .empty)] ∨
    ∃ rules, Holds Rule.read text rules ∧ G.rules.Perm (Rule.gathered rules) := by
  obtain ⟨rules, holds, rfl⟩ := read_eq_ok.mp isRead
  cases rules with
  | nil => exact Or.inl rfl
  | cons first rest =>
    refine Or.inr ⟨_, holds, rules_ofRules_perm fun entry mem => ?_⟩
    exact ne_nil_of_isNonterminal (holds.named entry mem)

theorem isNonterminal_of_read : ∀ p ∈ G.productions, isNonterminal p.left := by
  intro p mem
  obtain ⟨body, inBodies⟩ := List.exists_mem_of_ne_nil _ (G.bodies_ne_nil p mem)
  have listed := mem_rules_of_mem_productions mem inBodies
  rcases rules_perm_of_read isRead with single | ⟨rules, holds, perm⟩
  · rw [single, List.mem_singleton] at listed
    rw [(Prod.mk.inj listed).1]
    rfl
  · exact holds.named _ (perm.mem_iff.mp listed)

theorem head?_nonterminals_of_read : G.nonterminals.head? = some G.start := by
  obtain ⟨rules, holds, rfl⟩ := read_eq_ok.mp isRead
  cases rules with
  | nil => rfl
  | cons first rest =>
    obtain ⟨line, spelled⟩ := holds.exists_spelling List.mem_cons_self
    obtain ⟨body, others, bodies⟩ := List.exists_cons_of_ne_nil spelled.ne_nil
    rw [ofLines, head?_nonterminals_ofRules fun entry mem =>
      ne_nil_of_isNonterminal (holds.named entry mem), start_ofRules, Rule.gathered,
      List.flatMap_cons, bodies]
    rfl

/-- The alternatives of a grammar weigh no more than its text counts, or there is only an
empty one. -/
theorem weight_rules_le (weighing : Weighing) :
    (G.rules.map fun rule => weighing.body rule.2).sum ≤
      max weighing.sign (text.countP weighing.counts) := by
  rcases rules_perm_of_read isRead with single | ⟨rules, holds, perm⟩
  · have empty : weighing.body .empty = weighing.sign :=
      Nat.add_eq_left.mpr weighing.word_nil
    rw [single, List.map_singleton, List.sum_singleton, empty]
    exact Nat.le_max_left _ _
  · rw [(perm.map _).sum_nat]
    exact Nat.le_trans (holds.weight_le weighing) (Nat.le_max_right _ _)

end

/-- What is known of a grammar that was read from a text. -/
structure FromFile (G : Grammar) (text : List Char) : Prop where
  /-- Alternatives are such as can be spelled in characters that are no comment. -/
  spelled : ∀ rule ∈ G.rules, ∃ word, Body.Spells word rule.2 ∧ ∀ c ∈ word, c ≠ ';'
  /-- The alternatives are shorter than the text, or there is only an empty one. -/
  size : (G.rules.map fun rule => rule.2.size).sum ≤ max 1 text.length
  /-- The start symbol has an alternative. -/
  starts : G.bodies G.start ≠ []

/-- A grammar that is read is spelled in the text, so what it is made of is found there. -/
theorem fromFile_of_read (isRead : read text = .ok G) : G.FromFile text where
  spelled := by
    intro rule mem
    rcases rules_perm_of_read isRead with single | ⟨rules, holds, perm⟩
    · rw [single, List.mem_singleton] at mem
      rw [mem]
      exact ⟨[], .empty, fun _ none => absurd none List.not_mem_nil⟩
    · obtain ⟨head, inRules, _, inBodies⟩ := Rule.mem_gathered.mp (perm.mem_iff.mp mem)
      obtain ⟨line, spelled⟩ := holds.exists_spelling inRules
      obtain ⟨word, spelled, known⟩ := spelled.spelled inBodies
      exact ⟨word, spelled, fun c mem => Text.ne_semicolon_of_mem_stripComment (known c mem)⟩
  size := by
    have weight := weight_rules_le isRead .length
    rw [show List.countP Weighing.length.counts = List.length from List.countP_true] at weight
    exact weight
  starts := bodies_ne_nil_of_mem_nonterminals
    (List.mem_of_mem_head? (head?_nonterminals_of_read isRead))

/-! ## A quoted sign -/

/-- The terminals `a` and a sign, as alternatives of `S`. -/
def orSign (c : Char) : Rule := ⟨['S'], [.terminal ['a'], .terminal [c]]⟩

/-- The sign is quoted in the rule's line. -/
theorem tells_orSign {c : Char} (plain : c ∉ ['\n', '\r', ';', '\x27']) (lower : ¬ c.isUpper) :
    Tells Rule.read ("S -> a | '".toList ++ [c, '\x27']) (orSign c) := by
  simp only [List.mem_cons, List.not_mem_nil, or_false, not_or] at plain
  obtain ⟨notFeed, notReturn, uncommented, unquoted⟩ := plain
  have other : ∀ {d : Char}, d ∉ "S -> a | '".toList → c ≠ d → d ≠ '\x27' →
      ∀ e ∈ "S -> a | '".toList ++ [c, '\x27'], e ≠ d := by
    rintro d notFirst different notQuote e mem rfl
    rcases List.mem_append.mp mem with first | last
    · exact notFirst first
    · simp only [List.mem_cons, List.not_mem_nil, or_false] at last
      rcases last with rfl | rfl
      · exact different rfl
      · exact notQuote rfl
  have letter : ∀ {d : Char}, d.isAlphanum → Token.Spells [d] (.word [d]) := fun alphanumeric =>
    .word (List.cons_ne_nil _ _) (by rw [List.all_cons, alphanumeric]; rfl)
  have quoted : Token.Spells ('\x27' :: [c] ++ ['\x27']) (.word [c]) :=
    .quoted rfl (by simpa [eq_comm] using unquoted)
  have bar := Token.Line.token .bar Token.not_joins_blank
    (.blank rfl (.token quoted Token.not_joins_nil .nil))
  have first := Token.Line.token (letter (d := 'a') rfl) Token.not_joins_blank (.blank rfl bar)
  have arrow := Token.Line.token .arrow Token.not_joins_blank (.blank rfl first)
  have line := Token.Line.token (letter (d := 'S') rfl) Token.not_joins_blank (.blank rfl arrow)
  have terminal : ∀ {d : Char}, ¬ d.isUpper → Body.Spells [d] (.terminal [d]) := by
    refine fun lower => .terminal (List.cons_ne_nil _ _) fun e mem => ?_
    rw [List.mem_singleton.mp mem]
    exact lower
  have choice : Rule.Choice ([.word ['a']] ++ .bar :: [.word [c]]) (orSign c).bodies :=
    .more (.word .nil) (terminal (by decide)) (.last (.word .nil) (terminal lower))
  refine ⟨?_, ?_, fun e mem => ⟨other (by decide) notFeed (by decide) e mem,
    other (by decide) notReturn (by decide) e mem⟩⟩
  · rw [Rule.read_eq_ok, Text.stripComment_eq_self (other (by decide) uncommented (by decide))]
    exact ⟨_, rfl, choice, line⟩
  · rfl

theorem read_orSign {c : Char} (plain : c ∉ ['\n', '\r', ';', '\x27']) (lower : ¬ c.isUpper) :
    read ("S -> a | '".toList ++ [c, '\x27', '\n']) = .ok (ofLines [orSign c]) :=
  read_eq_ok.mpr ⟨_, holds_flatMap (.cons (tells_orSign plain lower) .nil), rfl⟩

end Grammar

end RightLinear
