import RightLinear.Proofs.Grammar.Walk
import RightLinear.Proofs.Rule.File

/-!
# Nonterminals that head no rule

A file that uses a nonterminal without a rule is accepted with a notice for each use. The
notices look for a production in the finished grammar, so rules may come in any order and
may be repeated: a nonterminal has a production if some line is for it, since every rule
has an alternative. Whoever needs the alternatives of a nonterminal, to write them out or
to choose from them, comes to it from the start symbol, which heads a rule, and along
alternatives. So a file without such notices gives nobody reason to complain of an
undefined nonterminal.

* `heads`, `strayUses`: what the lines of a text say about it.
* `Grammar.mem_undefinedNonterminals`, `Grammar.bodies_ne_nil_of_leads`: what the grammar says.
* `GrammarFile.notices_of_read`: the notices, and what it means if there are none.
-/

namespace RightLinear

open Text (Numbered)

/-- Whether some rule line of a text is for the nonterminal. -/
def heads (text : List Char) (name : Name) : Bool :=
  (itemsOf Rule.read text).any fun rule => rule.item.head = name

/-- The alternatives of a text that continue with a nonterminal that heads no rule line,
line by line: each as this nonterminal on its line. -/
def strayUses (text : List Char) : List (Numbered Name) :=
  (itemsOf Rule.read text).flatMap fun rule => rule.item.bodies.filterMap fun body =>
    (body.continuation?.filter fun name => !heads text name).map (⟨rule.line, ·⟩)

/-- The notice of the use of a nonterminal that heads no rule. -/
def Notice.stray (use : Numbered Name) : Notice :=
  .questioned ⟨use.line, .undefinedNonterminal use.item⟩

/-! ## Undefined nonterminals of a grammar -/

namespace Grammar

variable {G : Grammar} {name : Name}

theorem mem_undefinedNonterminals :
    name ∈ G.undefinedNonterminals ↔ G.bodies name = [] ∧ ∃ left, G.Continues left name := by
  simp only [undefinedNonterminals, List.mem_eraseDups, List.mem_filter, List.mem_filterMap,
    Prod.exists, mem_rules, Bool.not_eq_true', ← bodies_eq_nil_iff, continues_iff]
  exact and_comm

/-- If every nonterminal that is used has alternatives, so has every nonterminal that the
start symbol leads to. -/
theorem bodies_ne_nil_of_leads (starts : G.bodies G.start ≠ [])
    (none : G.undefinedNonterminals = []) (leads : G.Leads G.start name) :
    G.bodies name ≠ [] := by
  rcases Relation.ReflTransGen.cases_tail leads with rfl | ⟨left, _, continues⟩
  · exact starts
  · intro undefined
    have listed := mem_undefinedNonterminals.mpr ⟨undefined, left, continues⟩
    rw [none] at listed
    cases listed

end Grammar

/-! ## The notices of a file -/

namespace GrammarFile

variable {text : List Char} {file : GrammarFile} {name : Name}

section

variable (isRead : GrammarFile.read text = .ok file)

include isRead

theorem rules_of_read : file.rules = itemsOf Rule.read text := by
  obtain ⟨items, linesRead, rfl⟩ := map_eq_ok.mp isRead
  rw [readLines] at linesRead
  split at linesRead
  · exact (Except.ok.inj linesRead).symm
  · cases linesRead

theorem holds_of_read : Holds Rule.read text (file.rules.map Numbered.item) := by
  obtain ⟨items, linesRead, rfl⟩ := map_eq_ok.mp isRead
  exact exists_readLines_iff.mp ⟨items, linesRead, rfl⟩

theorem read_grammar : Grammar.read text = .ok file.grammar :=
  map_eq_ok.mpr ⟨file, isRead, rfl⟩

theorem mem_bodies_of_read (ruled : file.rules ≠ []) {left : Name} {body : Body} :
    body ∈ file.grammar.bodies left ↔
      ∃ rule ∈ file.rules, rule.item.head = left ∧ body ∈ rule.item.bodies := by
  have named := (holds_of_read isRead).named
  rw [Grammar.grammar_eq_ofLines]
  obtain ⟨first, rest, rules⟩ := List.exists_cons_of_ne_nil ruled
  rw [rules, List.map_cons] at named ⊢
  rw [Grammar.ofLines, Grammar.mem_bodies_ofRules fun entry mem =>
    ne_nil_of_isNonterminal (named entry mem), Rule.mem_gathered, ← List.map_cons]
  simp only [List.mem_map, exists_exists_and_eq_and]

/-- A nonterminal has a production if a rule line is for it, since every rule has an
alternative. -/
theorem defines_of_read (ruled : file.rules ≠ []) (name : Name) :
    file.grammar.defines name = heads text name := by
  rw [Bool.eq_iff_iff, ← Bool.not_eq_false, ← Grammar.bodies_eq_nil_iff, heads,
    ← rules_of_read isRead, List.any_eq_true]
  refine ⟨fun some => ?_, fun headed none => ?_⟩
  · obtain ⟨body, mem⟩ := List.exists_mem_of_ne_nil _ some
    obtain ⟨rule, inRules, same, _⟩ := (mem_bodies_of_read isRead ruled).mp mem
    exact ⟨rule, inRules, decide_eq_true same⟩
  · obtain ⟨rule, inRules, same⟩ := headed
    obtain ⟨_, spelled⟩ := (holds_of_read isRead).exists_spelling (List.mem_map_of_mem inRules)
    obtain ⟨body, mem⟩ := List.exists_mem_of_ne_nil _ spelled.ne_nil
    have inBodies := (mem_bodies_of_read isRead ruled).mpr
      ⟨rule, inRules, of_decide_eq_true same, mem⟩
    rw [none] at inBodies
    cases inBodies

/-- There is one notice for each use of a nonterminal that heads no rule line, and one if
there is no rule line. -/
theorem notices_eq : file.notices =
    (if itemsOf Rule.read text = [] then [.noRules] else []) ++
      (strayUses text).map Notice.stray := by
  have rules := rules_of_read isRead
  rw [strayUses, ← rules, notices]
  split
  · next none =>
    rw [none]
    rfl
  · next ruled =>
    rw [if_neg ruled, List.nil_append, List.map_flatMap]
    refine congrArg (fun noticed => file.rules.flatMap noticed) (funext fun rule => ?_)
    simp only [defines_of_read isRead ruled, List.filter_filterMap, List.map_filterMap,
      Option.map_map]
    rfl

/-- A stray use is an alternative of some rule that continues with a name which begins no rule. -/
theorem mem_strayUses_iff {use : Numbered Name} :
    use ∈ strayUses text ↔ heads text use.item = false ∧
      ∃ rule ∈ file.rules, rule.line = use.line ∧
        ∃ body ∈ rule.item.bodies, body.continuation? = some use.item := by
  rw [strayUses, ← rules_of_read isRead]
  simp only [List.mem_flatMap, List.mem_filterMap, Option.map_eq_some_iff,
    Option.filter_eq_some_iff, Bool.not_eq_true']
  refine ⟨fun h => ?_, fun h => ?_⟩
  · obtain ⟨rule, inRules, body, mem, name, ⟨same, stray⟩, rfl⟩ := h
    exact ⟨stray, rule, inRules, rfl, body, mem, same⟩
  · obtain ⟨stray, rule, inRules, line, body, mem, same⟩ := h
    exact ⟨rule, inRules, body, mem, use.item, ⟨same, stray⟩, by rw [line]⟩

/-- The nonterminals that are noticed are those that the grammar leaves undefined. -/
theorem exists_mem_strayUses_iff :
    (∃ line, ⟨line, name⟩ ∈ strayUses text) ↔ name ∈ file.grammar.undefinedNonterminals := by
  by_cases ruled : file.rules = []
  · have none : file.grammar.undefinedNonterminals = [] := by
      rw [grammar, ruled]
      rfl
    rw [none]
    refine iff_of_false (fun h => ?_) List.not_mem_nil
    obtain ⟨_, mem⟩ := h
    obtain ⟨_, _, inRules, _⟩ := (mem_strayUses_iff isRead).mp mem
    rw [ruled] at inRules
    cases inRules
  · rw [Grammar.mem_undefinedNonterminals, Grammar.bodies_eq_nil_iff,
      defines_of_read isRead ruled]
    simp only [mem_strayUses_iff isRead, Grammar.continues_iff, mem_bodies_of_read isRead ruled]
    refine ⟨fun h => ?_, fun h => ?_⟩
    · obtain ⟨_, stray, rule, inRules, _, body, mem, same⟩ := h
      exact ⟨stray, _, body, ⟨rule, inRules, rfl, mem⟩, same⟩
    · obtain ⟨stray, _, body, ⟨rule, inRules, _, mem⟩, same⟩ := h
      exact ⟨rule.line, stray, rule, inRules, rfl, body, mem, same⟩

/-- A file without stray uses has a grammar that leads to no undefined nonterminal. -/
theorem bodies_ne_nil_of_read (none : strayUses text = [])
    (leads : file.grammar.Leads file.grammar.start name) : file.grammar.bodies name ≠ [] := by
  refine Grammar.bodies_ne_nil_of_leads (Grammar.fromFile_of_read (read_grammar isRead)).starts
    (List.eq_nil_iff_forall_not_mem.mpr fun other undefined => ?_) leads
  obtain ⟨_, mem⟩ := (exists_mem_strayUses_iff isRead).mpr undefined
  rw [none] at mem
  cases mem

end

/-- A file is accepted with one notice for each alternative that continues with a
nonterminal that heads no rule line, in order; these are the undefined nonterminals of the
grammar. Without any, neither writing the grammar out nor a random derivation fails for an
undefined nonterminal. -/
theorem notices_of_read (isRead : GrammarFile.read text = .ok file) :
    let G := file.grammar
    file.notices = (if itemsOf Rule.read text = [] then [.noRules] else []) ++
      (strayUses text).map Notice.stray ∧
    (∀ name, (∃ line, ⟨line, name⟩ ∈ strayUses text) ↔ name ∈ G.undefinedNonterminals) ∧
    (strayUses text = [] →
      (∀ engine name, G.toPattern engine ≠ .error (.undefinedNonterminal name)) ∧
      ∀ budget draws name,
        (G.sampleWord G.start budget draws).1 ≠ .error (.undefinedNonterminal name)) := by
  intro G
  refine ⟨notices_eq isRead, fun name => exists_mem_strayUses_iff isRead, fun none =>
    ⟨fun engine name failed => ?_, fun budget draws name failed => ?_⟩⟩
  · rcases Grammar.expand_cases engine G with ⟨n, undefined, leads, empty⟩ | ⟨n, cycle, _⟩ |
      ⟨_, _, _, _, _, written⟩
    · exact bodies_ne_nil_of_read isRead none leads empty
    · cases cycle.symm.trans failed
    · obtain ⟨_, -, other⟩ := Pattern.checked_eq_error (written.symm.trans failed)
      cases other
  · obtain ⟨undefined, leads⟩ := Grammar.undefined_of_sampleWord failed
    exact bodies_ne_nil_of_read isRead none leads undefined

/-- Two uses of one nonterminal on a line, a use before the rule, and a rule that is never
used; and a file in which all nonterminals have rules. -/
theorem notices_of_read_of_repeated :
    let text := "S -> aX | bA | cX\n\nA -> a\nB -> bY".toList
    let closed := "S -> aA | b\nA -> aS".toList
    ∃ file other, GrammarFile.read text = .ok file ∧
      file.notices = [.stray ⟨1, ['X']⟩, .stray ⟨1, ['X']⟩, .stray ⟨4, ['Y']⟩] ∧
      ['Y'] ∈ file.grammar.undefinedNonterminals ∧
      GrammarFile.read closed = .ok other ∧ strayUses closed = [] ∧
      (∀ engine name,
        other.grammar.toPattern engine ≠ .error (.undefinedNonterminal name)) ∧
      ∀ budget draws name, (other.grammar.sampleWord other.grammar.start budget draws).1 ≠
        .error (.undefinedNonterminal name) := by
  intro text closed
  -- the tokens of the lines, which are found by recursion on the rest of the line
  have tokens : Token.read "S -> aX | bA | cX".toList = .ok [.word ['S'], .separator,
        .word ['a', 'X'], .bar, .word ['b', 'A'], .bar, .word ['c', 'X']] ∧
      Token.read "A -> a".toList = .ok [.word ['A'], .separator, .word ['a']] ∧
      Token.read "B -> bY".toList = .ok [.word ['B'], .separator, .word ['b', 'Y']] ∧
      Token.read "S -> aA | b".toList = .ok [.word ['S'], .separator, .word ['a', 'A'], .bar,
        .word ['b']] ∧
      Token.read "A -> aS".toList = .ok [.word ['A'], .separator, .word ['a', 'S']] := by
    simp [Token.read, Token.isQuote, Text.isBlank]
  obtain ⟨first, second, third, fourth, fifth⟩ := tokens
  have first : Rule.read "S -> aX | bA | cX".toList = .ok
      ⟨['S'], [.continued ['a'] ['X'], .continued ['b'] ['A'], .continued ['c'] ['X']]⟩ :=
    @Rule.read_of_tokens _ "S -> aX | bA | cX".toList first
  have second : Rule.read "A -> a".toList = .ok ⟨['A'], [.terminal ['a']]⟩ :=
    @Rule.read_of_tokens _ "A -> a".toList second
  have third : Rule.read "B -> bY".toList = .ok ⟨['B'], [.continued ['b'] ['Y']]⟩ :=
    @Rule.read_of_tokens _ "B -> bY".toList third
  have fourth : Rule.read "S -> aA | b".toList = .ok
      ⟨['S'], [.continued ['a'] ['A'], .terminal ['b']]⟩ :=
    @Rule.read_of_tokens _ "S -> aA | b".toList fourth
  have fifth : Rule.read "A -> aS".toList = .ok ⟨['A'], [.continued ['a'] ['S']]⟩ :=
    @Rule.read_of_tokens _ "A -> aS".toList fifth
  have lines : Text.ruleLines text = [⟨1, "S -> aX | bA | cX".toList⟩, ⟨3, "A -> a".toList⟩,
      ⟨4, "B -> bY".toList⟩] := rfl
  have linesClosed : Text.ruleLines closed =
      [⟨1, "S -> aA | b".toList⟩, ⟨2, "A -> aS".toList⟩] := rfl
  have isRead : GrammarFile.read text = .ok ⟨[⟨1, ['S'], [.continued ['a'] ['X'],
      .continued ['b'] ['A'], .continued ['c'] ['X']]⟩, ⟨3, ['A'], [.terminal ['a']]⟩,
      ⟨4, ['B'], [.continued ['b'] ['Y']]⟩]⟩ := by
    rw [GrammarFile.read, readLines, faultsOf, itemsOf, lines]
    simp only [List.filterMap_cons, first, second, third, List.filterMap_nil]
    rfl
  have isReadClosed : GrammarFile.read closed = .ok
      ⟨[⟨1, ['S'], [.continued ['a'] ['A'], .terminal ['b']]⟩,
        ⟨2, ['A'], [.continued ['a'] ['S']]⟩]⟩ := by
    rw [GrammarFile.read, readLines, faultsOf, itemsOf, linesClosed]
    simp only [List.filterMap_cons, fourth, fifth, List.filterMap_nil]
    rfl
  have stray : strayUses text = [⟨1, ['X']⟩, ⟨1, ['X']⟩, ⟨4, ['Y']⟩] := by
    unfold strayUses heads
    rw [← rules_of_read isRead]
    rfl
  have none : strayUses closed = [] := by
    unfold strayUses heads
    rw [← rules_of_read isReadClosed]
    rfl
  obtain ⟨notices, undefined, -⟩ := notices_of_read isRead
  obtain ⟨-, -, defined⟩ := notices_of_read isReadClosed
  refine ⟨_, _, isRead, ?_, (undefined ['Y']).mp ⟨4, by rw [stray]; decide⟩, isReadClosed, none,
    defined none⟩
  rw [notices, stray, ← rules_of_read isRead]
  rfl

end GrammarFile

end RightLinear
