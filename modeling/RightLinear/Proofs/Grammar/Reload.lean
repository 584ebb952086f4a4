import Mathlib.Algebra.Order.BigOperators.Group.List
import Mathlib.Algebra.Order.Group.Nat
import RightLinear.Proofs.Grammar.Membership
import RightLinear.Proofs.Grammar.Printer

/-!
# Grammars that are read as they were written

A terminal is written without quotes, whatever they held in the file that it comes
from. Letters and digits come back, and so a grammar over them is read as it was
written. Nothing else does, and for this it is enough to count quotes: names,
arrows and bars have none, so a written grammar has the quotes that its terminals
hold and no more. If these terminals are read again, no quotes are left over to put
around one, and what needs none consists of letters and digits.

* `Grammar.read_render_of_lettered`: a grammar over lowercase letters and digits.
* `Weighing.quotes`: the quotes that alternatives take of their text.
* `Grammar.isAlphanum_of_read_render`: the terminals of a grammar that is read as it
  was written.
* `Grammar.read_render_iff`: which grammars come back when their file is written
  again.
-/

namespace RightLinear

/-! ## Letters and digits -/

namespace Grammar

variable {G : Grammar}

/-- A grammar over lowercase letters and digits that starts with its first production is
read as it was written. -/
theorem read_render_of_lettered (starts : G.nonterminals.head? = some G.start)
    (lettered : ∀ p ∈ G.productions, p.Lettered) : read G.render = .ok G :=
  read_render_eq_self starts fun p mem => (lettered p mem).plain

/-- Digits at the end of a terminal, of a name and of a terminal before a name. -/
theorem read_render_of_digits :
    let G := ofRules ['S'] [(['S'], .continued ['a', '1'] ['Q', '1', '2']), (['S'], .empty),
      (['Q', '1', '2'], .terminal ['0']), (['Q', '1', '2'], .continued ['7'] ['S'])]
    G.nonterminals.head? = some G.start ∧ (∀ p ∈ G.productions, p.Lettered) ∧
      G.render = "S -> a1Q12 | ε\nQ12 -> 0 | 7S\n".toList ∧ read G.render = .ok G := by
  intro G
  have starts : G.nonterminals.head? = some G.start := by decide
  have productions : G.productions =
      [⟨['S'], [.continued ['a', '1'] ['Q', '1', '2'], .empty]⟩,
        ⟨['Q', '1', '2'], [.terminal ['0'], .continued ['7'] ['S']]⟩] := by decide
  have lettered : ∀ p ∈ G.productions, p.Lettered := by
    rw [productions]
    intro p mem
    rcases List.mem_pair.mp mem with rfl | rfl
    · refine ⟨rfl, fun body inBodies => ?_⟩
      rcases List.mem_pair.mp inBodies with rfl | rfl
      · exact .continued (by decide) (List.all_iff_forall_prop.mp (by decide)) rfl
      · exact .empty
    · refine ⟨rfl, fun body inBodies => ?_⟩
      rcases List.mem_pair.mp inBodies with rfl | rfl
      · exact .terminal (by decide) (List.all_iff_forall_prop.mp (by decide))
      · exact .continued (by decide) (List.all_iff_forall_prop.mp (by decide)) rfl
  exact ⟨starts, lettered, by decide, read_render_of_lettered starts lettered⟩

end Grammar

/-! ## Quotes -/

namespace Token

/-- The quotes that a word holds, and one more if the word needs quotes around it. -/
def quoting (word : List Char) : Nat :=
  word.countP isQuote + if word.all Char.isAlphanum then 0 else 1

theorem quoting_le_append (before after : List Char) :
    quoting before ≤ quoting (before ++ after) := by
  rw [quoting, quoting, List.countP_append, List.all_append]
  cases before.all Char.isAlphanum with
  | true =>
    rw [if_pos rfl]
    omega
  | false =>
    rw [Bool.false_and]
    omega

theorem quoting_append_le (before after : List Char) :
    quoting (before ++ after) ≤ quoting before + quoting after := by
  rw [quoting, quoting, quoting, List.countP_append, List.all_append]
  cases before.all Char.isAlphanum with
  | true =>
    rw [Bool.true_and]
    omega
  | false =>
    rw [Bool.false_and, if_neg Bool.false_ne_true]
    omega

/-- Two quotes around a word are more than it needs. -/
theorem Spells.quoting_le {text : List Char} {token : Token} (spells : Spells text token) :
    token.weight quoting 0 ≤ text.countP isQuote := by
  cases spells with
  | arrow => decide
  | equals => decide
  | bar => decide
  | epsilon => decide
  | @quoted quote text quotes _ =>
    have around : (quote :: text ++ [quote]).countP isQuote = text.countP isQuote + 2 := by
      rw [List.countP_append, List.countP_cons_of_pos quotes, List.countP_singleton, if_pos quotes]
    rw [around, Token.quoted]
    split
    · exact Nat.zero_le _
    · rw [weight, quoting]
      split
      · omega
      · omega
  | word _ alphanumeric =>
    rw [weight, quoting, if_pos alphanumeric]
    exact Nat.le_refl _

end Token

/-- Quotes count, and words that need quotes weigh one more than the quotes that they
hold. -/
def Weighing.quotes : Weighing where
  counts := Token.isQuote
  word := Token.quoting
  sign := 0
  word_nil := rfl
  le_word_append := Token.quoting_le_append
  word_append_le := Token.quoting_append_le
  spells := Token.Spells.quoting_le

theorem Weighing.body_quotes (body : Body) : Weighing.quotes.body body = Token.quoting body.text :=
  Nat.zero_add _

theorem countP_isQuote_of_isAlphanum {text : List Char} (alphanumeric : text.all Char.isAlphanum) :
    text.countP Token.isQuote = 0 := by
  refine List.countP_eq_zero.mpr fun c mem quotes => ?_
  have letterOrDigit := List.all_eq_true.mp alphanumeric c mem
  rw [Token.not_isAlphanum_of_isQuote quotes] at letterOrDigit
  cases letterOrDigit

/-- A separator without such characters adds none. -/
theorem countP_joinWith {counts : Char → Bool} {separator : List Char}
    (uncounted : separator.countP counts = 0) (pieces : List (List Char)) :
    (joinWith separator pieces).countP counts = (pieces.map (List.countP counts)).sum := by
  induction pieces with
  | nil => rfl
  | cons piece rest ih =>
    cases rest with
    | nil => rw [joinWith, List.intercalate_singleton, List.map_singleton, List.sum_singleton]
    | cons next rest =>
      rw [joinWith] at ih
      rw [joinWith, List.intercalate_cons_cons, List.countP_append, List.countP_append, uncounted,
        ih, Nat.add_zero]
      rfl

theorem Body.Spells.countP_render {text : List Char} {body : Body} (spelled : Spells text body) :
    body.render.countP Token.isQuote = body.text.countP Token.isQuote := by
  cases spelled with
  | empty => rfl
  | terminal _ _ => rfl
  | continued _ _ named =>
    rw [render, List.countP_append, Body.text,
      countP_isQuote_of_isAlphanum (all_isAlphanum_of_isNonterminal named), Nat.add_zero]

namespace Grammar

variable {G : Grammar} {text : List Char}

/-- A written grammar holds the quotes of its terminals and no others. -/
theorem countP_render (named : ∀ p ∈ G.productions, isNonterminal p.left)
    (spelled : ∀ rule ∈ G.rules, ∃ word, Body.Spells word rule.2) :
    G.render.countP Token.isQuote =
      (G.rules.map fun rule => rule.2.text.countP Token.isQuote).sum := by
  have line : ∀ p ∈ G.productions, (p.render ++ ['\n']).countP Token.isQuote =
      ((p.bodies.map (p.left, ·)).map fun rule => rule.2.text.countP Token.isQuote).sum := by
    intro p mem
    have alternatives : (p.bodies.map Body.render).map (List.countP Token.isQuote) =
        (p.bodies.map (p.left, ·)).map fun rule => rule.2.text.countP Token.isQuote := by
      rw [List.map_map, List.map_map]
      refine List.map_congr_left fun body inBodies => ?_
      obtain ⟨word, spelled⟩ := spelled _ (mem_rules_of_mem_productions mem inBodies)
      exact spelled.countP_render
    have arrow : " -> ".toList.countP Token.isQuote = 0 := by decide
    have feed : ['\n'].countP Token.isQuote = 0 := by decide
    rw [Production.render, List.countP_append, List.countP_append, List.countP_append,
      countP_isQuote_of_isAlphanum (all_isAlphanum_of_isNonterminal (named p mem)), arrow, feed,
      countP_joinWith (by decide), alternatives, Nat.zero_add, Nat.add_zero]
  rw [render, List.countP_flatMap, rules, List.map_flatMap, List.flatMap_def, List.sum_flatten,
    List.map_map]
  exact congrArg List.sum (List.map_congr_left line)

/-- The terminals of a grammar that is read as it was written are letters and digits. -/
theorem isAlphanum_of_read_render (isRead : read G.render = .ok G) :
    ∀ c ∈ G.terminals, c.isAlphanum := by
  have spelled : ∀ rule ∈ G.rules, ∃ word, Body.Spells word rule.2 := by
    intro rule mem
    obtain ⟨word, spelled, _⟩ := (fromFile_of_read isRead).spelled rule mem
    exact ⟨word, spelled⟩
  have weight : (G.rules.map fun rule => Weighing.quotes.body rule.2).sum ≤
      max 0 (G.render.countP Token.isQuote) := weight_rules_le isRead .quotes
  rw [Nat.zero_max, countP_render (isNonterminal_of_read isRead) spelled] at weight
  have unquoted : ∀ rule ∈ G.rules, rule.2.text.all Char.isAlphanum = true := by
    intro rule mem
    by_contra needed
    -- the quotes around this terminal would have to be in the written grammar, too
    refine absurd weight (Nat.not_le.mpr (List.sum_lt_sum _ _ (fun other _ => ?_) ⟨rule, mem, ?_⟩))
    · rw [Weighing.body_quotes, Token.quoting]
      omega
    · rw [Weighing.body_quotes, Token.quoting, if_neg needed]
      omega
  intro c mem
  obtain ⟨rule, inRules, inText⟩ := mem_terminals.mp mem
  exact List.all_eq_true.mp (unquoted rule inRules) c inText

/-! ## Written again -/

theorem plain_of_read (isRead : read text = .ok G)
    (alphanumeric : ∀ c ∈ G.terminals, c.isAlphanum) : ∀ p ∈ G.productions, p.Plain := by
  refine fun p mem => ⟨isNonterminal_of_read isRead p mem, fun body inBodies => ?_⟩
  have listed := mem_rules_of_mem_productions mem inBodies
  obtain ⟨word, spelled, _⟩ := (fromFile_of_read isRead).spelled _ listed
  exact spelled.plain fun c inText => alphanumeric c (mem_terminals.mpr ⟨_, listed, inText⟩)

/-- A grammar that was read comes back when it is written and read again exactly if its
terminals consist of letters and digits, and then its language does as well. -/
theorem read_render_iff (isRead : read text = .ok G) :
    (read G.render = .ok G ↔ ∀ c ∈ G.terminals, c.isAlphanum) ∧
      ((∀ c ∈ G.terminals, c.isAlphanum) →
        ∃ G', read G.render = .ok G' ∧ ∀ w, G'.accepts w = G.accepts w) := by
  have again : (∀ c ∈ G.terminals, c.isAlphanum) → read G.render = .ok G := fun alphanumeric =>
    read_render_eq_self (head?_nonterminals_of_read isRead) (plain_of_read isRead alphanumeric)
  exact ⟨⟨isAlphanum_of_read_render, again⟩, fun alphanumeric =>
    ⟨G, again alphanumeric, fun _ => rfl⟩⟩

/-- Quotes around a letter are not missed. -/
theorem read_render_iff_of_letter :
    let G := ofLines [orSign 'b']
    read "S -> a | 'b'\n".toList = .ok G ∧ (∀ c ∈ G.terminals, c.isAlphanum) ∧
      G.render = "S -> a | b\n".toList ∧ read G.render = .ok G ∧
      ∃ G', read G.render = .ok G' ∧ G'.accepts ['b'] = true := by
  intro G
  have isRead : read "S -> a | 'b'\n".toList = .ok G := read_orSign (by decide) (by decide)
  have alphanumeric : ∀ c ∈ G.terminals, c.isAlphanum :=
    List.all_iff_forall_prop.mp (by decide)
  obtain ⟨same, language⟩ := read_render_iff isRead
  obtain ⟨G', reread, agrees⟩ := language alphanumeric
  have lower : ['b'].any Text.isUppercase = false := by decide
  have derives : G.Derives ['S'] ['b'] := .terminal (by decide)
  exact ⟨isRead, alphanumeric, by decide, same.mpr alphanumeric, G', reread,
    (agrees _).trans ((accepts_of_lower lower).mpr derives)⟩

/-- The sign of the empty word, quoted as a terminal, is read as the empty word when it
is written again. -/
theorem accepts_reread_of_epsilon :
    let G := ofLines [orSign 'ε']
    read "S -> a | 'ε'\n".toList = .ok G ∧ G.accepts ['ε'] = true ∧
      ∃ G', read G.render = .ok G' ∧ G'.accepts ['ε'] = false := by
  intro G
  have isRead : read "S -> a | 'ε'\n".toList = .ok G := read_orSign (by decide) (by decide)
  have lower : ['ε'].any Text.isUppercase = false := by decide
  have derives : G.Derives ['S'] ['ε'] := .terminal (by decide)
  let G' := ofRules ['S'] [(['S'], .terminal ['a']), (['S'], .empty)]
  have lettered : ∀ p ∈ G'.productions, p.Lettered := by
    intro p mem
    obtain rfl := List.mem_singleton.mp mem
    refine ⟨rfl, fun body inBodies => ?_⟩
    rcases List.mem_pair.mp inBodies with rfl | rfl
    · exact .terminal (by decide) (List.all_iff_forall_prop.mp (by decide))
    · exact .empty
  have reread : read G'.render = .ok G' :=
    read_render_eq_self rfl fun p mem => (lettered p mem).plain
  have sameText : G.render = G'.render := by decide
  refine ⟨isRead, (accepts_of_lower lower).mpr derives, G', sameText ▸ reread, ?_⟩
  rw [Bool.eq_false_iff, Ne, accepts_of_lower lower]
  intro derived
  generalize isWord : ['ε'] = w at derived
  cases derived with
  | empty _ => cases isWord
  | terminal listed =>
    subst isWord
    exact absurd listed (by decide)
  | continued listed _ =>
    have last : ∀ body ∈ G'.bodies ['S'], body.continuation? = none := by decide
    cases last _ listed

end Grammar

end RightLinear
