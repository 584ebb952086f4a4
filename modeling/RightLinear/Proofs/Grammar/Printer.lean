import RightLinear.Grammar.Derivation
import RightLinear.Grammar.Printer
import RightLinear.Proofs.Rule.File

/-!
# A written grammar is read back

A terminal and the nonterminal after it are written without a gap and without
quotes, so only letters and digits come back as they were, and the names of
nonterminals must be such as can head a rule. A grammar of that kind is read back
with its productions in their order. Its start symbol is not written: the grammar
that is read starts with the nonterminal of the first production.

* `Production.Plain`: the productions that can be read again.
* `Production.Lettered`: those over lowercase letters and digits.
* `Production.line_render`: the line of a production spells it.
* `Grammar.read_render`: the grammar that is read.
-/

namespace RightLinear

/-- An alternative that is a run of letters and digits. -/
def Body.Plain (body : Body) : Prop := ∃ text, Body.Spells text body ∧ ∀ c ∈ text, c.isAlphanum

/-- A production that can be written without quotes. -/
structure Production.Plain (p : Production) : Prop where
  named : isNonterminal p.left
  bodies : ∀ body ∈ p.bodies, body.Plain

/-! ## Letters and digits -/

/-- An alternative over lowercase letters and digits. -/
inductive Body.Lettered : Body → Prop
  | empty : Lettered empty
  | terminal {text : List Char} :
    text ≠ [] → (∀ c ∈ text, IsLetter c) → Lettered (terminal text)
  | continued {text next : List Char} :
    text ≠ [] → (∀ c ∈ text, IsLetter c) → isNonterminal next → Lettered (continued text next)

/-- A production with alternatives over lowercase letters and digits. -/
structure Production.Lettered (p : Production) : Prop where
  named : isNonterminal p.left
  bodies : ∀ body ∈ p.bodies, body.Lettered

/-- What an alternative continues with is a run of letters and digits already. -/
theorem Body.Spells.plain {text : List Char} {body : Body} (spelled : Spells text body)
    (alphanumeric : ∀ c ∈ body.text, c.isAlphanum) : body.Plain := by
  refine ⟨text, spelled, fun c mem => ?_⟩
  cases spelled with
  | empty => exact alphanumeric c mem
  | terminal _ _ => exact alphanumeric c mem
  | continued _ _ named =>
    rcases List.mem_append.mp mem with before | next
    · exact alphanumeric c before
    · exact List.all_eq_true.mp (all_isAlphanum_of_isNonterminal named) c next

theorem Body.Lettered.plain {body : Body} (lettered : body.Lettered) : body.Plain := by
  cases lettered with
  | empty => exact Body.Spells.empty.plain fun _ none => absurd none List.not_mem_nil
  | terminal nonempty letters =>
    have spelled := Body.Spells.terminal nonempty fun c mem => (letters c mem).not_isUpper
    exact spelled.plain fun c mem => (letters c mem).isAlphanum
  | continued nonempty letters named =>
    have spelled := Body.Spells.continued nonempty (fun c mem => (letters c mem).not_isUpper) named
    exact spelled.plain fun c mem => (letters c mem).isAlphanum

theorem Production.Lettered.plain {p : Production} (lettered : p.Lettered) : p.Plain where
  named := lettered.named
  bodies := fun body mem => (lettered.bodies body mem).plain

/-! ## The text of an alternative -/

namespace Body

variable {body : Body}

theorem render_of_spells {text : List Char} (spelled : Spells text body) :
    body.render = if text = [] then ['ε'] else text := by
  cases spelled with
  | empty => rfl
  | terminal nonempty _ => rw [if_neg nonempty, render]
  | continued nonempty _ _ => rw [if_neg (by simp [nonempty]), render]

/-- The text of an alternative is one token. -/
theorem Plain.exists_token (plain : body.Plain) :
    ∃ token text, Token.Spells body.render token ∧ Rule.Run [token] text ∧ Spells text body := by
  obtain ⟨text, spelled, alphanumeric⟩ := plain
  rw [render_of_spells spelled]
  by_cases none : text = []
  · subst none
    exact ⟨.empty, [], .epsilon, .empty .nil, spelled⟩
  · have run : Rule.Run [.word text] (text ++ []) := .word .nil
    rw [List.append_nil] at run
    rw [if_neg none]
    exact ⟨.word text, text, .word none (List.all_eq_true.mpr alphanumeric), run, spelled⟩

theorem Plain.mem_render (plain : body.Plain) {c : Char} (mem : c ∈ body.render) :
    c.isAlphanum ∨ c = 'ε' := by
  obtain ⟨text, spelled, alphanumeric⟩ := plain
  rw [render_of_spells spelled] at mem
  split at mem
  · exact Or.inr (List.mem_singleton.mp mem)
  · exact Or.inl (alphanumeric c mem)

end Body

/-! ## The line of a production -/

namespace Production

/-- Alternatives with bars between them. -/
theorem exists_choice {bodies : List Body} (nonempty : bodies ≠ [])
    (plain : ∀ body ∈ bodies, body.Plain) : ∃ tokens, Rule.Choice tokens bodies ∧
      Token.Line (joinWith " | ".toList (bodies.map Body.render)) tokens := by
  induction bodies with
  | nil => exact absurd rfl nonempty
  | cons body bodies ih =>
    obtain ⟨token, text, spells, run, spelled⟩ := (plain body List.mem_cons_self).exists_token
    cases bodies with
    | nil =>
      refine ⟨[token], .last run spelled, ?_⟩
      have line := Token.Line.token spells Token.not_joins_nil .nil
      rw [List.append_nil] at line
      rw [List.map_singleton, joinWith, List.intercalate_singleton]
      exact line
    | cons next bodies =>
      obtain ⟨tokens, choice, line⟩ := ih (List.cons_ne_nil next bodies)
        fun other mem => plain other (List.mem_cons_of_mem body mem)
      refine ⟨[token] ++ .bar :: tokens, .more run spelled choice, ?_⟩
      have afterBar := Token.Line.token .bar Token.not_joins_blank (.blank rfl line)
      have whole := Token.Line.token spells Token.not_joins_blank (.blank rfl afterBar)
      rw [List.map_cons, List.map_cons, joinWith, List.intercalate_cons_cons, List.append_assoc]
      exact whole

variable {p : Production}

/-- The line of a production spells the production. -/
theorem Plain.line_render (plain : p.Plain) (nonempty : p.bodies ≠ []) :
    Rule.Line p.render ⟨p.left, p.bodies⟩ := by
  obtain ⟨tokens, choice, line⟩ := exists_choice nonempty plain.bodies
  refine ⟨tokens, plain.named, choice, ?_⟩
  have afterArrow := Token.Line.token .arrow Token.not_joins_blank (.blank rfl line)
  have whole := Token.Line.token (.word (ne_nil_of_isNonterminal plain.named)
    (all_isAlphanum_of_isNonterminal plain.named)) Token.not_joins_blank (.blank rfl afterArrow)
  rw [render, List.append_assoc]
  exact whole

/-- A plain production is printed with letters, digits and the signs of the format. -/
theorem Plain.mem_render (plain : p.Plain) {c : Char} (mem : c ∈ p.render) :
    c.isAlphanum ∨ c ∈ [' ', '-', '>', '|', 'ε'] := by
  rw [render, List.mem_append, List.mem_append] at mem
  rcases mem with (name | arrow) | bodies
  · exact Or.inl (List.all_eq_true.mp (all_isAlphanum_of_isNonterminal plain.named) c name)
  · have signs : ∀ d ∈ " -> ".toList, d ∈ [' ', '-', '>', '|', 'ε'] :=
      List.all_iff_forall_prop.mp (by decide)
    exact Or.inr (signs c arrow)
  · rcases mem_of_mem_intercalate bodies with bar | ⟨piece, inPieces, mem⟩
    · have signs : ∀ d ∈ " | ".toList, d ∈ [' ', '-', '>', '|', 'ε'] :=
        List.all_iff_forall_prop.mp (by decide)
      exact Or.inr (signs c bar)
    · obtain ⟨body, inBodies, rfl⟩ := List.mem_map.mp inPieces
      refine ((plain.bodies body inBodies).mem_render mem).imp_right fun epsilon => ?_
      rw [epsilon]
      decide

/-- The line of a plain production is read as the production. -/
theorem Plain.tells_render (plain : p.Plain) (nonempty : p.bodies ≠ []) :
    Tells Rule.read p.render ⟨p.left, p.bodies⟩ := by
  have other : ∀ {d : Char}, d.isAlphanum = false → d ∉ [' ', '-', '>', '|', 'ε'] →
      ∀ c ∈ p.render, c ≠ d := by
    rintro d notAlphanumeric notSign c mem rfl
    rcases plain.mem_render mem with alphanumeric | sign
    · rw [notAlphanumeric] at alphanumeric
      cases alphanumeric
    · exact notSign sign
  have uncommented : Text.stripComment p.render = p.render :=
    Text.stripComment_eq_self (other rfl (by decide))
  obtain ⟨c, digits, name, upper, _⟩ := exists_cons_of_isNonterminal plain.named
  refine ⟨?_, ?_, fun d mem => ⟨other rfl (by decide) d mem, other rfl (by decide) d mem⟩⟩
  · rw [Rule.read_eq_ok, uncommented]
    exact plain.line_render nonempty
  · have shown : Text.isBlank c = false :=
      Text.not_isBlank_of_isAlphanum (Text.isAlphanum_of_isUpper upper)
    refine Text.isRuleLine_of_mem (c := c) ?_ shown
    rw [uncommented, render, name]
    exact List.mem_cons_self

end Production

/-! ## The file of a grammar -/

namespace Grammar

variable {G : Grammar}

/-- The grammar that is read where one is written. -/
def reread (G : Grammar) : Grammar :=
  match G.productions with
  | [] => emptyWord
  | p :: _ => ofRules p.left G.rules

/-- A written grammar is read with the same productions. -/
theorem read_render (plain : ∀ p ∈ G.productions, p.Plain) : read G.render = .ok G.reread := by
  have tells : List.Forall₂ (Tells Rule.read) (G.productions.map Production.render)
      (G.productions.map fun p => ⟨p.left, p.bodies⟩) := by
    rw [List.forall₂_map_left_iff, List.forall₂_map_right_iff, List.forall₂_same]
    exact fun p mem => (plain p mem).tells_render (G.bodies_ne_nil p mem)
  have holds := holds_flatMap tells
  rw [List.flatMap_map] at holds
  have same : Rule.gathered (G.productions.map fun p => ⟨p.left, p.bodies⟩) = G.rules := by
    rw [Rule.gathered, List.flatMap_map, rules]
  refine read_eq_ok.mpr ⟨_, holds, ?_⟩
  rw [reread, ← same]
  cases G.productions <;> rfl

theorem Derives.of_productions_eq {H : Grammar} (same : G.productions = H.productions)
    {name : Name} {w : Word} (derives : G.Derives name w) : H.Derives name w := by
  have bodies : ∀ name, G.bodies name = H.bodies name := by
    intro name
    rw [Grammar.bodies, production?, same]
    rfl
  induction derives with
  | empty mem => exact .empty (bodies _ ▸ mem)
  | terminal mem => exact .terminal (bodies _ ▸ mem)
  | continued mem _ ih => exact .continued (bodies _ ▸ mem) ih

section

variable {p : Production} {rest : List Production} (found : G.productions = p :: rest)

include found

theorem reread_of_cons : G.reread = ofRules p.left G.rules := by
  rw [reread, found]

theorem start_reread : G.reread.start = p.left := by
  rw [reread_of_cons found, start_ofRules]

/-- What is read derives the same words, from whatever nonterminal it starts. -/
theorem derives_reread {name : Name} {w : Word} : G.reread.Derives name w ↔ G.Derives name w := by
  have same : G.reread.productions = G.productions := by
    rw [reread_of_cons found, productions_ofRules_rules]
  exact ⟨.of_productions_eq same, .of_productions_eq same.symm⟩

end

/-- A grammar that starts with its first production is read as it was written. -/
theorem reread_eq_self (starts : G.nonterminals.head? = some G.start) : G.reread = G := by
  rw [nonterminals, List.head?_map, Option.map_eq_some_iff] at starts
  obtain ⟨p, first, left⟩ := starts
  obtain ⟨rest, found⟩ := List.head?_eq_some_iff.mp first
  rw [reread_of_cons found, left, ofRules_rules]

theorem read_render_eq_self (starts : G.nonterminals.head? = some G.start)
    (plain : ∀ p ∈ G.productions, p.Plain) : read G.render = .ok G := by
  rw [read_render plain, reread_eq_self starts]

end Grammar

end RightLinear
