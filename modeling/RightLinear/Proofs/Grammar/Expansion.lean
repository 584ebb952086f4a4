import RightLinear.Grammar.Expansion
import RightLinear.Proofs.Grammar.Graph
import RightLinear.Proofs.Pattern.Composition

/-!
# The expansion of a grammar is a pattern for its language

Every nonterminal that can be written out is written as a part of a sequence, so its
text can follow a terminal as it is: a single alternative stands alone and several
stand in a group. Along the way only productions of the grammar are set aside, and
what a text stands for is read off the alternatives one by one.

* `Grammar.takeProduction?_eq_some`: the production that is set aside.
* `Grammar.writesSequence_expand`: the text of a nonterminal.
* `Grammar.parse?_expand`: the tree of the text matches what the start symbol derives.
* `Grammar.accepts?_toPattern`: the words that the pattern describes.
-/

namespace RightLinear

open Pattern

namespace Grammar

variable {G : Grammar} {name : Name} {p : Production} {available rest : List Production}
  {text : List Char} {texts : List (List Char)} {body : Body} {bodies : List Body} {w : Word}
  {write : Name → Except ConversionError (List Char)} {error : ConversionError}
  {engine : Pattern.Engine}

/-! ## Productions -/

theorem bodies_of_mem (mem : p ∈ G.productions) : G.bodies p.left = p.bodies := by
  rw [Grammar.bodies, production?, find?_left_eq_some G.nodup mem]
  rfl

/-- The production that is taken is that of the name, and the others are left. -/
theorem takeProduction?_eq_some (h : takeProduction? name available = some (p, rest)) :
    p ∈ available ∧ p.left = name ∧ ∀ q ∈ rest, q ∈ available := by
  induction available generalizing rest with
  | nil => cases h
  | cons q available ih =>
    unfold takeProduction? at h
    split at h
    · next named =>
      cases h
      exact ⟨List.mem_cons_self, named, fun q mem => List.mem_cons_of_mem _ mem⟩
    · obtain ⟨found, eq, same⟩ := Option.map_eq_some_iff.mp h
      cases same
      obtain ⟨mem, named, others⟩ := ih eq
      refine ⟨List.mem_cons_of_mem _ mem, named, List.forall_mem_cons.mpr ⟨?_, ?_⟩⟩
      · exact List.mem_cons_self
      · exact fun r later => List.mem_cons_of_mem _ (others r later)

/-! ## Alternatives -/

/-- What an alternative contributes: its terminal, and what its nonterminal derives. -/
def BodyDerives (G : Grammar) (body : Body) : Language :=
  fun w => ∃ rest, w = body.text ++ rest ∧ G.DerivesFrom body.continuation? rest

/-- The text that follows the terminal of an alternative. -/
def Follows (write : Name → Except ConversionError (List Char)) (tail : List Char) :
    Option Name → Prop
  | none => tail = []
  | some next => write next = .ok tail

/-- The texts of alternatives are those of the first and of the others. -/
theorem expandBodies_cons (h : expandBodies write (body :: bodies) = .ok texts) :
    ∃ tail others, Follows write tail body.continuation? ∧
      expandBodies write bodies = .ok others ∧
      texts = (Pattern.escape body.text ++ tail) :: others := by
  rw [expandBodies] at h
  cases next : body.continuation? with
  | none =>
    rw [next] at h
    cases others : expandBodies write bodies with
    | error _ => rw [others] at h; cases h
    | ok others' =>
      rw [others] at h
      cases h
      exact ⟨[], others', rfl, rfl, rfl⟩
  | some next' =>
    rw [next] at h
    cases tail : write next' with
    | error _ => dsimp only at h; rw [tail] at h; cases h
    | ok tail' =>
      dsimp only at h
      rw [tail] at h
      cases others : expandBodies write bodies with
      | error _ => rw [others] at h; cases h
      | ok others' =>
        rw [others] at h
        cases h
        exact ⟨tail', others', tail, rfl, rfl⟩

section Write

variable (each : ∀ {next : Name} {tail : List Char}, write next = .ok tail →
  WritesSequence tail (G.Derives next))

include each

/-- An alternative is written as its escaped terminal and the text of what it continues with. -/
theorem writesSequence_body {tail : List Char} (follows : Follows write tail body.continuation?) :
    WritesSequence (Pattern.escape body.text ++ tail) (G.BodyDerives body) := by
  have after : WritesSequence tail (G.DerivesFrom body.continuation?) := by
    cases next : body.continuation? with
    | none =>
      rw [next] at follows
      obtain rfl : tail = [] := follows
      exact .nil
    | some next' =>
      rw [next] at follows
      exact each follows
  refine (WritesSequence.escape.append after).congr fun w => ⟨fun h => ?_, fun h => ?_⟩
  · obtain ⟨_, v, rfl, rfl, derives⟩ := h
    exact ⟨v, rfl, derives⟩
  · obtain ⟨v, rfl, derives⟩ := h
    exact ⟨_, v, rfl, rfl, derives⟩

/-- The alternatives between bars. -/
theorem writesChoice_expandBodies (h : expandBodies write (body :: bodies) = .ok texts) :
    WritesChoice (['|'].intercalate texts) fun w => ∃ b ∈ body :: bodies, G.BodyDerives b w := by
  induction bodies generalizing body texts with
  | nil =>
    obtain ⟨tail, others, follows, none, rfl⟩ := expandBodies_cons h
    cases none
    have alone : ['|'].intercalate [Pattern.escape body.text ++ tail] =
        Pattern.escape body.text ++ tail := by simp [List.intercalate]
    rw [alone]
    refine (writesSequence_body each follows).choice.congr fun w => ?_
    simp only [List.mem_singleton, exists_eq_left]
  | cons next bodies ih =>
    obtain ⟨tail, others, follows, more, rfl⟩ := expandBodies_cons h
    have rest := ih more
    obtain ⟨tail', others', -, -, rfl⟩ := expandBodies_cons more
    refine (WritesChoice.bar (writesSequence_body each follows) rest).congr fun w => ?_
    rw [List.exists_mem_cons_iff _ body]

/-- A single alternative needs no group to stand in a sequence, and several have one. -/
theorem writesSequence_groupAlternatives
    (h : expandBodies write (body :: bodies) = .ok texts) :
    WritesSequence (groupAlternatives texts) fun w => ∃ b ∈ body :: bodies, G.BodyDerives b w := by
  cases bodies with
  | nil =>
    obtain ⟨tail, others, follows, none, rfl⟩ := expandBodies_cons h
    cases none
    refine (writesSequence_body each follows).congr fun w => ?_
    simp only [List.mem_singleton, exists_eq_left]
  | cons next bodies =>
    have choice := writesChoice_expandBodies each h
    obtain ⟨_, _, -, more, rfl⟩ := expandBodies_cons h
    obtain ⟨_, _, -, -, rfl⟩ := expandBodies_cons more
    exact choice.group.sequence

end Write

/-- Whatever can be written out is written as a part of a sequence. -/
theorem writesSequence_expand (known : ∀ p ∈ available, p ∈ G.productions)
    (h : G.expand available name = .ok text) : WritesSequence text (G.Derives name) := by
  fun_induction expand G available name generalizing text with
  | case1 => cases h
  | case2 available name p rest taken ih =>
    obtain ⟨mem, rfl, others⟩ := takeProduction?_eq_some taken
    have inside : ∀ q ∈ rest, q ∈ G.productions := fun q later => known q (others q later)
    obtain ⟨body, bodies, eq⟩ := List.exists_cons_of_ne_nil (G.bodies_ne_nil p (known p mem))
    rw [eq] at h
    cases expanded : expandBodies (fun next => G.expand rest next) (body :: bodies) with
    | error _ => rw [expanded] at h; cases h
    | ok texts =>
      rw [expanded] at h
      cases h
      refine (writesSequence_groupAlternatives (fun read => ih _ inside read) expanded).congr
        fun w => ?_
      rw [derives_iff_exists_body, bodies_of_mem (known p mem), eq]
      rfl

/-! ## The pattern -/

theorem parse?_expand (h : G.expand G.productions G.start = .ok text) :
    ∃ p, Pattern.parse? text = some p ∧ ∀ w, MatchesWhole p w ↔ G.Derives G.start w := by
  have writes := writesSequence_expand (fun _ mem => mem) h
  obtain ⟨p, parsed, describes⟩ := writes.choice.parse?
  exact ⟨p, parsed, fun w => describes.matchesWhole⟩

theorem toPattern_of_error (h : G.expand G.productions G.start = .error error) :
    G.toPattern engine = .error error := by
  rw [toPattern, h]
  rfl

theorem toPattern_of_ok (h : G.expand G.productions G.start = .ok text) :
    G.toPattern engine = Pattern.checked engine text := by
  rw [toPattern, h]
  rfl

/-- What is given as a pattern is what was written out, and its tree is neither too high nor
too big. -/
theorem exists_parse?_of_toPattern (h : G.toPattern engine = .ok text) :
    ∃ p, Pattern.parse? text = some p ∧ p.height ≤ 248 ∧ engine.Fits text ∧
      ∀ w, MatchesWhole p w ↔ G.Derives G.start w := by
  cases expanded : G.expand G.productions G.start with
  | error error => cases (toPattern_of_error expanded).symm.trans h
  | ok found =>
    obtain ⟨p, parsed, whole⟩ := parse?_expand expanded
    rw [toPattern_of_ok expanded] at h
    obtain ⟨rfl, low, fits⟩ := (checked_eq_ok parsed).mp h
    exact ⟨p, parsed, low, fits, whole⟩

theorem exists_accepts?_of_toPattern (h : G.toPattern engine = .ok text) (w : Word) :
    ∃ verdict, Pattern.accepts? engine text w = some verdict ∧
      (verdict = true ↔ G.Derives G.start w) := by
  obtain ⟨p, parsed, low, fits, whole⟩ := exists_parse?_of_toPattern h
  obtain ⟨verdict, accepted, matched⟩ := accepts?_eq parsed low fits (w := w)
  exact ⟨verdict, accepted, matched.trans (whole w)⟩

/-- The pattern of a grammar describes exactly the words that its start symbol derives,
and so agrees with the recogniser on all words without an uppercase character. -/
theorem accepts?_toPattern (engine : Pattern.Engine) (G : Grammar) (text : List Char)
    (h : G.toPattern engine = .ok text) (w : Word) :
    (Pattern.accepts? engine text w = some true ↔ G.Derives G.start w) ∧
      (Pattern.accepts? engine text w).isSome = true ∧
      (w.any Text.isUppercase = false →
        Pattern.accepts? engine text w = some (G.accepts w)) := by
  obtain ⟨verdict, accepted, derives⟩ := exists_accepts?_of_toPattern h w
  rw [accepted]
  refine ⟨by rw [Option.some.injEq, derives], rfl, fun lower => ?_⟩
  rw [Option.some.injEq, Bool.eq_iff_iff, derives, accepts_of_lower lower]

/-- An escaped terminal in front of a group with an empty alternative. -/
theorem accepts?_toPattern_of_marks :
    let G := ofRules ['S'] [(['S'], .continued ['*'] ['A']), (['A'], .empty),
      (['A'], .terminal ['a'])]
    let text := ['\\', '*', '(', '|', 'a', ')']
    G.toPattern .counting = .ok text ∧ Pattern.accepts? .counting text ['*', 'a'] = some true ∧
      Pattern.accepts? .counting text ['*', 'a'] = some (G.accepts ['*', 'a']) := by
  intro G text
  have expanded : G.expand G.productions G.start = .ok text := by
    have outer : takeProduction? G.start G.productions =
        some (⟨['S'], [.continued ['*'] ['A']]⟩, [⟨['A'], [.empty, .terminal ['a']]⟩]) := by
      decide
    have inner : takeProduction? ['A'] [⟨['A'], [.empty, .terminal ['a']]⟩] =
        some (⟨['A'], [.empty, .terminal ['a']]⟩, []) := by decide
    rw [expand, outer]
    simp only [expandBodies, Body.continuation?]
    rw [expand, inner]
    rfl
  have tokens : Token.readAll? text =
      some [.atom (.literal '*'), .opening, .bar, .atom (.literal 'a'), .closing] :=
    ((Spells.escapeChar (c := '*')).append
      (Spells.group (Spells.bar.append (Spells.escapeChar (c := 'a'))))).readAll?
  have ends : G.Derives ['A'] ['a'] := .terminal (by decide)
  have derives : G.Derives ['S'] (['*'] ++ ['a']) := .continued (by decide) ends
  have written : G.toPattern .counting = .ok text := by
    rw [toPattern_of_ok expanded]
    decide +kernel
  obtain ⟨accepted, -, agrees⟩ := accepts?_toPattern .counting G text written ['*', 'a']
  exact ⟨written, accepted.mpr derives, agrees (by decide)⟩

end Grammar

end RightLinear
