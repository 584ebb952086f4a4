import Mathlib.Data.List.Forall2
import RightLinear.Grammar.Closure
import RightLinear.Proofs.Automaton.Pattern
import RightLinear.Proofs.Grammar.Recursion

/-!
# The order of alternatives

A grammar keeps its language when alternatives change places, and so does the pattern
that it is given. Whether it is given one is another matter: alternatives are written out
in order, the first failure decides, and only a recursion leads on to the automaton. The
order shows as soon as a grammar has both kinds of failure in reach, a nonterminal that
leads to itself and one without alternatives.

* `Grammar.Rearranged`: the same productions with their alternatives in another order.
* `Grammar.exists_toPatternOrClosure_iff`: which grammars are given a pattern.
* `Grammar.Rearranged.toPatternOrClosure_agrees`: what a change of the order keeps.
* `Grammar.toPatternOrClosure_of_dangling`: what it may not keep.
-/

namespace RightLinear

namespace Grammar

variable {G G₁ G₂ : Grammar} {name next n : Name} {w : Word} {text : List Char}
  {engine : Pattern.Engine}

/-- Two grammars with the same start symbol and the same nonterminals in the same order,
whose alternatives may stand in another order. -/
structure Rearranged (G₁ G₂ : Grammar) : Prop where
  start : G₁.start = G₂.start
  productions : List.Forall₂ (fun p q => p.left = q.left ∧ p.bodies.Perm q.bodies)
    G₁.productions G₂.productions

/-- The start symbol leads to a nonterminal without alternatives. -/
def Dangles (G : Grammar) : Prop := ∃ n, G.Leads G.start n ∧ G.bodies n = []

/-- The start symbol leads to a nonterminal that leads to itself. -/
def Loops (G : Grammar) : Prop := ∃ n, G.Leads G.start n ∧ G.Recurs n

theorem Derives.of_subset (sub : ∀ n, G₁.bodies n ⊆ G₂.bodies n) (derives : G₁.Derives name w) :
    G₂.Derives name w := by
  induction derives with
  | empty mem => exact .empty (sub _ mem)
  | terminal mem => exact .terminal (sub _ mem)
  | continued mem _ ih => exact .continued (sub _ mem) ih

namespace Rearranged

variable (same : G₁.Rearranged G₂)

include same

theorem symm : G₂.Rearranged G₁ where
  start := same.start.symm
  productions := same.productions.flip.imp fun _ _ h => ⟨h.1.symm, h.2.symm⟩

/-- Rearranged grammars have the same alternatives for each name, in some order. -/
theorem bodies_perm (n : Name) : (G₁.bodies n).Perm (G₂.bodies n) := by
  rw [Grammar.bodies, Grammar.bodies, production?, production?]
  have productions := same.productions
  generalize G₁.productions = l₁, G₂.productions = l₂ at productions
  induction productions with
  | nil => exact .refl _
  | cons both _ ih =>
    obtain ⟨left, bodies⟩ := both
    rw [List.find?_cons, List.find?_cons, left]
    split
    · exact bodies
    · exact ih

theorem continues_le : G₁.Continues ≤ G₂.Continues := fun name _ continues =>
  continues.imp fun _ mem => (same.bodies_perm name).mem_iff.mp mem

theorem leads (leads : G₁.Leads name n) : G₂.Leads name n :=
  Relation.ReflTransGen.mono same.continues_le _ _ leads

theorem dangles (dangles : G₁.Dangles) : G₂.Dangles := by
  obtain ⟨n, leads, none⟩ := dangles
  refine ⟨n, same.start ▸ same.leads leads, ?_⟩
  exact List.perm_nil.mp ((same.bodies_perm n).symm.trans (.of_eq none))

theorem loops (loops : G₁.Loops) : G₂.Loops := by
  obtain ⟨n, leads, recurs⟩ := loops
  exact ⟨n, same.start ▸ same.leads leads,
    Relation.TransGen.mono same.continues_le _ _ recurs⟩

theorem derives (derives : G₁.Derives G₁.start w) : G₂.Derives G₂.start w :=
  same.start ▸ derives.of_subset fun n => (same.bodies_perm n).subset

end Rearranged

/-! ## Which grammars are given a pattern -/

/-- What the pattern of the automaton fails for. -/
theorem toClosure_cases (engine : Pattern.Engine) (G : Grammar) :
    (∃ text, G.toClosure engine = .ok text) ∧ (∃ w, G.Derives G.start w) ∨
    G.toClosure engine = .error .emptyLanguage ∧ (¬ ∃ w, G.Derives G.start w) ∨
    ∃ message, G.toClosure engine = .error (.invalidPattern message) := by
  have empty : G.toClosure engine = .error .emptyLanguage ↔ ¬ ∃ w, G.Derives G.start w := by
    rw [toClosure, Automaton.toPattern_eq_error fun _ => ConversionError.noConfusion,
      Automaton.toExpr_eq_emptyLanguage initialState?_toAutomaton_ne_none, not_exists]
    exact forall_congr' fun w => by rw [← toAutomaton_accepts_iff, Bool.not_eq_true]
  cases outcome : G.toClosure engine with
  | ok text =>
    refine Or.inl ⟨⟨text, rfl⟩, by_contra fun none => ?_⟩
    cases outcome.symm.trans (empty.mpr none)
  | error error =>
    rcases Automaton.toPattern_error outcome with rfl | rfl | ⟨message, rfl⟩
    · have noStart :=
        (Automaton.toPattern_eq_error fun _ => ConversionError.noConfusion).mp outcome
      exact absurd (Automaton.toExpr_eq_noInitialState.mp noStart) initialState?_toAutomaton_ne_none
    · exact Or.inr (Or.inl ⟨rfl, empty.mp outcome⟩)
    · exact Or.inr (Or.inr ⟨message, rfl⟩)

theorem toPatternOrClosure_of_cycle (h : G.toPattern engine = .error (.cycle n)) :
    G.toPatternOrClosure engine = G.toClosure engine := by
  rw [toPatternOrClosure, h]

theorem toPatternOrClosure_of_other (h : ∀ n, G.toPattern engine ≠ .error (.cycle n)) :
    G.toPatternOrClosure engine = G.toPattern engine := by
  rw [toPatternOrClosure]
  split
  · next n failed => exact absurd failed (h n)
  · rfl

/-- A grammar that cannot fail in both ways is given a pattern if it has no nonterminal
without alternatives in reach and its language is not empty. -/
theorem exists_toPatternOrClosure_iff (apart : ¬ (G.Dangles ∧ G.Loops))
    (valid : ∀ message, G.toPatternOrClosure engine ≠ .error (.invalidPattern message)) :
    (∃ text, G.toPatternOrClosure engine = .ok text) ↔
      ¬ G.Dangles ∧ (G.Loops → ∃ w, G.Derives G.start w) := by
  rcases expand_cases engine G with ⟨n, failed, dangles⟩ | ⟨n, failed, loops⟩ |
    ⟨straight, text, p, -, parsed, written⟩
  · have outcome : G.toPatternOrClosure engine = .error (.undefinedNonterminal n) := by
      rw [toPatternOrClosure, failed]
    refine iff_of_false (fun h => ?_) (fun h => h.1 ⟨n, dangles⟩)
    obtain ⟨text, ok⟩ := h
    cases outcome.symm.trans ok
  · have complete : ¬ G.Dangles := fun dangles => apart ⟨dangles, n, loops⟩
    rw [toPatternOrClosure_of_cycle failed] at valid ⊢
    rcases toClosure_cases engine G with ⟨ok, derives⟩ | ⟨empty, none⟩ | ⟨message, invalid⟩
    · exact iff_of_true ok ⟨complete, fun _ => derives⟩
    · refine iff_of_false (fun h => ?_) fun h => none (h.2 ⟨n, loops⟩)
      obtain ⟨text, ok⟩ := h
      cases empty.symm.trans ok
    · exact absurd invalid (valid message)
  · have outcome : G.toPatternOrClosure engine = G.toPattern engine := by
      refine toPatternOrClosure_of_other fun n failed => ?_
      obtain ⟨_, -, other⟩ := Pattern.checked_eq_error (written.symm.trans failed)
      cases other
    have kept : ∃ text, G.toPattern engine = .ok text := by
      cases made : G.toPattern engine with
      | ok text => exact ⟨text, rfl⟩
      | error error =>
        obtain ⟨_, -, rfl⟩ := Pattern.checked_eq_error (written.symm.trans made)
        exact absurd (outcome.trans made) (valid _)
    rw [outcome]
    refine iff_of_true kept ⟨fun dangles => ?_, fun loops => ?_⟩
    · obtain ⟨n, leads, none⟩ := dangles
      exact (straight n leads).1 none
    · obtain ⟨n, leads, recurs⟩ := loops
      exact absurd recurs (straight n leads).2

/-- Whichever way it was found, the pattern describes the words that the start symbol
derives. -/
theorem accepts?_of_toPatternOrClosure (h : G.toPatternOrClosure engine = .ok text) (w : Word) :
    ∃ verdict, Pattern.accepts? engine text w = some verdict ∧
      (verdict = true ↔ G.Derives G.start w) := by
  have found : G.toPattern engine = .ok text ∨ G.toClosure engine = .ok text := by
    rw [toPatternOrClosure] at h
    split at h
    · exact Or.inr h
    · exact Or.inl h
  rcases found with written | reduced
  · exact exists_accepts?_of_toPattern written w
  · exact ⟨_, Automaton.accepts?_of_toPattern reduced w, toAutomaton_accepts_iff⟩

/-! ## What a change of the order keeps -/

/-- The patterns of two grammars that differ in the order of alternatives describe the
same words. Both grammars are given one or neither is, short of patterns that the engine
refuses, unless the start symbol leads to a nonterminal without alternatives and to a
nonterminal that leads to itself. -/
theorem Rearranged.toPatternOrClosure_agrees (engine : Pattern.Engine)
    (same : G₁.Rearranged G₂) :
    (∀ text₁ text₂, G₁.toPatternOrClosure engine = .ok text₁ →
      G₂.toPatternOrClosure engine = .ok text₂ →
      ∀ w, Pattern.accepts? engine text₁ w = Pattern.accepts? engine text₂ w) ∧
    (¬ (G₁.Dangles ∧ G₁.Loops) →
      (∀ message, G₁.toPatternOrClosure engine ≠ .error (.invalidPattern message)) →
      (∀ message, G₂.toPatternOrClosure engine ≠ .error (.invalidPattern message)) →
      ((∃ text, G₁.toPatternOrClosure engine = .ok text) ↔
        ∃ text, G₂.toPatternOrClosure engine = .ok text)) := by
  refine ⟨fun text₁ text₂ ok₁ ok₂ w => ?_, fun apart valid₁ valid₂ => ?_⟩
  · obtain ⟨verdict₁, accepted₁, derives₁⟩ := accepts?_of_toPatternOrClosure ok₁ w
    obtain ⟨verdict₂, accepted₂, derives₂⟩ := accepts?_of_toPatternOrClosure ok₂ w
    rw [accepted₁, accepted₂, Option.some.injEq, Bool.eq_iff_iff, derives₁, derives₂]
    exact ⟨same.derives, same.symm.derives⟩
  · have dangles : G₁.Dangles ↔ G₂.Dangles := ⟨same.dangles, same.symm.dangles⟩
    have loops : G₁.Loops ↔ G₂.Loops := ⟨same.loops, same.symm.loops⟩
    have derives : (∃ w, G₁.Derives G₁.start w) ↔ ∃ w, G₂.Derives G₂.start w :=
      exists_congr fun _ => ⟨same.derives, same.symm.derives⟩
    have apart₂ : ¬ (G₂.Dangles ∧ G₂.Loops) := by rwa [← dangles, ← loops]
    rw [exists_toPatternOrClosure_iff apart valid₁, exists_toPatternOrClosure_iff apart₂ valid₂,
      dangles, loops, derives]

/-- A recursion that may stand in front of an end or behind it. -/
theorem toPatternOrClosure_of_swapped :
    let G₁ := ofRules ['S'] [(['S'], .continued ['a'] ['S']), (['S'], .empty)]
    let G₂ := ofRules ['S'] [(['S'], .empty), (['S'], .continued ['a'] ['S'])]
    G₁.Rearranged G₂ ∧ ¬ (G₁.Dangles ∧ G₁.Loops) ∧
      G₁.toPatternOrClosure .counting = .ok ['a', '*'] ∧
      ∃ text₂, G₂.toPatternOrClosure .counting = .ok text₂ ∧
        ∀ w, Pattern.accepts? .counting ['a', '*'] w = Pattern.accepts? .counting text₂ w := by
  intro G₁ G₂
  have same : G₁.Rearranged G₂ := ⟨rfl, .cons ⟨rfl, by decide⟩ .nil⟩
  have ok₁ : G₁.toPatternOrClosure .counting = .ok ['a', '*'] := by decide +kernel
  have onward : ∀ body ∈ G₁.bodies ['S'],
      body.continuation? = some ['S'] ∨ body.continuation? = none := by decide
  have stays : ∀ n, G₁.Leads ['S'] n → n = ['S'] := by
    intro n leads
    induction leads with
    | refl => rfl
    | tail _ continues ih =>
      subst ih
      obtain ⟨body, mem, found⟩ := continues_iff.mp continues
      rcases onward body mem with same | same
      · exact Option.some.inj (found.symm.trans same)
      · cases found.symm.trans same
  have complete : ¬ G₁.Dangles := by
    intro dangles
    obtain ⟨n, leads, none⟩ := dangles
    rw [stays n leads] at none
    exact absurd none (by decide)
  have apart : ¬ (G₁.Dangles ∧ G₁.Loops) := fun both => complete both.1
  have valid₁ : ∀ message, G₁.toPatternOrClosure .counting ≠ .error (.invalidPattern message) :=
    fun _ failed => nomatch ok₁.symm.trans failed
  have valid₂ : ∀ message, G₂.toPatternOrClosure .counting ≠ .error (.invalidPattern message) := by
    have isOk : (G₂.toPatternOrClosure .counting).isOk = true := by decide +kernel
    intro message failed
    rw [failed] at isOk
    cases isOk
  obtain ⟨words, success⟩ := same.toPatternOrClosure_agrees .counting
  obtain ⟨text₂, ok₂⟩ := (success apart valid₁ valid₂).mp ⟨_, ok₁⟩
  exact ⟨same, apart, ok₁, text₂, ok₂, words _ text₂ ok₁ ok₂⟩

/-- With `X` undefined, `S -> aS | bX | ε` is recursive first and `S -> bX | aS | ε` is
undefined first. -/
theorem toPatternOrClosure_of_dangling :
    let G₁ := ofRules ['S'] [(['S'], .continued ['a'] ['S']), (['S'], .continued ['b'] ['X']),
      (['S'], .empty)]
    let G₂ := ofRules ['S'] [(['S'], .continued ['b'] ['X']), (['S'], .continued ['a'] ['S']),
      (['S'], .empty)]
    G₁.Rearranged G₂ ∧ G₁.toPatternOrClosure .counting = .ok ['a', '*'] ∧
      G₂.toPatternOrClosure .counting = .error (.undefinedNonterminal ['X']) := by
  intro G₁ G₂
  refine ⟨⟨rfl, .cons ⟨rfl, by decide⟩ .nil⟩, by decide +kernel, by decide +kernel⟩

end Grammar

end RightLinear
