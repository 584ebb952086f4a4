import RightLinear.Proofs.Expr.Size

/-!
# Printed expressions are read back

The text of an expression is compiled if its tree is low enough and the engine has the
space for its program, and then it describes the language of the expression. What takes
space are the characters of the expression, so a sequence that is long enough is refused
although it is hardly nested.

* `Expr.accepts?_render`: the words that the compiled text describes.
* `Expr.compile_render_of_long`: a sequence that is too long.
-/

namespace RightLinear

open Pattern

namespace Expr

variable {e : Expr}

/-- The text of a tree that has one is read as a pattern. Within the nesting limit and the
space of the engine the pattern is compiled and describes the words of the tree. -/
theorem accepts?_render (engine : Engine) (printable : e.Printable) :
    ∃ p, Pattern.parse? e.render = some p ∧
      ((∃ q, Pattern.compile engine e.render = .ok q) ↔
        p.height ≤ 248 ∧ engine.Fits e.render) ∧
      (p.height ≤ 248 → engine.Fits e.render → ∀ w, ∃ verdict,
        Pattern.accepts? engine e.render w = some verdict ∧ (verdict = true ↔ e.Denotes w)) := by
  have parsed := parse?_render printable
  exact ⟨e.tree, parsed, exists_compile_iff parsed, (describes_tree e).2.exists_accepts? parsed⟩

/-- A sequence of so many characters has a text and is not nested, but the engine does not
have the space for it. -/
theorem compile_render_of_long :
    let e := spelled (List.replicate 100000 '𝑎')
    e.Printable ∧ (∃ p, Pattern.parse? e.render = some p ∧ p.height ≤ 248) ∧
      Pattern.compile .counting e.render = .error (.oversized sizeLimit) := by
  intro e
  have long : 327674 < 100000 * '𝑎'.utf8Size := by decide
  obtain ⟨height, refused⟩ := compile_counting_escape_of_long long
  rw [← render_spelled] at refused
  exact ⟨printable_spelled, ⟨_, parse?_render printable_spelled, height⟩, refused⟩

/-- Marks as characters, sequences without items, and repetitions of repetitions. -/
theorem accepts?_render_of_marks :
    let inner := concat [literal '.', concat [], alt [literal '|', star (concat [])]]
    let e := star (alt [.epsilon, inner, star (star (literal 'a'))])
    e.Printable ∧ e.render = "(|\\.(\\||()*)|(a*)*)*".toList ∧
      (∃ p, Pattern.parse? e.render = some p ∧ p.height ≤ 248) ∧
      Engine.counting.Fits e.render ∧
      e.Denotes ['a', '.', '|'] ∧ ¬ e.Denotes ['|', 'a'] := by
  intro inner e
  have nothing : (concat []).Printable := .concat fun _ mem => absurd mem List.not_mem_nil
  have choice : (alt [literal '|', star (concat [])]).Printable :=
    .alt (List.cons_ne_nil _ _) (List.forall_mem_cons.mpr
      ⟨.literal, List.forall_mem_singleton.mpr (.star Expr.noConfusion nothing)⟩)
  have sequence : inner.Printable :=
    .concat (List.forall_mem_cons.mpr ⟨.literal, List.forall_mem_cons.mpr
      ⟨nothing, List.forall_mem_singleton.mpr choice⟩⟩)
  have repetition : (star (star (literal 'a'))).Printable :=
    .star Expr.noConfusion (.star Expr.noConfusion .literal)
  have printable : e.Printable :=
    .star Expr.noConfusion (.alt (List.cons_ne_nil _ _) (List.forall_mem_cons.mpr
      ⟨.epsilon, List.forall_mem_cons.mpr
        ⟨sequence, List.forall_mem_singleton.mpr repetition⟩⟩))
  obtain ⟨p, parsed, compiled, verdicts⟩ := accepts?_render .counting printable
  have accepts : accepts? .counting e.render ['a', '.', '|'] = some true := by decide +kernel
  have refuses : accepts? .counting e.render ['|', 'a'] = some false := by decide +kernel
  obtain ⟨low, fits⟩ := compiled.mp (exists_compile_of_accepts? accepts)
  obtain ⟨yes, accepted, denotes⟩ := verdicts low fits ['a', '.', '|']
  obtain ⟨no, refused, denotes'⟩ := verdicts low fits ['|', 'a']
  refine ⟨printable, by decide, ⟨p, parsed, low⟩, fits, ?_, ?_⟩
  · exact denotes.mp (Option.some.inj (accepted.symm.trans accepts))
  · rw [← denotes', Option.some.inj (refused.symm.trans refuses)]
    exact Bool.false_ne_true

end Expr

end RightLinear
