import RightLinear.Proofs.Automaton.Growth
import RightLinear.Proofs.Expr.Printer

/-!
# The pattern of an automaton

Elimination leaves an expression for the words that are accepted, and its text is
read back as a pattern for them. What remains is to tell the failures apart, and the
only new one is a pattern that the engine refuses, for its depth or for its size.

* `Automaton.toPattern_cases`: no expression, or the text of one as the engine leaves it.
* `Automaton.toPattern_eq_error`, `Automaton.exists_toPattern_eq_invalidPattern`: the failures.
* `Automaton.accepts?_of_toPattern`: the words that the pattern describes.
* `Automaton.toPattern_spec`: all of it together.
* `Automaton.toPattern_forward_of_big`: an automaton whose pattern is too big.
-/

namespace RightLinear

namespace Automaton

variable {A : Automaton} {e : Expr} {p : Pattern} {error : ConversionError}
  {engine : Pattern.Engine}

theorem toPattern_of_error (h : A.toExpr = .error error) : A.toPattern engine = .error error := by
  rw [toPattern, h]
  rfl

theorem toPattern_of_ok (h : A.toExpr = .ok e) :
    A.toPattern engine = Pattern.checked engine e.render := by
  rw [toPattern, h]
  rfl

theorem parse?_of_toExpr (h : A.toExpr = .ok e) :
    ∃ p, Pattern.parse? e.render = some p ∧ p.Describes fun w => A.accepts w = true :=
  ⟨e.tree, Expr.parse?_render (built_of_toExpr h).simplified.printable,
    (Expr.describes_tree e).2.congr fun _ => denotes_of_toExpr h⟩

/-- There is no expression, or the text of an expression is kept or refused by the engine. -/
theorem toPattern_cases (engine : Pattern.Engine) :
    (∃ error, A.toExpr = .error error ∧ A.toPattern engine = .error error) ∨
      ∃ e p, A.toExpr = .ok e ∧ Pattern.parse? e.render = some p ∧
        A.toPattern engine = Pattern.checked engine e.render := by
  cases eq : A.toExpr with
  | error error => exact Or.inl ⟨error, rfl, toPattern_of_error eq⟩
  | ok e =>
    obtain ⟨p, parsed, -⟩ := parse?_of_toExpr eq
    exact Or.inr ⟨e, p, rfl, parsed, toPattern_of_ok eq⟩

/-- Every failure but the engine's is a failure to find an expression. -/
theorem toPattern_eq_error (other : ∀ message, error ≠ .invalidPattern message) :
    A.toPattern engine = .error error ↔ A.toExpr = .error error := by
  rcases toPattern_cases (A := A) engine with ⟨error', eq, eq'⟩ | ⟨e, p, eq, -, eq'⟩
  · rw [eq, eq', Except.error.injEq, Except.error.injEq]
  · rw [eq, eq']
    refine iff_of_false (fun h => ?_) nofun
    obtain ⟨refusal, -, same⟩ := Pattern.checked_eq_error h
    exact other _ same

/-- The engine refuses what is nested too deeply or takes too much space, and nothing else. -/
theorem exists_toPattern_eq_invalidPattern :
    (∃ message, A.toPattern engine = .error (.invalidPattern message)) ↔
      ∃ e p, A.toExpr = .ok e ∧ Pattern.parse? e.render = some p ∧
        (248 < p.height ∨ ¬ engine.Fits e.render) := by
  refine ⟨fun h => ?_, fun h => ?_⟩
  · obtain ⟨message, h⟩ := h
    rcases toPattern_cases (A := A) engine with ⟨error, eq, eq'⟩ | ⟨e, p, eq, parsed, eq'⟩
    · cases eq'.symm.trans h
      rcases toExpr_eq_error eq with impossible | impossible <;> cases impossible
    · rw [eq'] at h
      exact ⟨e, p, eq, parsed, (Pattern.exists_checked_eq_error_iff parsed).mp ⟨message, h⟩⟩
  · obtain ⟨e, p, eq, parsed, grounds⟩ := h
    rw [toPattern_of_ok eq]
    exact (Pattern.exists_checked_eq_error_iff parsed).mpr grounds

theorem toPattern_error (h : A.toPattern engine = .error error) :
    error = .noInitialState ∨ error = .emptyLanguage ∨
      ∃ message, error = .invalidPattern message := by
  by_cases invalid : ∃ message, error = .invalidPattern message
  · exact Or.inr (Or.inr invalid)
  · have found := (toPattern_eq_error fun message eq => invalid ⟨message, eq⟩).mp h
    exact (toExpr_eq_error found).imp_right Or.inl

theorem accepts?_of_toPattern {text : List Char} (h : A.toPattern engine = .ok text) (w : Word) :
    Pattern.accepts? engine text w = some (A.accepts w) := by
  rcases toPattern_cases (A := A) engine with ⟨error, -, eq⟩ | ⟨e, p, eq, -, eq'⟩
  · cases eq.symm.trans h
  · rw [eq'] at h
    obtain ⟨p, parsed, describes⟩ := parse?_of_toExpr eq
    obtain ⟨rfl, low, fits⟩ := (Pattern.checked_eq_ok parsed).mp h
    obtain ⟨verdict, accepted, accepts⟩ := describes.exists_accepts? parsed low fits w
    rw [accepted, Bool.eq_iff_iff.mpr accepts]

/-- An automaton has a pattern unless it has no initial state, accepts no word, or its pattern
is nested too deeply or takes more space than the engine has for a pattern, alone or between
the marks; and the pattern describes the accepted words. -/
theorem toPattern_spec (engine : Pattern.Engine) (A : Automaton) :
    (A.toPattern engine = .error .noInitialState ↔ ∀ s ∈ A.states, s.isInitial = false) ∧
    ((∃ s ∈ A.states, s.isInitial = true) →
      (A.toPattern engine = .error .emptyLanguage ↔ ∀ w, A.accepts w = false)) ∧
    ((∃ message, A.toPattern engine = .error (.invalidPattern message)) ↔
      ∃ e p, A.toExpr = .ok e ∧ Pattern.parse? e.render = some p ∧
        (248 < p.height ∨ ¬ engine.Fits e.render)) ∧
    (∀ error, A.toPattern engine = .error error →
      error = .noInitialState ∨ error = .emptyLanguage ∨
        ∃ message, error = .invalidPattern message) ∧
    ∀ text, A.toPattern engine = .ok text →
      ∀ w, Pattern.accepts? engine text w = some (A.accepts w) := by
  refine ⟨?_, fun initial => ?_, exists_toPattern_eq_invalidPattern, fun _ => toPattern_error,
    fun _ => accepts?_of_toPattern⟩
  · rw [toPattern_eq_error fun _ => ConversionError.noConfusion, toExpr_eq_noInitialState,
      initialState?_eq_none]
  · have started : A.initialState? ≠ none := by
      intro none
      obtain ⟨s, mem, initial⟩ := initial
      rw [initialState?_eq_none.mp none s mem] at initial
      cases initial
    rw [toPattern_eq_error fun _ => ConversionError.noConfusion, toExpr_eq_emptyLanguage started]

/-- Eighteen states, of which each leads to all later ones, have a pattern that is too big and
not nested too deeply. -/
theorem toPattern_forward_of_big :
    let A := forward '𝑎' 17
    (∃ s ∈ A.states, s.isInitial = true) ∧
    A.toPattern .counting =
      .error (.invalidPattern "Compiled regex exceeds size limit of 10485760 bytes.") ∧
    ∃ e p, A.toExpr = .ok e ∧ Pattern.parse? e.render = some p ∧ p.height ≤ 248 := by
  intro A
  have expr : A.toExpr = .ok (Expr.rising '𝑎' 16) := toExpr_forward '𝑎' 16
  have printable := (Expr.built_rising '𝑎' 16).simplified.printable
  have big : 327674 < (Expr.rising '𝑎' 16).weigh Char.utf8Size := by
    rw [Expr.weigh_rising]
    decide
  obtain ⟨height, refused⟩ := Expr.compile_counting_render_of_big printable
    (Nat.le_trans (Expr.depth_rising_le '𝑎' 16) (by decide)) big
  obtain ⟨⟨s, mem, initial, -⟩, -⟩ : A.IsStart 0 := isStart_forward
  refine ⟨⟨s, mem, initial⟩, ?_, _, _, expr, Expr.parse?_render printable, height⟩
  rw [toPattern_of_ok expr, Pattern.checked, refused]
  rfl

end Automaton

end RightLinear
