import RightLinear.Expr.Printer
import RightLinear.Proofs.Expr.Simplified
import RightLinear.Proofs.Pattern.Composition

/-!
# The trees of printed expressions

An expression is printed with as few groups as its precedences allow. Where the
groups stand can be told from the expression, and so can the tree that its text is
read as, which matches the language of the expression. Two expressions have no text:
a choice between nothing, and the repetition of the empty word. The simplifying
operations build neither.

* `Expr.Printable`, `Expr.Simplified.printable`: expressions that have a text.
* `Expr.tree`, `Expr.parse?_render`: the tree that the text is read as.
* `Expr.describes_tree`: the language of the tree.
-/

namespace RightLinear

open Pattern

namespace Expr

variable {e inner : Expr} {items : List Expr} {text : List Char} {p : Pattern} {u w : Word}
  {i j n : Nat}

/-- No choice in the tree is empty, and no repetition is of the empty word. -/
inductive Printable : Expr → Prop
  | epsilon : Printable epsilon
  | literal {c : Char} : Printable (literal c)
  | concat {items : List Expr} : (∀ e ∈ items, Printable e) → Printable (concat items)
  | alt {items : List Expr} :
    items ≠ [] → (∀ e ∈ items, Printable e) → Printable (alt items)
  | star {inner : Expr} : inner ≠ .epsilon → Printable inner → Printable (star inner)

/-- A simplified tree has no choice without items, and repeats nothing that is empty. -/
theorem Simplified.printable (simplified : e.Simplified) : e.Printable := by
  induction simplified with
  | epsilon => exact .epsilon
  | literal => exact .literal
  | concat _ _ _ _ ih => exact .concat ih
  | alt two _ _ _ _ ih => exact .alt (ne_nil_of_two two) ih
  | star _ some _ ih =>
    refine .star (fun none => some ?_) ih
    rw [none]
    exact List.mem_singleton_self _

/-! ## Trees of texts -/

mutual

/-- What an expression is as a part of a sequence. A choice stands in a group there. -/
def pieces : Expr → List Pattern
  | epsilon => []
  | literal c => [.atom (.literal c)]
  | concat items => allPieces items
  | alt items => [.group (.ofBranches (allBranches items))]
  | star inner => [.repeated ⟨0, none⟩ (unit inner)]

/-- What an expression is under a repetition. Only a character needs no group there. -/
def unit : Expr → Pattern
  | epsilon => .group .empty
  | literal c => .atom (.literal c)
  | concat items => .group (.ofSequence (allPieces items))
  | alt items => .group (.ofBranches (allBranches items))
  | star inner => .group (.repeated ⟨0, none⟩ (unit inner))

/-- What expressions are as parts of one sequence. -/
def allPieces : List Expr → List Pattern
  | [] => []
  | e :: items => pieces e ++ allPieces items

/-- What expressions are as the branches of one choice. -/
def allBranches : List Expr → List Pattern
  | [] => []
  | e :: items => .ofSequence (pieces e) :: allBranches items

end

/-- The branches of an expression as a choice, of which there is one if it is none. -/
def branches : Expr → List Pattern
  | alt items => allBranches items
  | e => [.ofSequence e.pieces]

/-- The tree that the text of an expression is read as. -/
def tree (e : Expr) : Pattern := .ofBranches e.branches

/-- Only a choice needs a group in a sequence. -/
theorem adds_grouped (choice : Gives e.renderBare e.branches)
    (sequence : e.isAlt = false → Adds e.renderBare e.pieces) :
    Adds (grouped e 1 e.renderBare) e.pieces := by
  unfold grouped
  split
  · next loose =>
    cases e with
    | alt items => exact choice.group
    | epsilon | literal | concat | star => simp [precedence] at loose
  · next tight =>
    refine sequence ?_
    cases e with
    | alt items => exact absurd Nat.zero_lt_one tight
    | _ => rfl

/-- Under a repetition a single character needs no group, and the empty word has none. -/
theorem adds_unit (some : e ≠ epsilon) (choice : Gives e.renderBare e.branches) :
    Adds (grouped e 3 e.renderBare) [e.unit] := by
  cases e with
  | epsilon => exact absurd rfl some
  | literal c => exact .escapeChar
  | concat | alt | star => exact choice.group

theorem adds_renderSequence (each : ∀ e ∈ items, Adds (grouped e 1 e.renderBare) e.pieces) :
    Adds (renderSequence items) (allPieces items) := by
  induction items with
  | nil => exact .nil
  | cons e items ih =>
    obtain ⟨first, rest⟩ := List.forall_mem_cons.mp each
    exact first.append (ih rest)

theorem gives_renderAlternatives (some : items ≠ [])
    (each : ∀ e ∈ items, Adds (grouped e 1 e.renderBare) e.pieces) :
    Gives (renderAlternatives items) (allBranches items) := by
  induction items with
  | nil => exact absurd rfl some
  | cons e items ih =>
    obtain ⟨first, rest⟩ := List.forall_mem_cons.mp each
    cases items with
    | nil => exact .single first
    | cons f items => exact .bar first (ih (List.cons_ne_nil f items) rest)

/-- A text is read as a choice, and without a choice at its root as a part of a
sequence as well. -/
theorem gives_renderBare (printable : e.Printable) :
    Gives e.renderBare e.branches ∧ (e.isAlt = false → Adds e.renderBare e.pieces) := by
  induction printable with
  | epsilon => exact ⟨.single .nil, fun _ => .nil⟩
  | literal => exact ⟨.single .escapeChar, fun _ => .escapeChar⟩
  | concat _ ih =>
    have sequence := adds_renderSequence fun e mem => adds_grouped (ih e mem).1 (ih e mem).2
    exact ⟨.single sequence, fun _ => sequence⟩
  | alt some _ ih =>
    refine ⟨gives_renderAlternatives some fun e mem => ?_, fun h => nomatch h⟩
    exact adds_grouped (ih e mem).1 (ih e mem).2
  | star some _ ih =>
    have item := (adds_unit some ih.1).star
    exact ⟨.single item, fun _ => item⟩

/-- The tree of a printed expression is known from the expression. -/
theorem parse?_render (printable : e.Printable) : Pattern.parse? e.render = some e.tree :=
  (gives_renderBare printable).1.parse?

/-! ## Languages of trees -/

/-- What rounds match one after another is a word of the repetition. -/
theorem exists_denotes_of_times (describes : p.Describes inner.Denotes)
    (inside : i ≤ w.length) (times : MatchesTimes w p n i j) :
    ∃ u, (star inner).Denotes u ∧ Occurs w u i j := by
  induction n generalizing i with
  | zero => exact ⟨[], .starNil, (occurs_nil inside).mpr (matchesTimes_zero.mp times)⟩
  | succ n ih =>
    obtain ⟨a, first, rest⟩ := matchesTimes_succ.mp times
    obtain ⟨u, denotes, here⟩ := (describes w i a inside).mp first
    obtain ⟨v, repeats, there⟩ := ih here.le rest
    exact ⟨u ++ v, .starCons denotes repeats, occurs_append.mpr ⟨a, here, there⟩⟩

/-- A word of a repetition is matched in as many rounds as it has parts. -/
theorem exists_times_of_denotes (describes : p.Describes inner.Denotes)
    (repeats : (star inner).Denotes u) (inside : i ≤ w.length) (here : Occurs w u i j) :
    ∃ n, MatchesTimes w p n i j := by
  refine repeats.star_induction
    (P := fun u => ∀ i, i ≤ w.length → Occurs w u i j → ∃ n, MatchesTimes w p n i j)
    ?_ ?_ i inside here
  · intro i inside here
    exact ⟨0, matchesTimes_zero.mpr ((occurs_nil inside).mp here)⟩
  · intro u v denotes rest i inside whole
    obtain ⟨a, here, there⟩ := occurs_append.mp whole
    obtain ⟨n, times⟩ := rest a here.le there
    exact ⟨n + 1, .succ ((describes w i a inside).mpr ⟨u, denotes, here⟩) times⟩

/-- A tree that is repeated any number of times matches the words of the repetition. -/
theorem describes_star (describes : p.Describes inner.Denotes) :
    (Pattern.repeated ⟨0, none⟩ p).Describes (star inner).Denotes := by
  intro w i j inside
  refine ⟨fun h => ?_, fun h => ?_⟩
  · cases h with
    | repeated _ _ times => exact exists_denotes_of_times describes inside times
  · obtain ⟨u, repeats, here⟩ := h
    obtain ⟨n, times⟩ := exists_times_of_denotes describes repeats inside here
    exact .repeated (Nat.zero_le n) (fun _ limited => nomatch limited) times

theorem describes_unit (whole : e.tree.Describes e.Denotes) : e.unit.Describes e.Denotes := by
  cases e with
  | literal c => exact whole
  | epsilon | concat | alt | star => exact whole.group

theorem describeInTurn_allPieces (each : ∀ e ∈ items, DescribeInTurn e.pieces e.Denotes) :
    DescribeInTurn (allPieces items) (concat items).Denotes := by
  induction items with
  | nil => exact describeInTurn_nil.congr fun _ => denotes_concat_nil.symm
  | cons e items ih =>
    obtain ⟨first, rest⟩ := List.forall_mem_cons.mp each
    exact (first.append (ih rest)).congr fun _ => denotes_concat_cons.symm

theorem describeTogether_allBranches (each : ∀ e ∈ items, DescribeInTurn e.pieces e.Denotes) :
    DescribeTogether (allBranches items) (alt items).Denotes := by
  induction items with
  | nil => exact describeTogether_nil.congr fun u => by simp [denotes_alt]
  | cons e items ih =>
    obtain ⟨first, rest⟩ := List.forall_mem_cons.mp each
    refine (DescribeTogether.cons first.ofSequence (ih rest)).congr fun u => ?_
    simp only [denotes_alt, List.exists_mem_cons_iff]

mutual

/-- The tree of an expression matches the words of the expression, and so do its pieces one
after another. -/
theorem describes_tree :
    ∀ e : Expr, DescribeInTurn e.pieces e.Denotes ∧ e.tree.Describes e.Denotes
  | epsilon =>
    have sequence := describeInTurn_nil.congr fun _ => denotes_epsilon.symm
    ⟨sequence, sequence.ofSequence⟩
  | literal _ =>
    have character := describes_literal.congr fun _ => denotes_literal.symm
    ⟨describeInTurn_singleton.mpr character, character⟩
  | concat items =>
    have sequence := describeInTurn_allPieces (describe_pieces items)
    ⟨sequence, sequence.ofSequence⟩
  | alt items =>
    have choice := (describeTogether_allBranches (describe_pieces items)).ofBranches
    ⟨describeInTurn_singleton.mpr choice.group, choice⟩
  | star inner =>
    have item := describes_star (describes_unit (describes_tree inner).2)
    ⟨describeInTurn_singleton.mpr item, item⟩

theorem describe_pieces : ∀ items : List Expr, ∀ e ∈ items, DescribeInTurn e.pieces e.Denotes
  | [] => fun _ mem => absurd mem List.not_mem_nil
  | e :: items => List.forall_mem_cons.mpr ⟨(describes_tree e).1, describe_pieces items⟩

end

end Expr

end RightLinear
