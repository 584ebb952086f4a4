import Mathlib.Data.List.Basic
import RightLinear.Expr.Language
import RightLinear.Expr.Simplified

/-!
# The simplifying operations keep the language

A sequence, a choice and a repetition are built by operations that rewrite the tree
on the way: nested sequences and choices are flattened, repeated items and needless
empty words are dropped, single items stand for themselves. Each rewriting is
followed here on arbitrary trees, also on those that the operations would not build.

* `Expr.denotes_followedBy`, `Expr.denotes_or`, `Expr.denotes_repeated`: the
  languages of the three operations.
* `Expr.denotes_star`: repetition as any number of words in a row.
* `Expr.denotes_operations`: all of them together.
* `Expr.Stable`: properties of trees that the operations keep.
-/

namespace RightLinear

namespace Expr

variable {e f inner : Expr} {items others : List Expr} {c : Char} {w u v : Word}

/-! ## The language by the shape of the tree -/

theorem denotes_epsilon : epsilon.Denotes w ↔ w = [] := by
  refine ⟨fun h => ?_, fun h => h ▸ .epsilon⟩
  cases h
  rfl

theorem denotes_literal : (literal c).Denotes w ↔ w = [c] := by
  refine ⟨fun h => ?_, fun h => h ▸ .literal⟩
  cases h
  rfl

theorem denotes_alt : (alt items).Denotes w ↔ ∃ e ∈ items, e.Denotes w := by
  refine ⟨fun h => ?_, fun h => ?_⟩
  · cases h with
    | alt mem denotes => exact ⟨_, mem, denotes⟩
  · obtain ⟨e, mem, denotes⟩ := h
    exact .alt mem denotes

theorem denotes_concat_nil : (concat []).Denotes w ↔ w = [] := by
  refine ⟨fun h => ?_, fun h => h ▸ .concatNil⟩
  cases h
  rfl

theorem denotes_concat_cons :
    (concat (e :: items)).Denotes w ↔
      ∃ u v, w = u ++ v ∧ e.Denotes u ∧ (concat items).Denotes v := by
  refine ⟨fun h => ?_, fun h => ?_⟩
  · cases h with
    | concatCons first rest => exact ⟨_, _, rfl, first, rest⟩
  · obtain ⟨u, v, rfl, first, rest⟩ := h
    exact .concatCons first rest

theorem denotes_concat_singleton : (concat [e]).Denotes w ↔ e.Denotes w := by
  rw [denotes_concat_cons]
  refine ⟨fun h => ?_, fun h => ⟨w, [], (List.append_nil w).symm, h, .concatNil⟩⟩
  obtain ⟨u, v, rfl, denotes, none⟩ := h
  rw [denotes_concat_nil.mp none, List.append_nil]
  exact denotes

/-- A word of a longer sequence is cut where the first part ends. -/
theorem denotes_concat_append :
    (concat (items ++ others)).Denotes w ↔
      ∃ u v, w = u ++ v ∧ (concat items).Denotes u ∧ (concat others).Denotes v := by
  induction items generalizing w with
  | nil =>
    refine ⟨fun h => ⟨[], w, rfl, .concatNil, h⟩, fun h => ?_⟩
    obtain ⟨u, v, rfl, none, denotes⟩ := h
    rw [denotes_concat_nil.mp none]
    exact denotes
  | cons e items ih =>
    rw [List.cons_append, denotes_concat_cons]
    refine ⟨fun h => ?_, fun h => ?_⟩
    · obtain ⟨u, v, rfl, first, rest⟩ := h
      obtain ⟨u', v', rfl, middle, last⟩ := ih.mp rest
      exact ⟨u ++ u', v', (List.append_assoc u u' v').symm, .concatCons first middle, last⟩
    · obtain ⟨u, v, rfl, front, last⟩ := h
      obtain ⟨u', v', rfl, first, middle⟩ := denotes_concat_cons.mp front
      refine ⟨u', v' ++ v, List.append_assoc u' v' v, first, ?_⟩
      exact ih.mpr ⟨v', v, rfl, middle, last⟩

/-! ## Sequences -/

theorem denotes_ofSequence : (ofSequence items).Denotes w ↔ (concat items).Denotes w := by
  unfold ofSequence
  split
  · rw [denotes_epsilon, denotes_concat_nil]
  · rw [denotes_concat_singleton]
  · exact Iff.rfl

theorem denotes_concat_sequenceItems : (concat e.sequenceItems).Denotes w ↔ e.Denotes w := by
  unfold sequenceItems
  split
  · rw [denotes_concat_nil, denotes_epsilon]
  · exact Iff.rfl
  · exact denotes_concat_singleton

theorem denotes_followedBy :
    (e.followedBy f).Denotes w ↔ ∃ u v, w = u ++ v ∧ e.Denotes u ∧ f.Denotes v := by
  rw [followedBy, denotes_ofSequence, denotes_concat_append]
  simp only [denotes_concat_sequenceItems]

/-! ## Choices -/

theorem denotes_ofAlternatives : (ofAlternatives items).Denotes w ↔ ∃ e ∈ items, e.Denotes w := by
  unfold ofAlternatives
  split
  · simp only [List.mem_singleton, exists_eq_left]
  · exact denotes_alt

theorem exists_mem_alternativeItems :
    (∃ f ∈ e.alternativeItems, f.Denotes w) ↔ e.Denotes w := by
  unfold alternativeItems
  split
  · exact denotes_alt.symm
  · simp only [List.mem_singleton, exists_eq_left]

theorem mem_dropEpsilon : e ∈ dropEpsilon items ↔ e ∈ items ∧ e ≠ epsilon := by
  rw [dropEpsilon, List.mem_filter, decide_eq_true_eq]

/-- A repetition denotes the empty word, so nothing is lost when it absorbs it. -/
theorem exists_mem_absorbEpsilon :
    (∃ e ∈ absorbEpsilon items, e.Denotes w) ↔ ∃ e ∈ items, e.Denotes w := by
  unfold absorbEpsilon
  split
  · next repeats =>
    refine ⟨fun h => ?_, fun h => ?_⟩
    · obtain ⟨e, mem, denotes⟩ := h
      exact ⟨e, (mem_dropEpsilon.mp mem).1, denotes⟩
    · obtain ⟨e, mem, denotes⟩ := h
      by_cases none : e = epsilon
      · obtain ⟨s, memS, isStar⟩ := List.any_eq_true.mp repeats
        subst none
        obtain rfl := denotes_epsilon.mp denotes
        cases s with
        | star inner => exact ⟨_, mem_dropEpsilon.mpr ⟨memS, Expr.noConfusion⟩, .starNil⟩
        | _ => cases isStar
      · exact ⟨e, mem_dropEpsilon.mpr ⟨mem, none⟩, denotes⟩
  · exact Iff.rfl

theorem denotes_or : (e.or f).Denotes w ↔ e.Denotes w ∨ f.Denotes w := by
  rw [or, denotes_ofAlternatives, exists_mem_absorbEpsilon]
  simp only [List.mem_eraseDups, List.mem_append, or_and_right, exists_or,
    exists_mem_alternativeItems]

/-! ## Repetitions -/

/-- What holds of the empty word and is kept by one more word in front holds of all
words of a repetition. -/
theorem Denotes.star_induction {P : Word → Prop} (none : P [])
    (more : ∀ {u v}, inner.Denotes u → P v → P (u ++ v)) (h : (star inner).Denotes w) : P w := by
  generalize repeats : star inner = s at h
  induction h with
  | starNil => exact none
  | starCons first _ _ ih =>
    cases repeats
    exact more first (ih rfl)
  | _ => cases repeats

theorem Denotes.star_append (left : (star inner).Denotes u) (right : (star inner).Denotes v) :
    (star inner).Denotes (u ++ v) := by
  refine left.star_induction (P := fun u => (star inner).Denotes (u ++ v)) right ?_
  intro x y first rest
  rw [List.append_assoc]
  exact .starCons first rest

theorem Denotes.star_of_inner (h : inner.Denotes w) : (star inner).Denotes w := by
  rw [← List.append_nil w]
  exact .starCons h .starNil

/-- Repeating words that are repetitions already gives no more than these. -/
theorem Denotes.star_of_le (le : ∀ {u}, e.Denotes u → (star f).Denotes u)
    (h : (star e).Denotes w) : (star f).Denotes w :=
  h.star_induction (P := (star f).Denotes) .starNil fun first rest =>
    (le first).star_append rest

/-- Two expressions whose words the repetition of the other denotes have the same
repetition. -/
theorem denotes_star_congr (left : ∀ {u}, e.Denotes u → (star f).Denotes u)
    (right : ∀ {u}, f.Denotes u → (star e).Denotes u) :
    (star e).Denotes w ↔ (star f).Denotes w :=
  ⟨.star_of_le left, .star_of_le right⟩

theorem denotes_star_of_silent (silent : ∀ {u}, e.Denotes u → u = []) :
    (star e).Denotes w ↔ epsilon.Denotes w := by
  rw [denotes_epsilon]
  refine ⟨fun h => ?_, fun h => h ▸ .starNil⟩
  refine h.star_induction (P := fun u => u = []) rfl fun {u v} first rest => ?_
  rw [silent first, rest, List.append_nil]

/-- Dropping the empty word and a second star does not change the words of a repetition. -/
theorem denotes_repeated : e.repeated.Denotes w ↔ (star e).Denotes w := by
  unfold repeated
  split
  · exact (denotes_star_of_silent denotes_epsilon.mp).symm
  · exact denotes_star_congr (fun h => h.star_of_inner.star_of_inner) id
  · next items =>
    have kept : ∀ {u : Word}, (∃ e ∈ dropEpsilon items, e.Denotes u) → (alt items).Denotes u := by
      intro u h
      obtain ⟨e, mem, denotes⟩ := h
      exact .alt (mem_dropEpsilon.mp mem).1 denotes
    have dropped : ∀ {u : Word}, (alt items).Denotes u →
        u = [] ∨ ∃ e ∈ dropEpsilon items, e.Denotes u := by
      intro u h
      obtain ⟨e, mem, denotes⟩ := denotes_alt.mp h
      by_cases none : e = epsilon
      · exact Or.inl (denotes_epsilon.mp (none ▸ denotes))
      · exact Or.inr ⟨e, mem_dropEpsilon.mpr ⟨mem, none⟩, denotes⟩
    split
    · next none =>
      refine (denotes_star_of_silent fun {u} h => (dropped h).resolve_right fun some => ?_).symm
      obtain ⟨e, mem, _⟩ := some
      rw [none] at mem
      exact absurd mem List.not_mem_nil
    · refine denotes_star_congr (fun h => ?_) fun h => ?_
      · exact (kept (denotes_ofAlternatives.mp h)).star_of_inner
      · rcases dropped h with rfl | some
        · exact .starNil
        · exact (denotes_ofAlternatives.mpr some).star_of_inner
  · exact Iff.rfl

/-- A repetition denotes what any number of words of the inner expression give in a row. -/
theorem denotes_star :
    (star inner).Denotes w ↔
      ∃ words : List Word, w = words.flatten ∧ ∀ u ∈ words, inner.Denotes u := by
  refine ⟨fun h => ?_, fun h => ?_⟩
  · refine h.star_induction (P := fun w => ∃ words : List Word, w = words.flatten ∧
      ∀ u ∈ words, inner.Denotes u) ⟨[], rfl, fun _ mem => absurd mem List.not_mem_nil⟩ ?_
    intro u v first rest
    obtain ⟨words, rfl, each⟩ := rest
    exact ⟨u :: words, rfl, List.forall_mem_cons.mpr ⟨first, each⟩⟩
  · obtain ⟨words, rfl, each⟩ := h
    induction words with
    | nil => exact .starNil
    | cons u words ih =>
      obtain ⟨first, rest⟩ := List.forall_mem_cons.mp each
      exact .starCons first (ih rest)

/-- The operations keep the language, whatever trees they are applied to: they denote
concatenation, union and repetition. A sequence of no items denotes the empty word, and a
choice between no items nothing. -/
theorem denotes_operations (e f : Expr) (w : Word) :
    ((e.followedBy f).Denotes w ↔ ∃ u v, w = u ++ v ∧ e.Denotes u ∧ f.Denotes v) ∧
    ((e.or f).Denotes w ↔ e.Denotes w ∨ f.Denotes w) ∧
    (e.repeated.Denotes w ↔
      ∃ words : List Word, w = words.flatten ∧ ∀ u ∈ words, e.Denotes u) ∧
    ((concat []).Denotes w ↔ w = []) ∧ ¬ (alt []).Denotes w := by
  refine ⟨denotes_followedBy, denotes_or, denotes_repeated.trans denotes_star,
    denotes_concat_nil, fun h => ?_⟩
  obtain ⟨e, mem, -⟩ := denotes_alt.mp h
  exact absurd mem List.not_mem_nil

/-! ## What the operations keep -/

/-- The empty word has the property, and the operations keep it. -/
structure Stable (P : Expr → Prop) : Prop where
  epsilon : P epsilon
  followedBy : ∀ {e f}, P e → P f → P (e.followedBy f)
  or : ∀ {e f}, P e → P f → P (e.or f)
  repeated : ∀ {e}, P e → P e.repeated

theorem stable_built : Stable Built := ⟨.epsilon, .followedBy, .or, .repeated⟩

theorem Stable.of_built {P : Expr → Prop} (stable : Stable P) (literal : ∀ c, P (literal c))
    (built : e.Built) : P e := by
  induction built with
  | epsilon => exact stable.epsilon
  | literal => exact literal _
  | followedBy _ _ first second => exact stable.followedBy first second
  | or _ _ first second => exact stable.or first second
  | repeated _ inner => exact stable.repeated inner

theorem stable_inhabited : Stable fun e => ∃ w, e.Denotes w where
  epsilon := ⟨[], .epsilon⟩
  followedBy first second := by
    obtain ⟨u, first⟩ := first
    obtain ⟨v, second⟩ := second
    exact ⟨u ++ v, denotes_followedBy.mpr ⟨u, v, rfl, first, second⟩⟩
  or first _ := by
    obtain ⟨w, first⟩ := first
    exact ⟨w, denotes_or.mpr (Or.inl first)⟩
  repeated _ := ⟨[], denotes_repeated.mpr .starNil⟩

theorem Built.exists_denotes (built : e.Built) : ∃ w, e.Denotes w :=
  stable_inhabited.of_built (fun c => ⟨[c], .literal⟩) built

end Expr

end RightLinear
