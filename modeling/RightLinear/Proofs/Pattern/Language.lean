import Mathlib.Data.List.Basic
import RightLinear.Proofs.Pattern.Matching

/-!
# The language of a pattern

A pattern without marks for the beginning and the end matches at a place of a text
whatever it would match elsewhere. What it matches is then a language, and matches
are the occurrences of its words.

* `Pattern.Occurs`: the occurrences of a word.
* `Pattern.Describes`, `Pattern.DescribeInTurn`: patterns, and sequences of them,
  that match exactly the words of a language.
* `Pattern.Describes.matchesWhole`: the words that such a pattern matches as a whole.
-/

namespace RightLinear.Pattern

variable {w u v : Word} {i j k : Nat} {c : Char} {p : Pattern}
  {items later branches : List Pattern} {L M : Language}

/-! ## Occurrences -/

/-- The word stands in the text between two places. -/
def Occurs (w u : Word) (i j : Nat) : Prop :=
  ∃ a b, w = a ++ (u ++ b) ∧ a.length = i ∧ i + u.length = j

theorem Occurs.le (h : Occurs w u i j) : j ≤ w.length := by
  obtain ⟨a, b, rfl, rfl, rfl⟩ := h
  simp only [List.length_append]
  omega

theorem occurs_nil (inside : i ≤ w.length) : Occurs w [] i j ↔ j = i := by
  refine ⟨fun h => ?_, fun h => ?_⟩
  · obtain ⟨a, b, -, -, rfl⟩ := h
    rfl
  · exact ⟨w.take i, w.drop i, (List.take_append_drop i w).symm,
      List.length_take_of_le inside, h.symm⟩

theorem occurs_singleton : Occurs w [c] i j ↔ w[i]? = some c ∧ j = i + 1 := by
  refine ⟨fun h => ?_, fun h => ?_⟩
  · obtain ⟨a, b, rfl, rfl, rfl⟩ := h
    exact ⟨by simp, rfl⟩
  · obtain ⟨here, rfl⟩ := h
    obtain ⟨inside, here⟩ := List.getElem?_eq_some_iff.mp here
    refine ⟨w.take i, w.drop (i + 1), ?_, List.length_take_of_le (Nat.le_of_lt inside), rfl⟩
    rw [← here, List.singleton_append, List.getElem_cons_drop, List.take_append_drop]

/-- An occurrence of two words one after the other is cut between them. -/
theorem occurs_append : Occurs w (u ++ v) i k ↔ ∃ j, Occurs w u i j ∧ Occurs w v j k := by
  refine ⟨fun h => ?_, fun h => ?_⟩
  · obtain ⟨a, b, rfl, rfl, rfl⟩ := h
    refine ⟨a.length + u.length, ⟨a, v ++ b, by simp only [List.append_assoc], rfl, rfl⟩,
      ⟨a ++ u, b, by simp only [List.append_assoc], List.length_append, ?_⟩⟩
    rw [List.length_append]
    omega
  · obtain ⟨j, ⟨a, b, eq, rfl, rfl⟩, a', b', eq', length, rfl⟩ := h
    have same : a ++ u = a' := by
      rw [eq, ← List.append_assoc] at eq'
      exact (List.append_inj eq' (by rw [List.length_append, length])).1
    refine ⟨a, b', ?_, rfl, ?_⟩
    · rw [eq', ← same, List.append_assoc, List.append_assoc]
    · rw [List.length_append]
      omega

/-- Only the whole word occurs from the beginning to the end. -/
theorem occurs_whole : Occurs w u 0 w.length ↔ u = w := by
  refine ⟨fun h => ?_, fun h => ?_⟩
  · obtain ⟨a, b, eq, none, length⟩ := h
    obtain rfl := List.eq_nil_of_length_eq_zero none
    rw [List.nil_append] at eq
    have short : b.length = 0 := by
      have := congrArg List.length eq
      rw [List.length_append] at this
      omega
    rw [eq, List.eq_nil_of_length_eq_zero short, List.append_nil]
  · subst h
    exact ⟨[], [], by rw [List.append_nil]; rfl, rfl, Nat.zero_add _⟩

/-! ## Patterns as languages -/

/-- The pattern matches the words of a language, wherever they occur. -/
def Describes (p : Pattern) (L : Language) : Prop :=
  ∀ (w : Word) (i j : Nat), i ≤ w.length → (Matches w p i j ↔ ∃ u, L u ∧ Occurs w u i j)

/-- One after another the patterns match the words of a language. -/
def DescribeInTurn (items : List Pattern) (L : Language) : Prop :=
  ∀ (w : Word) (i j : Nat), i ≤ w.length →
    (MatchesSequence w items i j ↔ ∃ u, L u ∧ Occurs w u i j)

/-- Together the patterns match the words of a language. -/
def DescribeTogether (branches : List Pattern) (L : Language) : Prop :=
  ∀ (w : Word) (i j : Nat), i ≤ w.length →
    ((∃ p ∈ branches, Matches w p i j) ↔ ∃ u, L u ∧ Occurs w u i j)

theorem Describes.congr (describes : p.Describes L) (same : ∀ u, L u ↔ M u) : p.Describes M := by
  rwa [funext fun u => propext (same u)] at describes

theorem DescribeTogether.congr (describe : DescribeTogether branches L)
    (same : ∀ u, L u ↔ M u) : DescribeTogether branches M := by
  rwa [funext fun u => propext (same u)] at describe

theorem describes_literal : (atom (.literal c)).Describes fun u => u = [c] := by
  intro w i j inside
  simp only [exists_eq_left, occurs_singleton]
  refine ⟨fun h => ?_, fun h => ?_⟩
  · cases h with
    | literal here => exact ⟨here, rfl⟩
  · obtain ⟨here, rfl⟩ := h
    exact .literal here

theorem Describes.group (describes : p.Describes L) : (group p).Describes L := by
  intro w i j inside
  rw [matches_group]
  exact describes w i j inside

/-! ### Sequences -/

theorem describeInTurn_nil : DescribeInTurn [] fun u => u = [] := by
  intro w i j inside
  simp only [exists_eq_left, occurs_nil inside, matchesSequence_nil]

theorem DescribeInTurn.congr (describe : DescribeInTurn items L) (same : ∀ u, L u ↔ M u) :
    DescribeInTurn items M := by
  rwa [funext fun u => propext (same u)] at describe

theorem describeInTurn_singleton : DescribeInTurn [p] L ↔ p.Describes L := by
  unfold DescribeInTurn Describes
  simp only [matchesSequence_singleton]

/-- One after another, patterns match the words of one language followed by those of the other. -/
theorem DescribeInTurn.append (first : DescribeInTurn items L) (second : DescribeInTurn later M) :
    DescribeInTurn (items ++ later) fun w => ∃ u v, w = u ++ v ∧ L u ∧ M v := by
  intro w i k inside
  rw [matchesSequence_append]
  refine ⟨fun h => ?_, fun h => ?_⟩
  · obtain ⟨j, matched, others⟩ := h
    obtain ⟨u, word, here⟩ := (first w i j inside).mp matched
    obtain ⟨v, word', there⟩ := (second w j k here.le).mp others
    exact ⟨u ++ v, ⟨u, v, rfl, word, word'⟩, occurs_append.mpr ⟨j, here, there⟩⟩
  · obtain ⟨_, ⟨u, v, rfl, word, word'⟩, whole⟩ := h
    obtain ⟨j, here, there⟩ := occurs_append.mp whole
    exact ⟨j, (first w i j inside).mpr ⟨u, word, here⟩,
      (second w j k here.le).mpr ⟨v, word', there⟩⟩

theorem DescribeInTurn.ofSequence (describe : DescribeInTurn items L) :
    (ofSequence items).Describes L := by
  unfold Pattern.ofSequence
  split
  · intro w i j inside
    rw [matches_empty, ← describe w i j inside, matchesSequence_nil]
  · exact describeInTurn_singleton.mp describe
  · intro w i j inside
    rw [matches_concat]
    exact describe w i j inside

/-! ### Choices -/

theorem describeTogether_nil : DescribeTogether [] fun _ => False := by
  intro w i j _
  simp only [List.not_mem_nil, false_and, exists_false]

theorem DescribeTogether.cons (first : p.Describes L) (others : DescribeTogether branches M) :
    DescribeTogether (p :: branches) fun u => L u ∨ M u := by
  intro w i j inside
  rw [List.exists_mem_cons_iff, first w i j inside, others w i j inside]
  simp only [or_and_right, exists_or]

theorem DescribeTogether.ofBranches (describe : DescribeTogether branches L) :
    (ofBranches branches).Describes L := by
  intro w i j inside
  rw [matches_ofBranches]
  exact describe w i j inside

/-! ### Whole words -/

theorem Describes.matchesWhole (describes : p.Describes L) : MatchesWhole p w ↔ L w := by
  rw [MatchesWhole, describes w 0 w.length (Nat.zero_le _)]
  simp only [occurs_whole, exists_eq_right]

end RightLinear.Pattern
