import RightLinear.Pattern.Matching
import RightLinear.Proofs.Pattern.Token

/-!
# Sets of places and single matches

Matching follows sets of places; what it finds is described by single matches. The
two agree for every pattern whose counts can be reached at all. Repetitions are the
hard part: they stop as soon as a round changes nothing, or when all places of the
text have been seen, and must still have found the ends of every number of rounds
that the count allows.

* `Pattern.mem_roundsOf`: the ends of a repetition.
* `Pattern.mem_ends`: the ends of a pattern.
* `Pattern.matchesSomewhere_iff`: the verdict on a word.
-/

namespace RightLinear.Pattern

variable {w : Word} {p : Pattern} {items branches : List Pattern} {i j k m n : Nat}

/-! ## Single matches -/

/-- Two steps in a row, with the place in between at the end or at the beginning. -/
theorem exists_via {P R : Nat → Prop} {Q : Nat → Nat → Prop} :
    (∃ a, P a ∧ ∃ b, Q a b ∧ R b) ↔ ∃ b, (∃ a, P a ∧ Q a b) ∧ R b := by
  refine ⟨fun h => ?_, fun h => ?_⟩
  · obtain ⟨a, first, b, middle, last⟩ := h
    exact ⟨b, ⟨a, first, middle⟩, last⟩
  · obtain ⟨b, ⟨a, first, middle⟩, last⟩ := h
    exact ⟨a, first, b, middle, last⟩

mutual

/-- A match never leads back, nor beyond the text. -/
theorem Matches.bounds {p : Pattern} {i j : Nat} :
    Matches w p i j → i ≤ j ∧ j ≤ max i w.length
  | .empty => ⟨Nat.le_refl _, Nat.le_max_left _ _⟩
  | .literal h => below h
  | .dot h _ => below h
  | .oneOf h _ => below h
  | .textStart => ⟨Nat.le_refl _, Nat.le_max_left _ _⟩
  | .textEnd => ⟨Nat.le_refl _, Nat.le_max_left _ _⟩
  | .group inner => inner.bounds
  | .repeated _ _ times => times.bounds
  | .concat sequence => sequence.bounds
  | .alt _ branch => branch.bounds
where
  below {c : Char} {i : Nat} (h : w[i]? = some c) : i ≤ i + 1 ∧ i + 1 ≤ max i w.length := by
    have inside := (List.getElem?_eq_some_iff.mp h).1
    omega

theorem MatchesTimes.bounds {p : Pattern} {n i j : Nat} :
    MatchesTimes w p n i j → i ≤ j ∧ j ≤ max i w.length
  | .zero => ⟨Nat.le_refl _, Nat.le_max_left _ _⟩
  | .succ first rest => by
    have := first.bounds
    have := rest.bounds
    omega

theorem MatchesSequence.bounds {items : List Pattern} {i j : Nat} :
    MatchesSequence w items i j → i ≤ j ∧ j ≤ max i w.length
  | .nil => ⟨Nat.le_refl _, Nat.le_max_left _ _⟩
  | .cons first rest => by
    have := first.bounds
    have := rest.bounds
    omega

end

theorem matches_empty : Matches w empty i j ↔ j = i := by
  refine ⟨fun h => ?_, fun h => h ▸ .empty⟩
  cases h
  rfl

theorem matches_group : Matches w (group p) i j ↔ Matches w p i j := by
  refine ⟨fun h => ?_, .group⟩
  cases h with
  | group inner => exact inner

theorem matches_concat : Matches w (concat items) i j ↔ MatchesSequence w items i j := by
  refine ⟨fun h => ?_, .concat⟩
  cases h with
  | concat sequence => exact sequence

theorem matches_alt : Matches w (alt branches) i j ↔ ∃ p ∈ branches, Matches w p i j := by
  refine ⟨fun h => ?_, fun h => ?_⟩
  · cases h with
    | alt mem branch => exact ⟨_, mem, branch⟩
  · obtain ⟨p, mem, branch⟩ := h
    exact .alt mem branch

theorem matches_ofBranches :
    Matches w (ofBranches branches) i j ↔ ∃ p ∈ branches, Matches w p i j := by
  unfold ofBranches
  split
  · simp only [List.mem_singleton, exists_eq_left]
  · exact matches_alt

theorem matchesSequence_nil : MatchesSequence w [] i j ↔ j = i := by
  refine ⟨fun h => ?_, fun h => h ▸ .nil⟩
  cases h
  rfl

theorem matchesSequence_cons :
    MatchesSequence w (p :: items) i k ↔ ∃ j, Matches w p i j ∧ MatchesSequence w items j k := by
  refine ⟨fun h => ?_, fun h => ?_⟩
  · cases h with
    | cons first rest => exact ⟨_, first, rest⟩
  · obtain ⟨j, first, rest⟩ := h
    exact .cons first rest

theorem matchesSequence_singleton : MatchesSequence w [p] i j ↔ Matches w p i j := by
  simp only [matchesSequence_cons, matchesSequence_nil, exists_eq_right']

theorem matchesSequence_append {later : List Pattern} :
    MatchesSequence w (items ++ later) i k ↔
      ∃ j, MatchesSequence w items i j ∧ MatchesSequence w later j k := by
  induction items generalizing i with
  | nil => simp only [List.nil_append, matchesSequence_nil, exists_eq_left]
  | cons p items ih =>
    simp only [List.cons_append, matchesSequence_cons, ih]
    exact exists_via

theorem matchesTimes_zero : MatchesTimes w p 0 i j ↔ j = i := by
  refine ⟨fun h => ?_, fun h => h ▸ .zero⟩
  cases h
  rfl

theorem matchesTimes_succ :
    MatchesTimes w p (n + 1) i k ↔ ∃ j, Matches w p i j ∧ MatchesTimes w p n j k := by
  refine ⟨fun h => ?_, fun h => ?_⟩
  · cases h with
    | succ first rest => exact ⟨_, first, rest⟩
  · obtain ⟨j, first, rest⟩ := h
    exact .succ first rest

theorem matchesTimes_add :
    MatchesTimes w p (m + n) i k ↔ ∃ j, MatchesTimes w p m i j ∧ MatchesTimes w p n j k := by
  induction m generalizing i with
  | zero => simp only [Nat.zero_add, matchesTimes_zero, exists_eq_left]
  | succ m ih =>
    rw [Nat.succ_add_eq_add_succ, Nat.add_succ, matchesTimes_succ]
    simp only [ih, matchesTimes_succ]
    exact exists_via

theorem matchesTimes_one : MatchesTimes w p 1 i k ↔ Matches w p i k := by
  rw [matchesTimes_succ]
  simp only [matchesTimes_zero, exists_eq_right']

theorem matchesTimes_succ_last :
    MatchesTimes w p (n + 1) i k ↔ ∃ j, MatchesTimes w p n i j ∧ Matches w p j k := by
  rw [matchesTimes_add]
  simp only [matchesTimes_one]

theorem exists_matches_repeated {count : Count} {places : List Nat} :
    (∃ i ∈ places, Matches w (repeated count p) i j) ↔
      ∃ n, count.least ≤ n ∧ (∀ most, count.most = some most → n ≤ most) ∧
        ∃ i ∈ places, MatchesTimes w p n i j := by
  refine ⟨fun h => ?_, fun h => ?_⟩
  · obtain ⟨i, mem, matched⟩ := h
    cases matched with
    | repeated least most times => exact ⟨_, least, most, i, mem, times⟩
  · obtain ⟨n, least, most, i, mem, times⟩ := h
    exact ⟨i, mem, .repeated least most times⟩

/-! ## Repetitions -/

theorem mem_inOrder {places : List Nat} : j ∈ inOrder places ↔ j ∈ places := by
  rw [inOrder, OrderedSet.mem_toList, OrderedSet.mem_ofList]

section Repetition

variable {round : List Nat → List Nat} {places q : List Nat} {limit : Option Nat}
  (spec : ∀ {places : List Nat} {j : Nat}, j ∈ round places ↔ ∃ i ∈ places, Matches w p i j)

include spec

theorem union_round {l : List Nat} (mem : i ∈ l) (leads : j ∈ round [i]) : j ∈ round l := by
  obtain ⟨a, single, matched⟩ := spec.mp leads
  exact spec.mpr ⟨i, mem, List.mem_singleton.mp single ▸ matched⟩

/-- Places that a round maps to themselves are what any number of rounds leads to. -/
theorem mem_of_fixed (fixed : ∀ j, j ∈ round places ↔ j ∈ places) :
    j ∈ places ↔ ∃ i ∈ places, MatchesTimes w p n i j := by
  induction n generalizing j with
  | zero => simp only [matchesTimes_zero, exists_eq_right']
  | succ n ih =>
    rw [← fixed, spec]
    refine ⟨fun h => ?_, fun h => ?_⟩
    · obtain ⟨a, mem, last⟩ := h
      obtain ⟨i, memI, times⟩ := ih.mp mem
      exact ⟨i, memI, matchesTimes_succ_last.mpr ⟨a, times, last⟩⟩
    · obtain ⟨i, mem, times⟩ := h
      obtain ⟨a, times, last⟩ := matchesTimes_succ_last.mp times
      exact ⟨a, ih.mpr ⟨i, mem, times⟩, last⟩

theorem exists_times_succ :
    (∃ i ∈ inOrder (round places), MatchesTimes w p n i j) ↔
      ∃ i ∈ places, MatchesTimes w p (n + 1) i j := by
  simp only [mem_inOrder, spec, matchesTimes_succ]
  exact exists_via.symm

/-- Rounds that were not cut short lead as far as their number says. -/
theorem mem_rounds_of_false (h : rounds round n places = (q, false)) :
    j ∈ q ↔ ∃ i ∈ places, MatchesTimes w p n i j := by
  induction n generalizing places with
  | zero =>
    cases h
    simp only [matchesTimes_zero, exists_eq_right']
  | succ n ih =>
    unfold rounds at h
    dsimp only at h
    split at h
    · cases h
    · rw [ih h, exists_times_succ spec]

/-- Rounds that were cut short lead as far as any greater number of rounds. -/
theorem mem_rounds_of_true (h : rounds round n places = (q, true)) (more : n ≤ m) :
    j ∈ q ↔ ∃ i ∈ places, MatchesTimes w p m i j := by
  induction n generalizing places m with
  | zero => cases h
  | succ n ih =>
    unfold rounds at h
    dsimp only at h
    split at h
    · next same =>
      cases h
      exact mem_of_fixed spec fun j => by rw [← mem_inOrder, same]
    · obtain ⟨m, rfl⟩ : ∃ k, m = k + 1 := ⟨m - 1, by omega⟩
      rw [ih h (Nat.le_of_succ_le_succ more), exists_times_succ spec]

/-- The places inside the text that are not there yet. -/
def unseen (w : Word) (places : List Nat) : List Nat :=
  (List.range (w.length + 1)).filter fun place => !places.contains place

omit spec in
/-- Matches do not leave the text, and matches outside of it lead nowhere. -/
theorem mem_or_mem_unseen (mem : i ∈ places) (times : MatchesTimes w p n i j) :
    j ∈ places ∨ j ∈ unseen w places := by
  have ⟨up, inside⟩ := times.bounds
  by_cases there : j ∈ places
  · exact Or.inl there
  · have short : j ≤ w.length := by
      by_cases outside : w.length < i
      · obtain rfl : i = j := by omega
        exact absurd mem there
      · omega
    refine Or.inr (List.mem_filter.mpr ⟨List.mem_range.mpr (Nat.lt_succ_of_le short), ?_⟩)
    simpa using there

/-- What some rounds match is found while there are rounds left. -/
theorem mem_reachAgain_of_times {most : Nat} (mem : i ∈ places)
    (times : MatchesTimes w p (n + 1) i j) (below : n < most) :
    j ∈ reachAgain round most (unseen w places) places := by
  induction n generalizing most j with
  | zero =>
    obtain ⟨most, rfl⟩ : ∃ k, most = k + 1 := ⟨most - 1, by omega⟩
    exact image_subset_reachAgain (spec.mpr ⟨i, mem, matchesTimes_one.mp times⟩)
  | succ n ih =>
    obtain ⟨most, rfl⟩ : ∃ k, most = k + 1 := ⟨most - 1, by omega⟩
    -- the last round begins at a given place or at one that is still a candidate
    obtain ⟨a, before, last⟩ := matchesTimes_succ_last.mp times
    have leads : j ∈ round [a] := spec.mpr ⟨a, List.mem_singleton_self a, last⟩
    refine reachAgain_succ (union_round spec) ?_ leads
    exact (mem_or_mem_unseen mem before).imp_right fun candidate =>
      ⟨candidate, ih before (Nat.lt_of_succ_lt_succ below)⟩

/-- With more rounds than places nothing is missed: a round that moves no further adds nothing. -/
theorem mem_reachAgain_of_enough {most : Nat} (mem : i ∈ places)
    (times : MatchesTimes w p (n + 1) i j) (enough : w.length + 1 < most) :
    j ∈ reachAgain round most (unseen w places) places := by
  have fewer : (unseen w places).length < most := by
    refine Nat.lt_of_le_of_lt (List.length_filter_le _ _) ?_
    rw [List.length_range]
    exact enough
  induction n generalizing j with
  | zero =>
    obtain ⟨most, rfl⟩ : ∃ k, most = k + 1 := ⟨most - 1, by omega⟩
    exact image_subset_reachAgain (spec.mpr ⟨i, mem, matchesTimes_one.mp times⟩)
  | succ n ih =>
    obtain ⟨a, before, last⟩ := matchesTimes_succ_last.mp times
    have leads : j ∈ round [a] := spec.mpr ⟨a, List.mem_singleton_self a, last⟩
    refine reachAgain_closed (union_round spec) fewer ?_ leads
    exact (mem_or_mem_unseen mem before).imp_right fun candidate => ⟨candidate, ih before⟩

/-- One round or more, within the limit, lead to just these places. -/
theorem mem_roundsAgain :
    j ∈ roundsAgain round w.length limit places ↔
      ∃ n, (∀ most, limit = some most → n < most) ∧
        ∃ i ∈ places, MatchesTimes w p (n + 1) i j := by
  refine ⟨fun h => ?_, fun h => ?_⟩
  · obtain ⟨n, below, times⟩ := reachAgain_induction
      (P := fun n a => ∃ i ∈ places, MatchesTimes w p n i a)
      (fun a mem => ⟨a, mem, .zero⟩)
      (fun n l all b mem => by
        obtain ⟨a, memA, last⟩ := spec.mp mem
        obtain ⟨i, memI, times⟩ := all a memA
        exact ⟨i, memI, matchesTimes_succ_last.mpr ⟨a, times, last⟩⟩) j h
    refine ⟨n, fun most limited => ?_, times⟩
    rw [limited] at below
    exact below
  · obtain ⟨n, below, i, mem, times⟩ := h
    cases limit with
    | none => exact mem_reachAgain_of_enough spec mem times (Nat.lt_succ_self _)
    | some most => exact mem_reachAgain_of_times spec mem times (below most rfl)

/-- The rounds of a repetition lead to the places where its matches end. The rounds that must be
made are made one by one, until they change nothing, and the others are searched for. -/
theorem mem_roundsOf {count : Count} (feasible : count.Feasible) :
    j ∈ roundsOf round w.length count places ↔ ∃ i ∈ places, Matches w (repeated count p) i j := by
  rw [exists_matches_repeated]
  unfold roundsOf
  split
  · next eq =>
    rw [mem_inOrder, List.mem_append, mem_roundsAgain spec]
    refine ⟨fun h => ?_, fun h => ?_⟩
    · rcases h with mem | ⟨n, below, times⟩
      · exact ⟨0, by omega, fun _ _ => Nat.zero_le _, j, mem, .zero⟩
      · exact ⟨n + 1, by omega, below, times⟩
    · obtain ⟨n, -, most, times⟩ := h
      cases n with
      | zero =>
        obtain ⟨i, mem, none⟩ := times
        exact Or.inl (matchesTimes_zero.mp none ▸ mem)
      | succ n => exact Or.inr ⟨n, most, times⟩
  · next least eq =>
    split
    · next q cut =>
      -- more rounds change nothing, so any number that the count allows will do
      have every {n : Nat} (more : least ≤ n) := mem_rounds_of_true spec cut more (j := j)
      refine ⟨fun mem => ?_, fun h => ?_⟩
      · exact ⟨count.least, Nat.le_refl _, feasible, (every (by omega)).mp mem⟩
      · obtain ⟨n, more, -, times⟩ := h
        exact (every (by omega)).mpr times
    · next q exactly =>
      rw [mem_inOrder, mem_roundsAgain spec]
      refine ⟨fun h => ?_, fun h => ?_⟩
      · obtain ⟨n, below, a, mem, further⟩ := h
        obtain ⟨i, memI, first⟩ := (mem_rounds_of_false spec exactly).mp mem
        refine ⟨least + (n + 1), by omega, fun most limited => ?_, i, memI,
          matchesTimes_add.mpr ⟨a, first, further⟩⟩
        have := below (most - least) (by rw [limited]; rfl)
        omega
      · obtain ⟨n, more, below, i, mem, times⟩ := h
        obtain ⟨n, rfl⟩ : ∃ k, n = least + (k + 1) := ⟨n - least - 1, by omega⟩
        obtain ⟨a, first, further⟩ := matchesTimes_add.mp times
        refine ⟨n, fun most limited => ?_, a,
          (mem_rounds_of_false spec exactly).mpr ⟨i, mem, first⟩, further⟩
        obtain ⟨most, bound, rfl⟩ := Option.map_eq_some_iff.mp limited
        have := below most bound
        omega

end Repetition

/-! ## Patterns -/

/-- The counts of all repetitions in a pattern are feasible. -/
inductive Feasible : Pattern → Prop
  | empty : Feasible empty
  | atom {a : Atom} : Feasible (atom a)
  | group {p : Pattern} : Feasible p → Feasible (group p)
  | repeated {count : Count} {p : Pattern} :
    count.Feasible → Feasible p → Feasible (repeated count p)
  | concat {items : List Pattern} : (∀ p ∈ items, Feasible p) → Feasible (concat items)
  | alt {branches : List Pattern} : (∀ p ∈ branches, Feasible p) → Feasible (alt branches)

/-- An atom leads from a place to the next, or stays where a mark is met. -/
theorem after?_eq_some {a : Atom} :
    a.after? w.toArray i = some j ↔ Matches w (atom a) i j := by
  cases a with
  | literal c =>
    simp only [Atom.after?, List.getElem?_toArray, Option.ite_none_right_eq_some, Option.some.injEq]
    refine ⟨fun h => h.2 ▸ .literal h.1, fun h => ?_⟩
    cases h with
    | literal here => exact ⟨here, rfl⟩
  | dot =>
    simp only [Atom.after?, List.getElem?_toArray, Option.ite_none_right_eq_some, Option.some.injEq,
      Option.any_eq_true, decide_eq_true_eq]
    refine ⟨fun h => ?_, fun h => ?_⟩
    · obtain ⟨⟨c, here, other⟩, rfl⟩ := h
      exact .dot here other
    · cases h with
      | dot here other => exact ⟨⟨_, here, other⟩, rfl⟩
  | oneOf set =>
    simp only [Atom.after?, List.getElem?_toArray, Option.ite_none_right_eq_some, Option.some.injEq,
      Option.any_eq_true]
    refine ⟨fun h => ?_, fun h => ?_⟩
    · obtain ⟨⟨c, here, inside⟩, rfl⟩ := h
      exact .oneOf here inside
    · cases h with
      | oneOf here inside => exact ⟨⟨_, here, inside⟩, rfl⟩
  | textStart =>
    simp only [Atom.after?, Option.ite_none_right_eq_some, Option.some.injEq]
    refine ⟨fun h => ?_, fun h => ?_⟩
    · obtain ⟨rfl, rfl⟩ := h
      exact .textStart
    · cases h
      exact ⟨rfl, rfl⟩
  | textEnd =>
    simp only [Atom.after?, List.size_toArray, Option.ite_none_right_eq_some, Option.some.injEq]
    refine ⟨fun h => ?_, fun h => ?_⟩
    · obtain ⟨rfl, rfl⟩ := h
      exact .textEnd
    · cases h
      exact ⟨rfl, rfl⟩

/-- The ends from given places are the ends of the matches that begin there. -/
def Ends (w : Word) (p : Pattern) : Prop :=
  ∀ (places : List Nat) (j : Nat), j ∈ p.ends w.toArray places ↔ ∃ i ∈ places, Matches w p i j

/-- Without places the pattern is not looked at. -/
theorem Ends.of_cons
    (h : ∀ (first : Nat) (later : List Nat) (j : Nat),
      j ∈ p.ends w.toArray (first :: later) ↔ ∃ i ∈ first :: later, Matches w p i j) :
    Ends w p := by
  intro places j
  cases places with
  | nil =>
    refine ⟨fun mem => ?_, fun none => ?_⟩
    · cases p <;> exact absurd mem List.not_mem_nil
    · obtain ⟨_, mem, _⟩ := none
      exact absurd mem List.not_mem_nil
  | cons first later => exact h first later j

theorem mem_endsSequence (ends : ∀ p ∈ items, Ends w p) {places : List Nat} :
    j ∈ endsSequence w.toArray items places ↔ ∃ i ∈ places, MatchesSequence w items i j := by
  induction items generalizing places with
  | nil => simp only [endsSequence, matchesSequence_nil, exists_eq_right']
  | cons p items ih =>
    rw [endsSequence, ih fun q mem => ends q (List.mem_cons_of_mem _ mem)]
    simp only [matchesSequence_cons, ends p List.mem_cons_self _ _]
    exact exists_via.symm

/-- The branches of a union end where any one of them does. -/
theorem mem_endsBranches (ends : ∀ p ∈ branches, Ends w p) {places : List Nat} :
    j ∈ endsBranches w.toArray branches places ↔
      ∃ i ∈ places, ∃ p ∈ branches, Matches w p i j := by
  induction branches with
  | nil =>
    refine ⟨fun mem => absurd mem List.not_mem_nil, fun h => ?_⟩
    obtain ⟨_, _, _, mem, _⟩ := h
    exact absurd mem List.not_mem_nil
  | cons p branches ih =>
    rw [endsBranches, List.mem_append, ends p List.mem_cons_self,
      ih fun q mem => ends q (List.mem_cons_of_mem _ mem)]
    simp only [List.mem_cons, exists_eq_or_imp, and_or_left, exists_or]

/-- The places that are found are those where matches end, by induction on the tree. -/
theorem mem_ends (feasible : p.Feasible) : Ends w p := by
  induction feasible with
  | empty =>
    refine .of_cons fun first later j => ?_
    simp only [ends, matches_empty, exists_eq_right']
  | atom =>
    refine .of_cons fun first later j => ?_
    simp only [ends, List.mem_filterMap, after?_eq_some]
  | group _ ih =>
    refine .of_cons fun first later j => ?_
    simp only [ends, matches_group]
    exact ih _ _
  | repeated feasible _ ih =>
    refine .of_cons fun first later j => ?_
    simp only [ends, List.size_toArray, mem_roundsOf (ih _ _) feasible]
  | concat _ ih =>
    refine .of_cons fun first later j => ?_
    simp only [ends, mem_endsSequence ih, matches_concat]
  | alt _ ih =>
    refine .of_cons fun first later j => ?_
    simp only [ends, List.mem_eraseDups, mem_endsBranches ih, matches_alt]

/-- The search tries every place of the word. -/
theorem matchesSomewhere_iff (feasible : p.Feasible) :
    p.matchesSomewhere w = true ↔ ∃ i j, i ≤ w.length ∧ Matches w p i j := by
  simp only [matchesSomewhere, Bool.not_eq_true', List.isEmpty_eq_false_iff_exists_mem,
    mem_ends feasible _ _, List.mem_range, List.size_toArray, Nat.lt_succ_iff]
  exact exists_comm.trans (by simp only [exists_and_left])

end RightLinear.Pattern
