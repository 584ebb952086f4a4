/-!
# What a finite graph leads to

Several questions about automata and patterns are questions of reachability:
which states follow by moves that read nothing, where in a word a repetition can
end. `reach` answers them by rounds. A round maps the whole front at once, keeps
what was not seen before, and goes on from there; the candidates still unseen
become fewer in every round but the last.

* `subset_reach`: the front itself is reached.
* `reach_closed`: a candidate that a reached element leads to is reached.
* `reach_induction`: nothing else is reached.
* `nodup_reach`: nothing is reached twice.
* `reachAgain`: what is reached in one round or more, up to a limit.
-/

namespace RightLinear

variable {α : Type} [BEq α]

/-- The candidates that were found. -/
def among (found unseen : List α) : List α := unseen.filter fun a => found.contains a

/-- The candidates that were not found. -/
def outside (found unseen : List α) : List α := unseen.filter fun a => !found.contains a

theorem mem_among {found unseen : List α} {a : α} :
    a ∈ among found unseen ↔ a ∈ unseen ∧ found.contains a := List.mem_filter

theorem mem_outside {found unseen : List α} {a : α} :
    a ∈ outside found unseen ↔ a ∈ unseen ∧ (!found.contains a) := List.mem_filter

theorem length_outside_lt {found unseen : List α} (h : ¬ among found unseen = []) :
    (outside found unseen).length < unseen.length := by
  obtain ⟨a, mem⟩ := List.exists_mem_of_ne_nil _ h
  rw [mem_among] at mem
  exact List.length_filter_lt_length_iff_exists.mpr ⟨a, mem.1, by simp [mem.2]⟩

/-- Everything in `front`, and every candidate in `unseen` that `image` leads to
from there in one or more rounds. -/
def reach (image : List α → List α) (unseen front : List α) : List α :=
  if _h : among (image front) unseen = [] then front
  else front ++ reach image (outside (image front) unseen) (among (image front) unseen)
termination_by unseen.length
decreasing_by exact length_outside_lt _h

/-- What `image` leads to from `front` in at least one round and at most `limit`
rounds. Only candidates in `unseen` are gone on from. -/
def reachAgain (image : List α → List α) : Nat → List α → List α → List α
  | 0, _, _ => []
  | limit + 1, unseen, front =>
    let found := image front
    if among found unseen = [] then found
    else found ++ reachAgain image limit (outside found unseen) (among found unseen)

variable {image : List α → List α} {unseen front : List α}

/-! ## Any number of rounds -/

theorem subset_reach {a : α} (h : a ∈ front) : a ∈ reach image unseen front := by
  unfold reach
  split
  · exact h
  · exact List.mem_append_left _ h

/-- A property of the front that every round keeps holds of all that is
reached. -/
theorem reach_induction {P : α → Prop}
    (start : ∀ a ∈ front, P a)
    (round : ∀ l : List α, (∀ a ∈ l, P a) → ∀ b ∈ unseen, (image l).contains b → P b) :
    ∀ a ∈ reach image unseen front, P a := by
  fun_induction reach image unseen front with
  | case1 => exact start
  | case2 unseen front _ ih =>
    intro a mem
    rcases List.mem_append.mp mem with mem | mem
    · exact start a mem
    · refine ih (fun b hb => ?_) (fun l hl b hb => ?_) a mem
      · have ⟨candidate, isFound⟩ := mem_among.mp hb
        exact round front start b candidate isFound
      · exact round l hl b (mem_outside.mp hb).1

/-- When the image of a list is made of the images of its elements, the reached
elements are closed under it. -/
theorem reach_closed [LawfulBEq α]
    (union : ∀ {l : List α} {a b : α}, a ∈ l → b ∈ image [a] → b ∈ image l)
    {a b : α} (reached : a ∈ reach image unseen front) (leads : b ∈ image [a])
    (candidate : b ∈ unseen) : b ∈ reach image unseen front := by
  fun_induction reach image unseen front with
  | case1 unseen front none =>
    have found : (image front).contains b := by simpa using union reached leads
    exact absurd (mem_among.mpr ⟨candidate, found⟩) (by rw [none]; exact List.not_mem_nil)
  | case2 unseen front _ ih =>
    apply List.mem_append_right
    by_cases found : (image front).contains b
    · exact subset_reach (mem_among.mpr ⟨candidate, found⟩)
    · rcases List.mem_append.mp reached with atFront | later
      · exact absurd (by simpa using union atFront leads) found
      · exact ih later (mem_outside.mpr ⟨candidate, by simp_all⟩)

theorem mem_front_or_mem_unseen :
    ∀ a ∈ reach image unseen front, a ∈ front ∨ a ∈ unseen :=
  reach_induction (fun _ mem => Or.inl mem) fun _ _ _ candidate _ => Or.inr candidate

/-- Every candidate is found once at most. -/
theorem nodup_reach [LawfulBEq α] (once : front.Nodup) (candidates : unseen.Nodup)
    (apart : ∀ a ∈ front, a ∉ unseen) : (reach image unseen front).Nodup := by
  fun_induction reach image unseen front with
  | case1 => exact once
  | case2 unseen front _ ih =>
    have later :
        (reach image (outside (image front) unseen) (among (image front) unseen)).Nodup := by
      refine ih (candidates.sublist List.filter_sublist) (candidates.sublist List.filter_sublist)
        fun a found left => ?_
      have unfound := (mem_outside.mp left).2
      rw [(mem_among.mp found).2] at unfound
      cases unfound
    refine List.nodup_append.mpr ⟨once, later, fun a atFront b mem => ?_⟩
    rintro rfl
    rcases mem_front_or_mem_unseen a mem with found | left
    · exact apart a atFront (mem_among.mp found).1
    · exact apart a atFront (mem_outside.mp left).1

/-! ## At least one round -/

theorem image_subset_reachAgain {limit : Nat} {a : α} (h : a ∈ image front) :
    a ∈ reachAgain image (limit + 1) unseen front := by
  unfold reachAgain
  dsimp only
  split
  · exact h
  · exact List.mem_append_left _ h

variable [LawfulBEq α]

/-- A property that every round carries on holds, for some number of rounds up to
the limit, of all that is reached again. -/
theorem reachAgain_induction {P : Nat → α → Prop} {limit : Nat}
    (start : ∀ a ∈ front, P 0 a)
    (round : ∀ (n : Nat) (l : List α), (∀ a ∈ l, P n a) → ∀ b ∈ image l, P (n + 1) b) :
    ∀ a ∈ reachAgain image limit unseen front, ∃ n < limit, P (n + 1) a := by
  induction limit generalizing P unseen front with
  | zero => exact fun a mem => absurd mem List.not_mem_nil
  | succ limit ih =>
    intro a mem
    have first : ∀ b ∈ image front, P 1 b := round 0 front start
    unfold reachAgain at mem
    dsimp only at mem
    split at mem
    · exact ⟨0, Nat.succ_pos limit, first a mem⟩
    · rcases List.mem_append.mp mem with now | later
      · exact ⟨0, Nat.succ_pos limit, first a now⟩
      · have onward : ∀ b ∈ among (image front) unseen, P 1 b := fun b hb =>
          first b (by simpa using (mem_among.mp hb).2)
        have ⟨n, below, holds⟩ := ih (P := fun n => P (n + 1)) onward
          (fun n l => round (n + 1) l) a later
        exact ⟨n + 1, Nat.succ_lt_succ below, holds⟩

/-- When the image of a list is made of the images of its elements, what a reached
candidate leads to is reached one round later. -/
theorem reachAgain_succ
    (union : ∀ {l : List α} {a b : α}, a ∈ l → b ∈ image [a] → b ∈ image l)
    {limit : Nat} {a b : α}
    (reached : a ∈ front ∨ a ∈ unseen ∧ a ∈ reachAgain image limit unseen front)
    (leads : b ∈ image [a]) : b ∈ reachAgain image (limit + 1) unseen front := by
  induction limit generalizing unseen front with
  | zero =>
    rcases reached with atFront | ⟨_, never⟩
    · exact image_subset_reachAgain (union atFront leads)
    · exact absurd never List.not_mem_nil
  | succ limit ih =>
    rcases reached with atFront | ⟨candidate, reached⟩
    · exact image_subset_reachAgain (union atFront leads)
    · unfold reachAgain at reached ⊢
      dsimp only at reached ⊢
      by_cases none : among (image front) unseen = []
      · rw [if_pos none] at reached
        exact absurd (mem_among.mpr ⟨candidate, by simpa using reached⟩)
          (by rw [none]; exact List.not_mem_nil)
      · rw [if_neg none] at reached ⊢
        apply List.mem_append_right
        by_cases found : (image front).contains a
        · exact ih (Or.inl (mem_among.mpr ⟨candidate, found⟩))
        · have later := (List.mem_append.mp reached).resolve_left (by simpa using found)
          exact ih (Or.inr ⟨mem_outside.mpr ⟨candidate, by simpa using found⟩, later⟩)

/-- With more rounds than candidates, what a reached candidate leads to is
reached. -/
theorem reachAgain_closed
    (union : ∀ {l : List α} {a b : α}, a ∈ l → b ∈ image [a] → b ∈ image l)
    {limit : Nat} (enough : unseen.length < limit) {a b : α}
    (reached : a ∈ front ∨ a ∈ unseen ∧ a ∈ reachAgain image limit unseen front)
    (leads : b ∈ image [a]) : b ∈ reachAgain image limit unseen front := by
  induction limit generalizing unseen front with
  | zero => exact absurd enough (Nat.not_lt_zero _)
  | succ limit ih =>
    rcases reached with atFront | ⟨candidate, reached⟩
    · exact image_subset_reachAgain (union atFront leads)
    · unfold reachAgain at reached ⊢
      dsimp only at reached ⊢
      by_cases none : among (image front) unseen = []
      · rw [if_pos none] at reached
        exact absurd (mem_among.mpr ⟨candidate, by simpa using reached⟩)
          (by rw [none]; exact List.not_mem_nil)
      · rw [if_neg none] at reached ⊢
        apply List.mem_append_right
        have fewer := Nat.lt_of_lt_of_le (length_outside_lt none) (Nat.le_of_lt_succ enough)
        by_cases found : (image front).contains a
        · exact ih fewer (Or.inl (mem_among.mpr ⟨candidate, found⟩))
        · have later := (List.mem_append.mp reached).resolve_left (by simpa using found)
          exact ih fewer (Or.inr ⟨mem_outside.mpr ⟨candidate, by simpa using found⟩, later⟩)

end RightLinear
