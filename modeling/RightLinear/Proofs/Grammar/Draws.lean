import Mathlib.Data.Stream.Init
import RightLinear.Grammar.Sampling

/-!
# Which choices random numbers can make

A number chooses an element by the high half of its product with the length of the list,
and is passed over if the low half is outside the zone. For every place of a list of at most
`2 ^ 32` elements there is a number that chooses it at once: the first whose product reaches
the place, which exceeds it by less than the length of the list. So the draws can be made
to choose anything, whatever is drawn afterwards.

Numbers that are passed over could go on for ever. An endless source is fair if it is
never without a number that chooses, for any length of list; then some of its first
numbers settle a choice.

* `Draws.Settles`: numbers that make a choice and are used up by it.
* `Draws.exists_settles`: one number is enough for any element.
* `Draws.Fair`, `Draws.Fair.exists_take_settles`: endless sources.
-/

namespace RightLinear

namespace Draws

variable {n place : Nat} {number : UInt32}

/-- A number chooses among `n` elements, that is, it is not passed over. -/
def Accepts (n : Nat) (number : UInt32) : Prop :=
  number.toNat * n % UInt32.size ≤ zone n

/-- The place is one of the list, whatever the numbers are. -/
theorem index_lt (positive : 0 < n) (numbers : List UInt32) (taken : Nat) :
    (index n numbers taken).1 < n := by
  fun_induction index n numbers taken with
  | case1 taken => exact positive
  | case2 number pending taken product accepted =>
    exact Nat.div_lt_of_lt_mul (Nat.mul_lt_mul_of_pos_right number.toNat_lt positive)
  | case3 number pending taken product rejected ih => exact ih

theorem index_of_accepts (accepts : Accepts n number) (pending : List UInt32) (taken : Nat) :
    index n (number :: pending) taken =
      (number.toNat * n / UInt32.size, ⟨pending, taken + 1⟩) := by
  rw [index]
  exact if_pos accepts

theorem index_of_not_accepts (passed : ¬ Accepts n number) (pending : List UInt32)
    (taken : Nat) : index n (number :: pending) taken = index n pending (taken + 1) := by
  rw [index]
  exact if_neg passed

/-! ## One number for every place -/

/-- Low halves below the length of the list are inside the zone. -/
theorem le_zone_of_lt {low : Nat} (below : low < n) : low ≤ zone n := by
  have scaled : n * 1 ≤ n * Nat.pow 2 (31 - n.log2) :=
    Nat.mul_le_mul_left n (Nat.pow_pos Nat.two_pos)
  rw [zone]
  omega

/-- The first multiple of `n` that reaches a target exceeds it by less than `n`. -/
theorem exists_multiple (positive : 0 < n) (target : Nat) :
    ∃ first excess, first * n = target + excess ∧ excess < n := by
  have below := Nat.mod_lt (target + (n - 1)) positive
  have split := Nat.div_add_mod (target + (n - 1)) n
  refine ⟨(target + (n - 1)) / n, n - 1 - (target + (n - 1)) % n, ?_, by omega⟩
  rw [Nat.mul_comm]
  omega

/-- The first number whose product with the length reaches a place chooses it. -/
theorem exists_accepts (inside : place < n) (few : n ≤ UInt32.size) :
    ∃ number, Accepts n number ∧ number.toNat * n / UInt32.size = place := by
  -- `size` stands for `2 ^ 32`, so that no step computes with the numeral
  generalize same : UInt32.size = size at few
  obtain ⟨first, low, product, below⟩ :=
    exists_multiple (Nat.zero_lt_of_lt inside) (place * size)
  have lowSmall : low < size := Nat.lt_of_lt_of_le below few
  have small : first < size := by
    have next : (place + 1) * size ≤ n * size := Nat.mul_le_mul_right size inside
    have products : first * n < size * n := by
      rw [product, Nat.mul_comm size n]
      rw [Nat.add_mul, Nat.one_mul] at next
      omega
    exact Nat.lt_of_mul_lt_mul_right products
  have toNat : (UInt32.ofNat first).toNat = first := UInt32.toNat_ofNat_of_lt' (same ▸ small)
  refine ⟨UInt32.ofNat first, ?_, ?_⟩
  · rw [Accepts, toNat, product, same, Nat.mul_add_mod', Nat.mod_eq_of_lt lowSmall]
    exact le_zone_of_lt below
  · rw [toNat, product, Nat.mul_comm, Nat.mul_add_div (Nat.zero_lt_of_lt lowSmall),
      Nat.div_eq_of_lt lowSmall, Nat.add_zero]

/-! ## Choices -/

section

variable {α : Type} {l : List α} {a : α}

theorem choose_of_ne_nil (nonempty : l ≠ []) (draws : Draws) :
    draws.choose l = (l[(index l.length draws.pending draws.taken).1]?,
      (index l.length draws.pending draws.taken).2) := by
  cases l with
  | nil => exact absurd rfl nonempty
  | cons a l => rfl

theorem eq_nil_of_choose {draws : Draws} (nothing : (draws.choose l).1 = none) : l = [] := by
  by_contra nonempty
  rw [choose_of_ne_nil nonempty, List.getElem?_eq_none_iff] at nothing
  exact Nat.not_le.mpr (index_lt (List.length_pos_iff.mpr nonempty) _ _) nothing

theorem mem_of_choose {draws : Draws} (chosen : (draws.choose l).1 = some a) : a ∈ l := by
  cases l with
  | nil => cases chosen
  | cons b l => exact List.mem_of_getElem? chosen

/-- Whatever is drawn afterwards, the numbers choose an element of a list and no number
is left of them. -/
def Settles (numbers : List UInt32) (l : List α) (a : α) : Prop :=
  ∀ more taken, (Draws.mk (numbers ++ more) taken).choose l =
    (some a, ⟨more, taken + numbers.length⟩)

/-- Every element of a list is chosen by some number. -/
theorem exists_settles (mem : a ∈ l) (few : l.length ≤ UInt32.size) :
    ∃ number, Settles [number] l a := by
  obtain ⟨place, inside, same⟩ := List.mem_iff_getElem.mp mem
  obtain ⟨number, accepts, reaches⟩ := exists_accepts inside few
  refine ⟨number, fun more taken => ?_⟩
  rw [choose_of_ne_nil (List.ne_nil_of_mem mem), List.singleton_append,
    index_of_accepts accepts, reaches, List.getElem?_eq_getElem inside, same]
  rfl

/-! ## Endless sources -/

/-- However many numbers are left out, there is one that chooses among `n` elements. -/
def Fair (source : Stream' UInt32) : Prop :=
  ∀ n, 0 < n → ∀ k, ∃ i, Accepts n ((source.drop k).get i)

/-- Any numbers and then zeros are a fair source, since zero chooses the first place. -/
theorem fair_zeros (numbers : List UInt32) : Fair (numbers ++ₛ Stream'.const 0) := by
  intro n _ k
  refine ⟨numbers.length, ?_⟩
  rw [Stream'.get_drop, Nat.add_comm, Stream'.get_append_right, Stream'.get_const, Accepts,
    UInt32.toNat_zero, Nat.zero_mul, Nat.zero_mod]
  exact Nat.zero_le _

theorem Fair.drop {source : Stream' UInt32} (fair : Fair source) (k : Nat) :
    Fair (source.drop k) := by
  intro n positive j
  obtain ⟨i, accepts⟩ := fair n positive (k + j)
  exact ⟨i, by rwa [Stream'.drop_drop]⟩

/-- Up to the first number that chooses, all are passed over. -/
theorem exists_take_index {i : Nat} {source : Stream' UInt32}
    (accepts : Accepts n (source.get i)) :
    ∃ place k, ∀ more taken,
      index n (source.take k ++ more) taken = (place, ⟨more, taken + k⟩) := by
  induction i generalizing source with
  | zero => exact ⟨_, 1, fun more taken => index_of_accepts accepts more taken⟩
  | succ i ih =>
    by_cases now : Accepts n source.head
    · exact ⟨_, 1, fun more taken => index_of_accepts now more taken⟩
    · have later : Accepts n (source.tail.get i) := accepts
      obtain ⟨place, k, settled⟩ := ih later
      refine ⟨place, k + 1, fun more taken => ?_⟩
      rw [Stream'.take_succ, List.cons_append, index_of_not_accepts now, settled,
        Nat.add_right_comm, Nat.add_assoc]

/-- Some first numbers of a fair source settle a choice. -/
theorem Fair.exists_take_settles {source : Stream' UInt32} (fair : Fair source)
    (nonempty : l ≠ []) : ∃ k a, Settles (source.take k) l a := by
  have positive : 0 < l.length := List.length_pos_iff.mpr nonempty
  obtain ⟨i, accepts⟩ := fair l.length positive 0
  obtain ⟨place, k, settled⟩ := exists_take_index accepts
  rw [Stream'.drop_zero] at settled
  have inside : place < l.length := by
    have below := index_lt positive (source.take k ++ []) 0
    rwa [settled] at below
  refine ⟨k, l[place], fun more taken => ?_⟩
  rw [choose_of_ne_nil nonempty, settled, List.getElem?_eq_getElem inside,
    Stream'.length_take]

end

end Draws

end RightLinear
