/-!
# Decimal numerals

State ids, line numbers and counts are written as decimal numerals without
leading zeros. A numeral that is read may begin with `+`, may have leading
zeros, and must stay below a bound.

* `read_render`: a number below the bound is read back from its numeral.
-/

namespace RightLinear.Numeral

/-- The decimal digits of a number. -/
def render (n : Nat) : List Char := Nat.toDigits 10 n

/-- The digits of a numeral, with a leading `+` removed. -/
def unsigned : List Char → List Char
  | '+' :: digits => digits
  | digits => digits

/-- The number below `bound` that a numeral stands for. -/
def read? (bound : Nat) (text : List Char) : Option Nat :=
  let digits := unsigned text
  if digits ≠ [] ∧ digits.all Char.isDigit ∧ Nat.ofDigitChars 10 digits 0 < bound then
    some (Nat.ofDigitChars 10 digits 0)
  else none

theorem isDigit_of_mem_render {n : Nat} {c : Char} (h : c ∈ render n) : c.isDigit :=
  Nat.isDigit_of_mem_toDigits (by decide) (by decide) h

theorem render_ne_nil (n : Nat) : render n ≠ [] := Nat.toDigits_ne_nil

/-- Digits carry no sign to remove. -/
theorem unsigned_eq_self {digits : List Char} (h : ∀ c ∈ digits, c.isDigit) :
    unsigned digits = digits := by
  unfold unsigned
  split
  · exact absurd (h '+' List.mem_cons_self) (by decide)
  · rfl

/-- A number below the bound is read back from its numeral. -/
theorem read_render {bound n : Nat} (h : n < bound) : read? bound (render n) = some n := by
  have value : Nat.ofDigitChars 10 (render n) 0 = n := Nat.ofDigitChars_ten_toDigits
  simp [read?, unsigned_eq_self fun c hc => isDigit_of_mem_render hc, value, h,
    render_ne_nil, List.all_eq_true]
  exact fun c hc => isDigit_of_mem_render hc

theorem lt_of_read? {bound n : Nat} {text : List Char} (isRead : read? bound text = some n) :
    n < bound := by
  rw [read?] at isRead
  split at isRead
  · next bounded =>
    cases isRead
    exact bounded.2.2
  · cases isRead

/-- Different numbers have different numerals. -/
theorem render_injective {m n : Nat} (h : render m = render n) : m = n := by
  have := congrArg (Nat.ofDigitChars 10 · 0) h
  simpa [render] using this

end RightLinear.Numeral
