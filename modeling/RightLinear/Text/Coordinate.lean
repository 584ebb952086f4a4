import RightLinear.Text.Numeral

/-!
# Coordinates

A state may be drawn at a position. A coordinate is read from a decimal with
optional sign, point and exponent, or from a name of infinity or of no number,
and gets the nearest binary value. It is written rounded to an integer, a half
going away from zero: a sign, then the shortest digits that identify the rounded
value, filled up with zeros.

* `Coordinate.read?`, `Coordinate.render`: the two directions.
* `Coordinate.isSome_read_render`: every written coordinate can be read.
-/

namespace RightLinear.Coordinate

/-! ## Reading -/

/-- A decimal split into its digits before the point, after the point, and its
exponent. -/
structure Decimal where
  whole : List Char
  fraction : List Char
  exponent : Int
deriving DecidableEq, Repr

/-- The exponent after the mark `e`: an optional sign and at least one digit. -/
def readExponent? (text : List Char) : Option Int :=
  let (negative, digits) :=
    match text with
    | '-' :: digits => (true, digits)
    | '+' :: digits => (false, digits)
    | digits => (false, digits)
  if digits ≠ [] ∧ digits.all Char.isDigit then
    let value : Int := Nat.ofDigitChars 10 digits 0
    some (if negative then -value else value)
  else none

/-- An unsigned decimal: digits around an optional point, at least one in all,
then an optional exponent. -/
def readDecimal? (text : List Char) : Option Decimal :=
  let whole := text.takeWhile Char.isDigit
  let (fraction, rest) :=
    match text.dropWhile Char.isDigit with
    | '.' :: rest => (rest.takeWhile Char.isDigit, rest.dropWhile Char.isDigit)
    | rest => ([], rest)
  if whole = [] ∧ fraction = [] then none
  else
    match rest with
    | [] => some ⟨whole, fraction, 0⟩
    | mark :: rest =>
      if mark.toLower = 'e' then (readExponent? rest).map (⟨whole, fraction, ·⟩) else none

/-- The binary value nearest to a decimal. An exponent beyond the range of binary
values is decided without computing its power. -/
def Decimal.toFloat (d : Decimal) : Float :=
  let digits := d.whole ++ d.fraction
  let mantissa := Nat.ofDigitChars 10 digits 0
  let exponent := d.exponent - d.fraction.length
  if mantissa = 0 then 0.0
  else if exponent > 400 then 1.0 / 0.0
  else if exponent + digits.length < -400 then 0.0
  else
    match exponent with
    | .ofNat e => Float.ofScientific mantissa false e
    | .negSucc e => Float.ofScientific mantissa true (e + 1)

/-- The value of a coordinate without its sign. -/
def readMagnitude? (text : List Char) : Option Float :=
  let name := text.map Char.toLower
  if name = "inf".toList ∨ name = "infinity".toList then some (1.0 / 0.0)
  else if name = "nan".toList then some (0.0 / 0.0)
  else (readDecimal? text).map Decimal.toFloat

/-- The value of a coordinate. -/
def read? : List Char → Option Float
  | '-' :: text => (readMagnitude? text).map (- ·)
  | '+' :: text => readMagnitude? text
  | text => readMagnitude? text

/-! ## Rounding and writing -/

/-- The sign, the raw exponent and the raw fraction of a binary value. -/
def parts (x : Float) : Bool × Nat × Nat :=
  let bits := x.toBits.toNat
  (bits / Nat.pow 2 63 = 1, bits / Nat.pow 2 52 % Nat.pow 2 11, bits % Nat.pow 2 52)

/-- Of the multiples of `unit` next to `value`, the nearer one among those
strictly between `low / 4` and `high / 4`, or equal to a bound if `closed`. -/
def multipleWithin? (value low high : Nat) (closed : Bool) (unit : Nat) : Option Nat :=
  let below := value / unit * unit
  let above := below + unit
  let fitsBelow := low < 4 * below || (closed && low = 4 * below)
  let fitsAbove := 4 * above < high || (closed && high = 4 * above)
  if fitsBelow && (!fitsAbove || value - below ≤ above - value) then some below
  else if fitsAbove then some above
  else none

/-- The integer with the fewest leading digits among those that round to the
binary value `mantissa · 2 ^ (exponent + 1)`, for a value above `2 ^ 53`. -/
def shortestInteger (mantissa exponent : Nat) (powerOfTwo : Bool) : Nat :=
  let ulp := Nat.pow 2 (exponent + 1)
  let value := mantissa * ulp
  let low := 4 * value - (if powerOfTwo then ulp else 2 * ulp)
  let high := 4 * value + 2 * ulp
  let units := (List.range 309).reverse.map (Nat.pow 10)
  (units.findSome? (multipleWithin? value low high (mantissa % 2 = 0))).getD value

/-- The integer that the finite value with this raw exponent and fraction is
rounded to, by the digits that identify it. -/
def roundedMagnitude (exponent fraction : Nat) : Nat :=
  let mantissa := if exponent = 0 then fraction else Nat.pow 2 52 + fraction
  let scale := max exponent 1
  if scale < 1075 then
    (mantissa + Nat.pow 2 (1075 - scale - 1)) / Nat.pow 2 (1075 - scale)
  else if scale = 1075 then mantissa
  else shortestInteger mantissa (scale - 1076) (fraction = 0)

/-- A coordinate rounded to an integer, a half going away from zero. -/
def render (x : Float) : List Char :=
  let (negative, exponent, fraction) := parts x
  if exponent = 2047 ∧ fraction ≠ 0 then "NaN".toList
  else
    (if negative then ['-'] else []) ++
      (if exponent = 2047 then "inf".toList
       else Numeral.render (roundedMagnitude exponent fraction))

/-! ## What is written can be read -/

/-- A numeral is a magnitude without a point and without an exponent. -/
theorem isSome_readMagnitude_numeral (n : Nat) : (readMagnitude? (Numeral.render n)).isSome := by
  have digits : ∀ c ∈ Numeral.render n, c.isDigit := fun c hc =>
    Numeral.isDigit_of_mem_render hc
  have decimal : (readDecimal? (Numeral.render n)).isSome := by
    have whole : (Numeral.render n).takeWhile Char.isDigit = Numeral.render n := by
      simpa using @List.takeWhile_append_of_pos _ _ _ [] digits
    have rest : (Numeral.render n).dropWhile Char.isDigit = [] := by
      simpa using @List.dropWhile_append_of_pos _ _ _ [] digits
    simp [readDecimal?, whole, rest, Numeral.render_ne_nil]
  unfold readMagnitude?
  dsimp only
  split
  · rfl
  · split
    · rfl
    · simpa using decimal

/-- Every written coordinate can be read. -/
theorem isSome_read_render (x : Float) : (read? (render x)).isSome := by
  have numeral : ∀ n, (read? (Numeral.render n)).isSome := fun n => by
    have digits : ∀ c ∈ Numeral.render n, c.isDigit := fun c hc =>
      Numeral.isDigit_of_mem_render hc
    unfold read?
    split
    · next text eq => exact absurd (digits '-' (by simp [eq])) (by decide)
    · next text eq => exact absurd (digits '+' (by simp [eq])) (by decide)
    · exact isSome_readMagnitude_numeral n
  unfold render
  dsimp only
  split
  · rfl
  · split <;> split
    · rfl
    · simpa [read?] using isSome_readMagnitude_numeral _
    · rfl
    · simpa using numeral _

end RightLinear.Coordinate
