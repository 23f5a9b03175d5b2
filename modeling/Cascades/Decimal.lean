/-
**Decimal text of doubles.**

* `shortest`: the fewest digits that read back as a given double, the nearest to it among those;
* `Decimal.positional`: digits and a power of ten written without an exponent;
* `text`: the shortest text of a double, `fixed`: its text with a given number of places, where a
  half goes to the even neighbour.
-/

import Cascades.Double

namespace Cascades

/-- The number `digits · 10 ^ exponent`. -/
structure Decimal where
  digits : Nat
  exponent : Int
  deriving DecidableEq, Repr

namespace Decimal

/-- The decimal digits of a natural number. -/
def numeral (value : Nat) : List Char := Nat.toDigits 10 value

/-! ### Shortest digits -/

/-- A positive power of two or ten as a fraction: numerator and denominator. -/
def powerRatio (base : Nat) (exponent : Int) : Nat × Nat :=
  (base.pow exponent.toNat, base.pow (-exponent).toNat)

/-- The exponent `e` with `10 ^ (e - 1) ≤ numerator / denominator < 10 ^ e`. -/
def magnitude (numerator denominator : Nat) : Int :=
  let estimate := ((numeral numerator).length : Int) - (numeral denominator).length
  let (up, down) := powerRatio 10 estimate
  if up * denominator ≤ numerator * down then estimate + 1 else estimate

/-- The reals that read back as one double, in units of `up / down`: from `low` to `high`, the ends
included where `closed`. -/
structure Neighbourhood where
  low : Nat
  value : Nat
  high : Nat
  closed : Bool
  up : Nat
  down : Nat

/-- The neighbourhood of `mantissa · 2 ^ exponent` in quarters of its last place. The next double
below a power of two is only half as far away. -/
def neighbourhood (mantissa : Nat) (exponent : Int) : Neighbourhood :=
  let (up, down) := powerRatio 2 (exponent - 2)
  let narrow := mantissa = Double.unitBit ∧ -1074 < exponent
  { low := 4 * mantissa - (if narrow then 1 else 2)
    value := 4 * mantissa
    high := 4 * mantissa + 2
    closed := mantissa % 2 = 0
    up, down }

/-- The nearer of the two multiples of `10 ^ exponent` around the value, if it lies in the
neighbourhood; of two that are equally near, the upper one. -/
def Neighbourhood.candidate (around : Neighbourhood) (exponent : Int) : Option Decimal :=
  let (up, down) := powerRatio 10 exponent
  let unit := around.up * down
  let step := up * around.down
  let inside (multiple : Nat) : Bool :=
    if around.closed then
      around.low * unit ≤ multiple * step ∧ multiple * step ≤ around.high * unit
    else
      around.low * unit < multiple * step ∧ multiple * step < around.high * unit
  let below := around.value * unit / step
  let toBelow := around.value * unit - below * step
  let toAbove := (below + 1) * step - around.value * unit
  match inside below, inside (below + 1) with
  | true, true => some ⟨if toBelow < toAbove then below else below + 1, exponent⟩
  | true, false => some ⟨below, exponent⟩
  | false, true => some ⟨below + 1, exponent⟩
  | false, false => none

/-- Drops the zeros that end the digits. -/
def trim : (fuel : Nat) → Decimal → Decimal
  | 0, number => number
  | fuel + 1, number =>
    if number.digits ≠ 0 ∧ number.digits % 10 = 0 then
      trim fuel ⟨number.digits / 10, number.exponent + 1⟩
    else number

/-- The shortest decimal that reads back as `mantissa · 2 ^ exponent`, for a positive mantissa:
seventeen digits are always enough. -/
def shortest (mantissa : Nat) (exponent : Int) : Decimal :=
  let around := neighbourhood mantissa exponent
  let top := magnitude (around.value * around.up) around.down
  let found := (List.range 17).findSome? fun count : Nat => around.candidate (top - (count + 1))
  trim 17 (found.getD ⟨0, 0⟩)

/-! ### Text -/

/-- A decimal written without an exponent. -/
def positional (number : Decimal) : String :=
  let digits := numeral number.digits
  if 0 ≤ number.exponent then
    String.ofList (digits ++ List.replicate number.exponent.toNat '0')
  else
    let places := (-number.exponent).toNat
    let padded := List.replicate (places + 1 - digits.length) '0' ++ digits
    let whole := padded.length - places
    String.ofList (padded.take whole ++ '.' :: padded.drop whole)

/-- The sign in front of a text. -/
def signed (negative : Bool) (body : String) : String :=
  if negative then "-" ++ body else body

/-- The shortest text that reads back as the double, without an exponent. -/
def text (value : Float) : String :=
  match Double.decode value with
  | .nan => "NaN"
  | .infinite negative => signed negative "inf"
  | .finite negative mantissa exponent =>
    signed negative (if mantissa = 0 then "0" else (shortest mantissa exponent).positional)

/-- A quotient rounded to the nearest natural number, a half to the even one. -/
def roundEven (numerator denominator : Nat) : Nat :=
  let quotient := numerator / denominator
  let twice := 2 * (numerator % denominator)
  if twice < denominator then quotient
  else if denominator < twice then quotient + 1
  else if quotient % 2 = 0 then quotient else quotient + 1

/-- The text of a double with a fixed number of places, a half going to the even neighbour. -/
def fixed (places : Nat) (value : Float) : String :=
  match Double.decode value with
  | .nan => "NaN"
  | .infinite negative => signed negative "inf"
  | .finite negative mantissa exponent =>
    let (up, down) := powerRatio 2 exponent
    let rounded := roundEven (mantissa * up * Nat.pow 10 places) down
    signed negative (positional ⟨rounded, -(places : Int)⟩)

end Decimal

end Cascades
