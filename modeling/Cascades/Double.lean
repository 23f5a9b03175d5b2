/-
**Doubles: exact value, total order and arithmetic helpers.**

* `Exact`, `decode`: a double as a sign, a whole mantissa and a power of two;
* `rank`: the place of a double in the order that puts every NaN above infinity and both zeros in
  one place;
* `larger`, `smaller`: the greater and the lesser of two doubles, the other one where one is NaN.
-/

namespace Cascades

/-- A double read exactly: `± mantissa · 2 ^ exponent` where it is finite. -/
inductive Exact where
  | nan
  | infinite (negative : Bool)
  | finite (negative : Bool) (mantissa : Nat) (exponent : Int)
  deriving DecidableEq, Repr

namespace Double

/-! ### Exact value -/

/-- The bit of the sign. -/
def signBit : Nat := 0x8000000000000000

/-- The lowest bit of the exponent, which is also the leading bit of a normal mantissa. -/
def unitBit : Nat := 0x10000000000000

/-- The sign, the eleven exponent bits and the fifty-two fraction bits of a double. -/
def decode (value : Float) : Exact :=
  let bits := value.toBits.toNat
  let negative := decide (signBit ≤ bits)
  let exponent : Nat := bits / unitBit % 2048
  let fraction : Nat := bits % unitBit
  if exponent = 2047 then
    if fraction = 0 then .infinite negative else .nan
  else if exponent = 0 then .finite negative fraction (-1074)
  else .finite negative (unitBit + fraction) ((exponent : Int) - 1075)

/-! ### Order -/

/-- The place of a double among all doubles: the bits below the sign count away from zero, and
every NaN is above infinity. -/
def rank (value : Float) : Int :=
  let bits := value.toBits.toNat
  if value.isNaN then signBit
  else if bits < signBit then (bits : Int)
  else -((bits - signBit : Nat) : Int)

/-- The total order of doubles. -/
def order (first second : Float) : Ordering := compare (rank first) (rank second)

/-! ### Conversion and arithmetic -/

/-- The double nearest to a natural number. -/
def ofNat (value : Nat) : Float := Float.ofScientific value false 0

/-- The double nearest to an integer. -/
def ofInt (value : Int) : Float :=
  if value < 0 then -(ofNat value.natAbs) else ofNat value.natAbs

/-- The greater of two doubles; the other one where one is NaN. -/
def larger (first second : Float) : Float :=
  if first.isNaN then second
  else if second.isNaN then first
  else if first < second then second else first

/-- The lesser of two doubles; the other one where one is NaN. -/
def smaller (first second : Float) : Float :=
  if first.isNaN then second
  else if second.isNaN then first
  else if second < first then second else first

/-- `result · base ^ exponent` by repeated squaring, for an exponent of at most `fuel`. -/
def powerFrom (result base : Float) : (fuel exponent : Nat) → Float
  | 0, _ => result
  | fuel + 1, exponent =>
    if exponent = 0 then result
    else
      let next := if exponent % 2 = 1 then result * base else result
      if exponent / 2 = 0 then next else powerFrom next (base * base) fuel (exponent / 2)

/-- A natural power by repeated squaring. -/
def power (base : Float) (exponent : Nat) : Float := powerFrom 1 base exponent exponent

/-- The greatest finite double. -/
def largest : Float := Float.ofBits 0x7fefffffffffffff

/-- The distance between one and the next double. -/
def epsilon : Float := Float.ofBits 0x3cb0000000000000

/-- The negative zero. -/
def negativeZero : Float := Float.ofBits 0x8000000000000000

end Double

end Cascades
