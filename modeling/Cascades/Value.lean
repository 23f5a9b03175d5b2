/-
**Constant values.**

* `Value.compare?`: the order of two values of one type; whole numbers and doubles compare as
  doubles;
* `Value.order`: the order of any two values, which falls back on their types;
* `Value.same`: equality, under which a whole number never equals a double and all NaNs are equal.
-/

import Cascades.Decimal

namespace Cascades

/-- A constant, or a bound of a range. Dates count days from the first of January 1970. -/
inductive Value where
  | null
  | bool (value : Bool)
  | int (value : Int)
  | float (value : Float)
  | text (value : String)
  | date (days : Int)
  deriving Inhabited

namespace Value

/-- Whether a value is null. -/
def isNull : Value → Bool
  | null => true
  | _ => false

/-- Equality of values: doubles are equal where they have one rank. -/
def same : Value → Value → Bool
  | null, null => true
  | bool first, bool second => first == second
  | int first, int second => first == second
  | float first, float second => Double.rank first == Double.rank second
  | text first, text second => first == second
  | date first, date second => first == second
  | _, _ => false

instance : BEq Value := ⟨same⟩

/-- The order of two values of one type. Null and values of different types are not comparable; a
whole number meets a double as its nearest double. -/
def compare? : Value → Value → Option Ordering
  | bool first, bool second => some (compare first.toNat second.toNat)
  | int first, int second => some (compare first second)
  | float first, float second => some (Double.order first second)
  | int first, float second => some (Double.order (Double.ofInt first) second)
  | float first, int second => some (Double.order first (Double.ofInt second))
  | text first, text second => some (compare first second)
  | date first, date second => some (compare first second)
  | _, _ => none

/-- The place of a value's type among the types; both kinds of number share one. -/
def typeRank : Value → Nat
  | null => 0
  | bool _ => 1
  | int _ => 2
  | float _ => 2
  | text _ => 3
  | date _ => 4

/-- The order of any two values: by value where they are comparable, else by type. -/
def order (first second : Value) : Ordering :=
  (compare? first second).getD (compare first.typeRank second.typeRank)

/-- The text of a value. -/
def toText : Value → String
  | null => "NULL"
  | bool value => if value then "true" else "false"
  | int value => toString value
  | float value => Decimal.text value
  | text value => "'" ++ value ++ "'"
  | date days => "date(" ++ toString days ++ ")"

end Value

end Cascades
