/-
**JSON values.**

Numbers keep the way they were written, since a field may ask for one without a fraction or an
exponent; objects keep their fields in the order of the text, repetitions included. A record has named
fields in a fixed order. It is written as an object, in which unknown fields are passed over and no known
field is repeated, or as a list of the first fields in order.

* `Json`: a value; `toList?`, `field?` and others read it;
* `Record.ofJson?`: the fields of a record that are present;
* `Record.required`, `Record.withDefault`: a field that has to be there, and one that need not be.
-/

import Cascades.Decimal

namespace Cascades

/-- A number as it was written: `± digits · 10 ^ exponent`; `whole` where there was neither a
fraction nor an exponent. -/
structure JsonNumber where
  negative : Bool
  digits : Nat
  exponent : Int
  whole : Bool
  deriving DecidableEq, Repr

/-- A JSON value. -/
inductive Json where
  | null
  | bool (value : Bool)
  | number (value : JsonNumber)
  | string (value : String)
  | array (items : List Json)
  | object (fields : List (String × Json))
  deriving Inhabited

namespace JsonNumber

/-- A whole number; `-0` is none. -/
def toInt? (value : JsonNumber) : Option Int :=
  if value.whole then
    if value.negative then
      if value.digits = 0 then none else some (-(value.digits : Int))
    else some value.digits
  else none

/-- The nearest double, where it is finite. -/
def toFloat? (value : JsonNumber) : Option Float :=
  let last := (Decimal.numeral value.digits).length + value.exponent
  let magnitude :=
    if value.digits = 0 ∨ last < -400 then Double.ofNat 0
    else if 400 < last then Double.largest + Double.largest
    else if value.exponent < 0 then
      Float.ofScientific value.digits true value.exponent.natAbs
    else Float.ofScientific value.digits false value.exponent.natAbs
  if magnitude.isInf then none
  else some (if value.negative then -magnitude else magnitude)

/-- A natural number as it is written. -/
def ofNat (value : Nat) : JsonNumber := ⟨false, value, 0, true⟩

/-- An integer as it is written. -/
def ofInt (value : Int) : JsonNumber := ⟨value < 0, value.natAbs, 0, true⟩

end JsonNumber

namespace Json

/-! ### Construction -/

/-- A natural number. -/
def ofNat (value : Nat) : Json := .number (.ofNat value)

/-- An integer. -/
def ofInt (value : Int) : Json := .number (.ofInt value)

/-- A list of values, each written by `write`. -/
def ofList {α : Type} (write : α → Json) (values : List α) : Json := .array (values.map write)

/-- An optional value; `null` where there is none. -/
def ofOption {α : Type} (write : α → Json) : Option α → Json
  | none => .null
  | some value => write value

/-- A finite double in its shortest digits; `null` for any other. -/
def ofFloat (value : Float) : Json :=
  match Double.decode value with
  | .nan | .infinite _ => .null
  | .finite negative mantissa exponent =>
    if mantissa = 0 then .number ⟨negative, 0, 0, false⟩
    else
      let digits := Decimal.shortest mantissa exponent
      .number ⟨negative, digits.digits, digits.exponent, false⟩

/-! ### Reading single values -/

/-- A truth value. -/
def toBool? : Json → Option Bool
  | .bool value => some value
  | _ => none

/-- A text. -/
def toString? : Json → Option String
  | .string value => some value
  | _ => none

/-- A whole number. -/
def toInt? : Json → Option Int
  | .number value => value.toInt?
  | _ => none

/-- A whole number from zero up to `bound`. -/
def toNat? (bound : Nat) (json : Json) : Option Nat := do
  let value ← json.toInt?
  if 0 ≤ value ∧ value ≤ bound then some value.toNat else none

/-- A finite double. -/
def toFloat? : Json → Option Float
  | .number value => value.toFloat?
  | _ => none

/-- A list whose items are all read by `read`. -/
def toList? {α : Type} (read : Json → Option α) : Json → Option (List α)
  | .array items => items.mapM read
  | _ => none

/-- The last field of an object with a given name. -/
def field? (json : Json) (name : String) : Option Json :=
  match json with
  | .object fields => (fields.reverse.find? fun field => field.1 = name).map (·.2)
  | _ => none

/-! ### Records -/

/-- The fields of a record that are present. -/
abbrev Record := List (String × Json)

namespace Record

/-- The record with the given field names that a value writes. -/
def ofJson? (names : List String) : Json → Option Record
  | .object fields =>
    let known := fields.filter fun field => names.contains field.1
    if (known.map (·.1)).Nodup then some known else none
  | .array items =>
    if items.length ≤ names.length then some (names.zip items) else none
  | _ => none

/-- A field that has to be there. -/
def required {α : Type} (record : Record) (name : String) (read : Json → Option α) : Option α :=
  (record.lookup name).bind read

/-- A field that takes a default where it is missing. -/
def withDefault {α : Type} (record : Record) (name : String) (default : α)
    (read : Json → Option α) : Option α :=
  match record.lookup name with
  | none => some default
  | some json => read json

end Record

end Json

end Cascades
