/-
**Constraints in JSON.**

A bound is `unbounded` or a value under `incl` or `excl`, a range the list of its two bounds. An
interval is a record that holds its text, too; other constraints are the lists of their parts under
`and` or `or`.
-/

import Cascades.Constraint.Basic
import Cascades.Operator.Json

namespace Cascades

variable (form : DoubleForm)

/-! ### Bounds and ranges -/

/-- Reads a bound. -/
def Bound.ofJson? : Json → Option Bound
  | .string "unbounded" => some unbounded
  | json => do
    match ← json.toTagged? with
    | ("incl", value) => return included (← Value.ofJson? form value)
    | ("excl", value) => return excluded (← Value.ofJson? form value)
    | _ => none

/-- A bound as it is written. -/
def Bound.toJson : Bound → Json
  | unbounded => .string "unbounded"
  | included value => .tagged "incl" (value.toJson form)
  | excluded value => .tagged "excl" (value.toJson form)

/-- Reads a range. -/
def Range.ofJson? : Json → Option Range
  | .array [lower, upper] => do return ⟨← Bound.ofJson? form lower, ← Bound.ofJson? form upper⟩
  | _ => none

/-- A range as it is written. -/
def Range.toJson (range : Range) : Json :=
  .array [range.lower.toJson form, range.upper.toJson form]

/-! ### Intervals and constraints -/

/-- An interval as it is written. -/
def Interval.toJson (interval : Interval) : Json :=
  .object [("column", .ofNat interval.column),
    ("ranges", Json.ofList (Range.toJson form) interval.ranges),
    ("null", .bool interval.allowsNull),
    ("text", .string interval.toText)]

namespace Constraint

mutual

/-- A constraint as it is written. -/
def toJson : Constraint → Json
  | interval value => value.toJson form
  | all parts => .tagged "and" (.array (partsToJson parts))
  | any parts => .tagged "or" (.array (partsToJson parts))

/-- The parts of a constraint as they are written. -/
def partsToJson : List Constraint → List Json
  | [] => []
  | part :: rest => toJson part :: partsToJson rest

end

end Constraint

end Cascades
