/-
**Intervals: the values that one column may take.**

An interval holds a list of ranges in normal form and says whether null is allowed.

* `Interval.ofRanges` brings ranges into normal form;
* `Interval.meet`, `Interval.join`: the values of both intervals, and of either one.
-/

import Cascades.Constraint.Range
import Cascades.Failure

namespace Cascades

/-- The values that one column may take. -/
structure Interval where
  column : ColumnId
  ranges : List Range
  allowsNull : Bool
  deriving BEq, Inhabited

namespace Interval

/-- The interval of the values in some ranges. -/
def ofRanges (column : ColumnId) (ranges : List Range) (allowsNull : Bool) : Interval :=
  ⟨column, Range.normalize ranges, allowsNull⟩

/-- Every value, null included. -/
def unbounded (column : ColumnId) : Interval := ofRanges column [.unbounded] true

/-- Every value except null. -/
def notNull (column : ColumnId) : Interval := ofRanges column [.unbounded] false

/-- Null alone. -/
def nullOnly (column : ColumnId) : Interval := ofRanges column [] true

/-- The values for which a comparison with a constant is true; none if the operator does not
compare. No value compares with null. -/
def ofComparison? (column : ColumnId) (operator : BinaryOp) (value : Value) : Option Interval :=
  if value.isNull then some (ofRanges column [] false)
  else
    let ranges :=
      match operator with
      | .eq => some [Range.point value]
      | .notEq => some [⟨.unbounded, .excluded value⟩, ⟨.excluded value, .unbounded⟩]
      | .lt => some [⟨.unbounded, .excluded value⟩]
      | .ltEq => some [⟨.unbounded, .included value⟩]
      | .gt => some [⟨.excluded value, .unbounded⟩]
      | .gtEq => some [⟨.included value, .unbounded⟩]
      | .add | .sub | .mul | .div => none
    ranges.map fun ranges => ofRanges column ranges false

/-- Whether nothing is allowed. -/
def isContradiction (interval : Interval) : Bool :=
  interval.ranges.isEmpty && !interval.allowsNull

/-- Whether everything is allowed. -/
def isUnbounded (interval : Interval) : Bool :=
  match interval.ranges with
  | [range] => interval.allowsNull && range.isUnbounded
  | _ => false

/-! ### Meet and join -/

/-- The values of both intervals, on the column of the first. -/
def meet (first second : Interval) : Interval :=
  ofRanges first.column
    (first.ranges.flatMap fun range => second.ranges.filterMap range.intersect?)
    (first.allowsNull && second.allowsNull)

/-- The values of either interval, on the column of the first. -/
def join (first second : Interval) : Interval :=
  ofRanges first.column (first.ranges ++ second.ranges) (first.allowsNull || second.allowsNull)

/-- The meet of two intervals on one column. -/
def intersect (first second : Interval) : Except Fault Interval :=
  if first.column = second.column then .ok (first.meet second)
  else .error (.intersectedColumns first.column second.column)

/-- The join of two intervals on one column. -/
def union (first second : Interval) : Except Fault Interval :=
  if first.column = second.column then .ok (first.join second)
  else .error (.unitedColumns first.column second.column)

/-- The text of an interval. -/
def toText (interval : Interval) : String :=
  let nulls := if interval.allowsNull then ["null"] else []
  "#" ++ toString interval.column ++ " in \x7b"
    ++ String.intercalate ", " (interval.ranges.map Range.toText ++ nulls) ++ "\x7d"

end Interval

end Cascades
