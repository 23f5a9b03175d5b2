/-
**Ranges of values.**

A range lies between two bounds, each open, closed or missing. Bounds compare by the order of
values; an open lower bound is above a closed one at the same value, an open upper bound below it.
-/

import Cascades.Value

namespace Cascades

/-- One end of a range. -/
inductive Bound where
  | unbounded
  | included (value : Value)
  | excluded (value : Value)
  deriving BEq, Inhabited

/-- The values between two bounds. -/
structure Range where
  lower : Bound
  upper : Bound
  deriving BEq, Inhabited

namespace Bound

/-- The order of lower bounds: a missing one is least. -/
def orderLower : Bound → Bound → Ordering
  | unbounded, unbounded => .eq
  | unbounded, _ => .lt
  | _, unbounded => .gt
  | included first, included second => Value.order first second
  | excluded first, excluded second => Value.order first second
  | included first, excluded second => (Value.order first second).then .lt
  | excluded first, included second => (Value.order first second).then .gt

/-- The order of upper bounds: a missing one is greatest. -/
def orderUpper : Bound → Bound → Ordering
  | unbounded, unbounded => .eq
  | unbounded, _ => .gt
  | _, unbounded => .lt
  | included first, included second => Value.order first second
  | excluded first, excluded second => Value.order first second
  | included first, excluded second => (Value.order first second).then .gt
  | excluded first, included second => (Value.order first second).then .lt

end Bound

namespace Range

/-- All values. -/
def unbounded : Range := ⟨.unbounded, .unbounded⟩

/-- One value. -/
def point (value : Value) : Range := ⟨.included value, .included value⟩

/-- Whether both bounds are missing. -/
def isUnbounded : Range → Bool
  | ⟨.unbounded, .unbounded⟩ => true
  | _ => false

/-- Whether no value can lie between the bounds. -/
def isEmpty : Range → Bool
  | ⟨.unbounded, _⟩ => false
  | ⟨_, .unbounded⟩ => false
  | ⟨.included lower, .included upper⟩ => Value.order lower upper == .gt
  | ⟨.included lower, .excluded upper⟩ => Value.order lower upper != .lt
  | ⟨.excluded lower, .included upper⟩ => Value.order lower upper != .lt
  | ⟨.excluded lower, .excluded upper⟩ => Value.order lower upper != .lt

/-- The values in both ranges, if there can be any. -/
def intersect? (first second : Range) : Option Range :=
  let lower :=
    if Bound.orderLower first.lower second.lower == .lt then second.lower else first.lower
  let upper :=
    if Bound.orderUpper first.upper second.upper == .gt then second.upper else first.upper
  let range : Range := ⟨lower, upper⟩
  if range.isEmpty then none else some range

/-- Whether a range that starts no earlier overlaps this one or touches it. -/
def connects (range next : Range) : Bool :=
  match range.upper, next.lower with
  | .unbounded, _ => true
  | _, .unbounded => true
  | .excluded upper, .excluded lower => Value.order lower upper == .lt
  | .included upper, .included lower => Value.order lower upper != .gt
  | .included upper, .excluded lower => Value.order lower upper != .gt
  | .excluded upper, .included lower => Value.order lower upper != .gt

/-- The text of a range. -/
def toText (range : Range) : String :=
  let lower :=
    match range.lower with
    | .unbounded => "(-inf"
    | .included value => "[" ++ value.toText
    | .excluded value => "(" ++ value.toText
  let upper :=
    match range.upper with
    | .unbounded => ", inf)"
    | .included value => ", " ++ value.toText ++ "]"
    | .excluded value => ", " ++ value.toText ++ ")"
  lower ++ upper

/-! ### Normal form -/

/-- Inserts a range in front of all ranges that start no earlier. -/
def insertByLower (range : Range) : List Range → List Range
  | [] => [range]
  | head :: tail =>
    if Bound.orderLower head.lower range.lower == .lt then head :: insertByLower range tail
    else range :: head :: tail

/-- The ranges by ascending lower bound; ranges with equal ones keep their order. -/
def sortByLower (ranges : List Range) : List Range := ranges.foldr insertByLower []

/-- Joins a range with the connected ranges that follow it in ascending order. -/
def mergeFrom (current : Range) : List Range → List Range
  | [] => [current]
  | next :: rest =>
    if current.connects next then
      let upper :=
        if Bound.orderUpper next.upper current.upper == .gt then next.upper else current.upper
      mergeFrom ⟨current.lower, upper⟩ rest
    else current :: mergeFrom next rest

/-- Joins connected neighbours of an ascending list. -/
def merge : List Range → List Range
  | [] => []
  | first :: rest => mergeFrom first rest

/-- The ascending ranges, no two of them connected, that hold the same values. -/
def normalize (ranges : List Range) : List Range :=
  merge (sortByLower (ranges.filter fun range => !range.isEmpty))

end Range

end Cascades
