/-
**Constraints: what a predicate leaves possible.**

A constraint is an interval on one column, or a list of constraints of which all or any hold.

* `all?`, `any?`: build a constraint from parts; nested lists of the same kind are flattened, and
  intervals are merged column by column;
* `onColumn?`: what a constraint says about one column, never more than it does;
* `onColumns?`: what it says about some columns;
* `remap`: the constraint after a renaming of columns.
-/

import Cascades.Constraint.Interval

namespace Cascades

/-- What is known about the columns of a row. -/
inductive Constraint where
  | interval (interval : Interval)
  /-- Every part holds. -/
  | all (parts : List Constraint)
  /-- At least one part holds. -/
  | any (parts : List Constraint)
  deriving Inhabited

namespace Constraint

/-! ### Equality -/

mutual

/-- Whether two constraints have the same shape and equal intervals. -/
def same : Constraint → Constraint → Bool
  | interval first, interval second => first == second
  | all first, all second => sameParts first second
  | any first, any second => sameParts first second
  | _, _ => false

/-- Whether two lists of constraints are the same part by part. -/
def sameParts : List Constraint → List Constraint → Bool
  | [], [] => true
  | first :: rest, second :: others => same first second && sameParts rest others
  | _, _ => false

end

instance : BEq Constraint := ⟨same⟩

/-! ### Building -/

/-- The interval of a constraint that is one. -/
def interval? : Constraint → Option Interval
  | interval value => some value
  | _ => none

/-- The parts of a constraint all of which hold. -/
def conjuncts : Constraint → List Constraint
  | all parts => parts
  | other => [other]

/-- The parts of a constraint one of which holds. -/
def disjuncts : Constraint → List Constraint
  | any parts => parts
  | other => [other]

/-- Adds an interval to a list with one interval for each column, by ascending column. -/
def meetInto (interval : Interval) : List Interval → List Interval
  | [] => [interval]
  | head :: tail =>
    if interval.column < head.column then interval :: head :: tail
    else if interval.column = head.column then head.meet interval :: tail
    else head :: meetInto interval tail

/-- The constraint that all parts hold; none for no parts. Where every part is an interval, those on
one column are met. -/
def all? (parts : List Constraint) : Option Constraint :=
  match parts.flatMap conjuncts with
  | [] => none
  | [single] => some single
  | flat =>
    match flat.mapM interval? with
    | none => some (all flat)
    | some intervals =>
      match intervals.foldl (fun merged next => meetInto next merged) [] with
      | [single] => some (interval single)
      | merged => some (all (merged.map interval))

/-- The constraint that some part holds; none for no parts. Where every part is an interval on the
same column, they are joined. -/
def any? (parts : List Constraint) : Option Constraint :=
  match parts.flatMap disjuncts with
  | [] => none
  | [single] => some single
  | flat =>
    match flat.mapM interval? with
    | some (first :: rest) =>
      if rest.all fun next => next.column = first.column then
        some (interval (rest.foldl Interval.join first))
      else some (any flat)
    | _ => some (any flat)

/-! ### Columns -/

mutual

/-- The columns that a constraint mentions. -/
def columns : Constraint → ColumnSet
  | interval value => SortedSet.empty.insert value.column
  | all parts => columnsOfParts parts
  | any parts => columnsOfParts parts

/-- The columns that some part mentions. -/
def columnsOfParts : List Constraint → ColumnSet
  | [] => .empty
  | part :: rest => (columns part).union (columnsOfParts rest)

end

/-! ### One column -/

/-- The meet of the intervals that are present. -/
def meetAll (views : List (Option Interval)) : Option Interval :=
  match views.filterMap id with
  | [] => none
  | first :: rest => some (rest.foldl Interval.meet first)

/-- The join of the views of all parts on a column: nothing where no part mentions the column, every
value where some part leaves it free. -/
def joinAll (column : ColumnId) (views : List (Option Interval)) : Option Interval :=
  match views.filterMap id with
  | [] => none
  | first :: rest =>
    if views.any (·.isNone) || (first :: rest).any Interval.isUnbounded then
      some (.unbounded column)
    else some (rest.foldl Interval.join first)

mutual

/-- What a constraint says about one column; none where it does not mention the column. -/
def onColumn? (column : ColumnId) : Constraint → Option Interval
  | interval value => if value.column = column then some value else none
  | all parts => meetAll (viewsOnColumn column parts)
  | any parts => joinAll column (viewsOnColumn column parts)

/-- What each part says about one column. -/
def viewsOnColumn (column : ColumnId) : List Constraint → List (Option Interval)
  | [] => []
  | part :: rest => onColumn? column part :: viewsOnColumn column rest

end

/-! ### Several columns -/

mutual

/-- What a constraint says about some columns; none where it leaves them free. -/
def onColumns? (columns : ColumnSet) : Constraint → Option Constraint
  | interval value => if value.column ∈ columns then some (interval value) else none
  | all parts => all? ((viewsOnColumns columns parts).filterMap id)
  | any parts => (viewsOnColumns columns parts).mapM id >>= any?

/-- What each part says about some columns. -/
def viewsOnColumns (columns : ColumnSet) : List Constraint → List (Option Constraint)
  | [] => []
  | part :: rest => onColumns? columns part :: viewsOnColumns columns rest

end

/-! ### Contradictions -/

/-- Whether a constraint is an interval that allows everything. -/
def isUnbounded (constraint : Constraint) : Bool :=
  (constraint.interval?.map Interval.isUnbounded).getD false

mutual

/-- Whether a constraint is seen to hold for no row: no part of a disjunction can hold, or one part
of a conjunction cannot, or its parts leave nothing for some column. -/
def isContradiction : Constraint → Bool
  | interval value => value.isContradiction
  | all parts =>
    anyContradiction parts
      || (columnsOfParts parts).toList.any fun column =>
        ((meetAll (viewsOnColumn column parts)).map Interval.isContradiction).getD false
  | any parts => allContradictions parts

/-- Whether some part is a contradiction. -/
def anyContradiction : List Constraint → Bool
  | [] => false
  | part :: rest => isContradiction part || anyContradiction rest

/-- Whether every part is a contradiction. -/
def allContradictions : List Constraint → Bool
  | [] => true
  | part :: rest => isContradiction part && allContradictions rest

end

/-! ### Renaming -/

mutual

/-- The constraint with its columns renamed; ranges stay as they are. -/
def remap (rename : ColumnId → ColumnId) : Constraint → Constraint
  | interval value => interval { value with column := rename value.column }
  | all parts => all (remapParts rename parts)
  | any parts => any (remapParts rename parts)

/-- The parts with their columns renamed. -/
def remapParts (rename : ColumnId → ColumnId) : List Constraint → List Constraint
  | [] => []
  | part :: rest => remap rename part :: remapParts rename rest

end

end Constraint

end Cascades
