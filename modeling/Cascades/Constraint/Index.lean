/-
**Constraints that are kept with an index.**

A constraint of several parts is kept with an index, which has for each column the places of the
parts that mention it. What is asked about a column is asked of these parts only.

* `PlaceIndex.ofParts`: the index of some parts; `PlaceIndex.get?_ofParts`: what it has for a column;
* `Indexed`: constraints with an index at every node; `Indexed.ofConstraint` builds them;
* `Indexed.columns`, `Indexed.onColumn?`: what is read from the indexes;
* `Indexed.remap`: the constraint after a renaming of columns, with new indexes.
-/

import Cascades.ColumnMap
import Cascades.Constraint.Basic

namespace Cascades

/-! ### Renamings -/

namespace ColumnMap

/-- The column that a map has for a column; a column without one stays. -/
def rename (map : ColumnMap ColumnId) (column : ColumnId) : ColumnId := (map.get? column).getD column

/-- The map that renames by a map and then by another one. -/
def andThen (first second : ColumnMap ColumnId) : ColumnMap ColumnId :=
  second.override (first.map second.rename)

end ColumnMap

/-! ### Indexes -/

/-- For each of some columns, the places of parts that mention it. -/
abbrev PlaceIndex := ColumnMap (List Nat)

namespace PlaceIndex

/-- Adds a place to those of a column. -/
def push (place : Nat) (index : PlaceIndex) (column : ColumnId) : PlaceIndex :=
  index.insert column ((index.get? column).getD [] ++ [place])

/-- Adds a place to those of some columns. -/
def pushAll (index : PlaceIndex) (columns : ColumnSet) (place : Nat) : PlaceIndex :=
  columns.toList.foldl (push place) index

/-- The index of parts, given the columns that each of them mentions. -/
def ofParts (mentioned : List ColumnSet) : PlaceIndex :=
  mentioned.zipIdx.foldl (fun index part => pushAll index part.1 part.2) .empty

end PlaceIndex

/-! ### Constraints with indexes -/

/-- A constraint with an index at every node that has parts. -/
inductive Indexed where
  | interval (interval : Interval)
  /-- Every part holds. -/
  | all (parts : List Indexed) (index : PlaceIndex)
  /-- At least one part holds. -/
  | any (parts : List Indexed) (index : PlaceIndex)
  deriving Inhabited

namespace Indexed

/-- The columns that a constraint mentions: those that its index has. -/
def columns : Indexed → ColumnSet
  | interval value => SortedSet.empty.insert value.column
  | all _ index => index.columns
  | any _ index => index.columns

/-- The index that belongs to some parts. -/
def indexOf (parts : List Indexed) : PlaceIndex := .ofParts (parts.map columns)

/-- The constraint that every part holds, with a new index. -/
def ofAll (parts : List Indexed) : Indexed := all parts (indexOf parts)

/-- The constraint that some part holds, with a new index. -/
def ofAny (parts : List Indexed) : Indexed := any parts (indexOf parts)

mutual

/-- A constraint with its indexes. -/
def ofConstraint : Constraint → Indexed
  | .interval value => interval value
  | .all parts => ofAll (ofParts parts)
  | .any parts => ofAny (ofParts parts)

/-- Some constraints with their indexes. -/
def ofParts : List Constraint → List Indexed
  | [] => []
  | part :: rest => ofConstraint part :: ofParts rest

end

mutual

/-- A constraint without its indexes. -/
def toConstraint : Indexed → Constraint
  | interval value => .interval value
  | all parts _ => .all (toParts parts)
  | any parts _ => .any (toParts parts)

/-- Some constraints without their indexes. -/
def toParts : List Indexed → List Constraint
  | [] => []
  | part :: rest => toConstraint part :: toParts rest

end

mutual

/-- Whether every index in a constraint is the one that belongs to the parts below it. -/
def Rebuilt : Indexed → Prop
  | interval _ => True
  | all parts index => index = indexOf parts ∧ AllRebuilt parts
  | any parts index => index = indexOf parts ∧ AllRebuilt parts

/-- Whether this is so in all of some constraints. -/
def AllRebuilt : List Indexed → Prop
  | [] => True
  | part :: rest => Rebuilt part ∧ AllRebuilt rest

end

/-! ### One column -/

mutual

/-- What a constraint says about one column, found by the indexes; none where the index does not have
the column. -/
def onColumn? (column : ColumnId) : Indexed → Option Interval
  | interval value => if value.column = column then some value else none
  | all parts index =>
    (index.get? column).bind fun owners =>
      Constraint.meetAll (owners.map fun place => (viewsOnColumn column parts)[place]?.join)
  | any parts index =>
    (index.get? column).bind fun owners =>
      if owners.length < parts.length then some (.unbounded column)
      else Constraint.joinAll column (viewsOnColumn column parts)

/-- What each part says about one column. -/
def viewsOnColumn (column : ColumnId) : List Indexed → List (Option Interval)
  | [] => []
  | part :: rest => onColumn? column part :: viewsOnColumn column rest

end

/-! ### Renaming -/

mutual

/-- The constraint with its columns renamed; ranges stay as they are and all indexes are new. -/
def remap (rename : ColumnId → ColumnId) : Indexed → Indexed
  | interval value => interval { value with column := rename value.column }
  | all parts _ => ofAll (remapParts rename parts)
  | any parts _ => ofAny (remapParts rename parts)

/-- The parts with their columns renamed. -/
def remapParts (rename : ColumnId → ColumnId) : List Indexed → List Indexed
  | [] => []
  | part :: rest => remap rename part :: remapParts rename rest

end

end Indexed

end Cascades
