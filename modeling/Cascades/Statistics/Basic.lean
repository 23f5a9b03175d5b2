/-
**Statistics of relations.**

The estimated number of rows of a relation, its size in bytes, and for each of its columns the
number of distinct values, the share of nulls and the size of a value.

* `Statistics.join`: an equality of columns keeps one pair of rows in as many as the larger side has
  distinct values; several equalities are independent;
* `Statistics.filter`: keeps a share of the rows and of the distinct values;
* `Statistics.aggregate`: one row for each combination of distinct key values, at most one per row.
-/

import Cascades.ColumnMap

namespace Cascades

/-- The statistics of a column. -/
structure ColumnStatistics where
  distinct : Float
  nullFraction : Float := 0
  averageSize : Float := 8
  deriving Inhabited

/-- The statistics of a relation. -/
structure Statistics where
  rows : Float
  size : Float
  columns : ColumnMap ColumnStatistics := .empty
  deriving Inhabited

namespace Statistics

/-- The number of rows assumed for a table without statistics. -/
def defaultRows : Float := 1000

/-- The size of a row that is assumed where nothing is known. -/
def defaultRowSize : Float := 100

/-- The share of rows that a predicate keeps where nothing better is known. -/
def defaultSelectivity : Float := 0.1

/-- The share of rows that a comparison of order keeps. -/
def rangeSelectivity : Float := 1.0 / 3.0

/-- The statistics assumed for a table without any. -/
def default : Statistics := ⟨defaultRows, defaultRows * defaultRowSize, .empty⟩

/-- Whether a relation has a column. -/
def hasColumn (statistics : Statistics) (column : ColumnId) : Bool :=
  statistics.columns.contains column

/-- The number of distinct values of a column; an unknown column has a different one in each row. -/
def distinct (statistics : Statistics) (column : ColumnId) : Float :=
  match statistics.columns.get? column with
  | some known => known.distinct
  | none => statistics.rows

/-- The average size of a row. -/
def rowSize (statistics : Statistics) : Float :=
  if 0 < statistics.rows then statistics.size / statistics.rows else defaultRowSize

/-- The columns with no more distinct values than there are rows. -/
def capDistinct (columns : ColumnMap ColumnStatistics) (rows : Float) :
    ColumnMap ColumnStatistics :=
  columns.map fun column => { column with distinct := Double.smaller column.distinct rows }

/-- The greater number of distinct values on the two sides of an equality, at least one. -/
def distinctOfPair (left right : Statistics) (pair : ColumnId × ColumnId) : Float :=
  Double.larger (Double.larger (left.distinct pair.1) (right.distinct pair.2)) 1

/-- The join of two relations on equalities between a left and a right column; without any, the
product. -/
def join (left right : Statistics) (pairs : List (ColumnId × ColumnId)) : Statistics :=
  let selectivity := pairs.foldl (fun share pair => share / distinctOfPair left right pair) 1
  let rows := Double.larger (left.rows * right.rows * selectivity) 1
  { rows
    size := rows * (left.rowSize + right.rowSize)
    columns := capDistinct (left.columns.override right.columns) rows }

/-- The rows of a relation that a predicate with a selectivity keeps, at least one. -/
def filter (input : Statistics) (selectivity : Float) : Statistics :=
  let rows := Double.larger (input.rows * selectivity) 1
  let ratio := if 0 < input.rows then rows / input.rows else 1
  { rows
    size := input.size * ratio
    columns := input.columns.map fun column =>
      { column with
        distinct := Double.smaller (Double.larger (column.distinct * ratio) 1) rows } }

/-- The groups of an aggregation; without keys there is one. -/
def aggregate (input : Statistics) (keys : List ColumnId) : Statistics :=
  let groups := keys.foldl (fun count key => count * input.distinct key) 1
  let rows := Double.larger (Double.smaller groups input.rows) 1
  let known := keys.filterMap fun key => (input.columns.get? key).map fun column => (key, column)
  { rows
    size := rows * defaultRowSize
    columns := capDistinct (.ofList known) rows }

/-- The share of rows in which a column equals a constant. -/
def equalitySelectivity (statistics : Statistics) (column : ColumnId) : Float :=
  match statistics.columns.get? column with
  | some known => 1 / Double.larger known.distinct 1
  | none => defaultSelectivity

end Statistics

end Cascades
