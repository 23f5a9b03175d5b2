/-
**Statistics in JSON.**

Statistics are a record of the rows, the size and the columns. A column is the list of its number
and its statistics; the last of these may be missing, and so may the size and the columns.
-/

import Cascades.Operator.Json
import Cascades.Statistics.Basic

namespace Cascades

variable (form : DoubleForm)

namespace ColumnStatistics

/-- Reads a column and its statistics. -/
def ofJson? : Json → Option (ColumnId × ColumnStatistics)
  | .array (column :: distinct :: rest) => do
    let known : ColumnStatistics := { distinct := ← form.read distinct }
    return (← column.toNat? greatestColumn, {
      distinct := known.distinct
      nullFraction := ← rest[0]?.elim (some known.nullFraction) form.read
      averageSize := ← rest[1]?.elim (some known.averageSize) form.read })
  | _ => none

/-- A column and its statistics as they are written. -/
def toJson (entry : ColumnId × ColumnStatistics) : Json :=
  .array [.ofNat entry.1, form.write entry.2.distinct, form.write entry.2.nullFraction,
    form.write entry.2.averageSize]

end ColumnStatistics

namespace Statistics

/-- Reads statistics; without a size each row has the default one. -/
def ofJson? (json : Json) : Option Statistics := do
  let rows ← (← json.field? "rows") |> form.read
  let size ←
    match json.field? "size" with
    | none | some .null => some (rows * defaultRowSize)
    | some size => form.read size
  let columns ←
    match json.field? "cols" with
    | none | some .null => some []
    | some columns => columns.toList? (ColumnStatistics.ofJson? form)
  return { rows, size, columns := .ofList columns }

/-- Statistics as they are written, the columns in ascending order. -/
def toJson (statistics : Statistics) : Json :=
  .object [("rows", form.write statistics.rows), ("size", form.write statistics.size),
    ("cols", Json.ofList (ColumnStatistics.toJson form) statistics.columns.entries)]

end Statistics

end Cascades
