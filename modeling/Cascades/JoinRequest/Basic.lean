/-
**Requests to order joins.**

A request lists tables with their statistics and the equalities that join them. `ofJson?` reads one;
fields with a default may be missing, and no field but a table's size may be null.
-/

import Cascades.Json.Basic

namespace Cascades

/-- The statistics of a column in a request. -/
structure ColumnRequest where
  name : String
  distinct : Float
  nullFraction : Float
  averageSize : Float
  deriving Inhabited

/-- A table in a request; without a size it has a hundred bytes for each row. -/
structure TableRequest where
  id : String
  schema : String
  name : String
  rows : Float
  size : Option Float
  columns : List ColumnRequest
  deriving Inhabited

/-- The join of a column of one table with a column of another. -/
structure EdgeRequest where
  leftTable : String
  rightTable : String
  joinType : String
  leftColumn : String
  rightColumn : String
  deriving Inhabited

/-- Tables to be joined and the edges between them. -/
structure JoinRequest where
  tables : List TableRequest
  edges : List EdgeRequest
  deriving Inhabited

/-! ### Reading -/

/-- Reads a column. -/
def ColumnRequest.ofJson? (json : Json) : Option ColumnRequest := do
  let record ← Json.Record.ofJson? ["name", "ndv", "nullFraction", "avgSize"] json
  return {
    name := ← record.required "name" Json.toString?
    distinct := ← record.required "ndv" Json.toFloat?
    nullFraction := ← record.withDefault "nullFraction" 0 Json.toFloat?
    averageSize := ← record.withDefault "avgSize" 8 Json.toFloat? }

/-- Reads a value that may be null. -/
def nullable {α : Type} (read : Json → Option α) : Json → Option (Option α)
  | .null => some none
  | json => (read json).map some

/-- Reads a table. -/
def TableRequest.ofJson? (json : Json) : Option TableRequest := do
  let record ←
    Json.Record.ofJson? ["id", "schema", "name", "rowCount", "sizeBytes", "columns"] json
  return {
    id := ← record.required "id" Json.toString?
    schema := ← record.withDefault "schema" "default" Json.toString?
    name := ← record.required "name" Json.toString?
    rows := ← record.required "rowCount" Json.toFloat?
    size := ← record.withDefault "sizeBytes" none (nullable Json.toFloat?)
    columns := ← record.withDefault "columns" [] (Json.toList? ColumnRequest.ofJson?) }

/-- Reads an edge. -/
def EdgeRequest.ofJson? (json : Json) : Option EdgeRequest := do
  let record ← Json.Record.ofJson?
    ["leftTableId", "rightTableId", "joinType", "leftColumn", "rightColumn"] json
  return {
    leftTable := ← record.required "leftTableId" Json.toString?
    rightTable := ← record.required "rightTableId" Json.toString?
    joinType := ← record.withDefault "joinType" "INNER" Json.toString?
    leftColumn := ← record.required "leftColumn" Json.toString?
    rightColumn := ← record.required "rightColumn" Json.toString? }

/-- Reads a request. -/
def JoinRequest.ofJson? (json : Json) : Option JoinRequest := do
  let record ← Json.Record.ofJson? ["tables", "joins"] json
  return {
    tables := ← record.required "tables" (Json.toList? TableRequest.ofJson?)
    edges := ← record.withDefault "joins" [] (Json.toList? EdgeRequest.ofJson?) }

end Cascades
