/-
**Operators in JSON.**

An operator is written as its family around its kind, and the kind around its data. A kind without
data is written as its name alone. What is written reads back as the same operator, as long as
doubles do.
-/

import Cascades.Count
import Cascades.Json.Basic

namespace Cascades

/-! ### Parts that both directions share -/

/-- The forms in which doubles are read and written, for JSON has no number that is infinite or
NaN. -/
structure DoubleForm where
  read : Json → Option Float
  write : Float → Json

namespace Json

/-- The name and the value of an object with one field. -/
def toTagged? : Json → Option (String × Json)
  | .object [field] => some field
  | _ => none

/-- The value among some whose name is given. -/
def toNamed? {α : Type} (values : List α) (name : α → String) (json : Json) : Option α := do
  let text ← json.toString?
  values.find? fun value => name value = text

/-- A value under its name. -/
def tagged (name : String) (value : Json) : Json := .object [(name, value)]

end Json

/-- The greatest number that a column can have. -/
def greatestColumn : Nat := 0xffffffff

/-! ### Values, tables and columns -/

/-- A whole number of the width of a constant. -/
def Json.toWhole? (json : Json) : Option Int := do
  let value ← json.toInt?
  if -0x8000000000000000 ≤ value ∧ value < 0x8000000000000000 then some value else none

/-- Reads a constant. -/
def Value.ofJson? (form : DoubleForm) : Json → Option Value
  | .string "Null" => some null
  | json => do
    match ← json.toTagged? with
    | ("Bool", value) => return bool (← value.toBool?)
    | ("Int64", value) => return int (← value.toWhole?)
    | ("Float64", value) => return float (← form.read value)
    | ("Utf8", value) => return text (← value.toString?)
    | ("Date", value) => return date (← value.toWhole?)
    | _ => none

/-- A constant under the name of its type. -/
def Value.toJson (form : DoubleForm) : Value → Json
  | null => .string "Null"
  | bool value => .tagged "Bool" (.bool value)
  | int value => .tagged "Int64" (.ofInt value)
  | float value => .tagged "Float64" (form.write value)
  | text value => .tagged "Utf8" (.string value)
  | date days => .tagged "Date" (.ofInt days)

/-- Reads a table. -/
def Table.ofJson? (json : Json) : Option Table := do
  let record ← Json.Record.ofJson? ["schema", "name"] json
  return {
    schema := ← record.required "schema" Json.toString?
    name := ← record.required "name" Json.toString? }

/-- A table as a record. -/
def Table.toJson (table : Table) : Json :=
  .object [("schema", .string table.schema), ("name", .string table.name)]

/-- Reads a column; one that belongs to no table may leave it out. -/
def Column.ofJson? (json : Json) : Option Column := do
  let record ← Json.Record.ofJson? ["id", "table", "name"] json
  return {
    id := ← record.required "id" (Json.toNat? greatestColumn)
    table := ← record.withDefault "table" none fun
      | .null => some none
      | json => json.toString?.map some
    name := ← record.required "name" Json.toString? }

/-- A column as a record. -/
def Column.toJson (column : Column) : Json :=
  .object [("id", .ofNat column.id), ("table", Json.ofOption .string column.table),
    ("name", .string column.name)]

/-! ### Names as values -/

/-- Every binary operator. -/
def BinaryOp.all : List BinaryOp :=
  [eq, notEq, lt, ltEq, gt, gtEq, add, sub, mul, div]

/-- Reads a binary operator. -/
def BinaryOp.ofJson? : Json → Option BinaryOp := Json.toNamed? all name

/-- Every unary operator. -/
def UnaryOp.all : List UnaryOp := [not, neg, isNull, isNotNull]

/-- Every join type. -/
def JoinType.all : List JoinType := [inner, left, right, full, semi, anti, cross]

/-- Reads a join type. -/
def JoinType.ofJson? : Json → Option JoinType := Json.toNamed? all name

/-- Every aggregate function. -/
def AggregateFunction.all : List AggregateFunction := [count, sum, avg, min, max]

/-- Every logical kind. -/
def LogicalKind.all : List LogicalKind :=
  [get, select, project, join, naryJoin, aggregate, limit]

/-- Every physical kind. -/
def PhysicalKind.all : List PhysicalKind :=
  [tableScan, filter, computeScalar, hashJoin, nestedLoopJoin, hashAggregate, limit]

/-- Every scalar kind. -/
def ScalarKind.all : List ScalarKind :=
  [column, constant, binary, unary, and, or, call, aggregate, projectList, projectElement,
    subquery, subqueryExists, arrayComparison, array]

/-! ### Reading operators -/

/-- The only field of an operator's data. -/
def Json.toSole? {α : Type} (name : String) (read : Json → Option α) (json : Json) : Option α := do
  (← Json.Record.ofJson? [name] json).required name read

/-- Reads a table and some of its columns. -/
def Json.toScan? (json : Json) : Option (Table × List Column) := do
  let record ← Json.Record.ofJson? ["table", "columns"] json
  return (← record.required "table" Table.ofJson?,
    ← record.required "columns" (Json.toList? Column.ofJson?))

/-- Reads the numbers of rows that a limit passes over and lets through. -/
def Json.toLimit? (json : Json) : Option (Nat × Nat) := do
  let record ← Json.Record.ofJson? ["offset", "count"] json
  let read := Json.toNat? greatestCount
  return (← record.required "offset" read, ← record.required "count" read)

/-- Reads a logical operator. -/
def LogicalOp.ofJson? : Json → Option LogicalOp
  | .string "Select" => some select
  | .string "Project" => some project
  | .string "NAryJoin" => some naryJoin
  | json => do
    match ← json.toTagged? with
    | ("Get", data) => (Json.toScan? data).map fun (table, columns) => get table columns
    | ("Join", data) => return join (← Json.toSole? "join_type" JoinType.ofJson? data)
    | ("GbAgg", data) =>
      return aggregate (← Json.toSole? "group_by" (Json.toList? Column.ofJson?) data)
    | ("Limit", data) => (Json.toLimit? data).map fun (offset, count) => limit offset count
    | _ => none

/-- Reads a physical operator. -/
def PhysicalOp.ofJson? : Json → Option PhysicalOp
  | .string "Filter" => some filter
  | .string "ComputeScalar" => some computeScalar
  | json => do
    match ← json.toTagged? with
    | ("TableScan", data) => (Json.toScan? data).map fun (table, columns) => tableScan table columns
    | ("HashJoin", data) => return hashJoin (← Json.toSole? "join_type" JoinType.ofJson? data)
    | ("NLJoin", data) => return nestedLoopJoin (← Json.toSole? "join_type" JoinType.ofJson? data)
    | ("HashAgg", data) =>
      return hashAggregate (← Json.toSole? "group_by" (Json.toList? Column.ofJson?) data)
    | ("Limit", data) => (Json.toLimit? data).map fun (offset, count) => limit offset count
    | _ => none

/-- Reads a scalar operator. -/
def ScalarOp.ofJson? (form : DoubleForm) : Json → Option ScalarOp
  | .string "And" => some and
  | .string "Or" => some or
  | .string "ProjectList" => some projectList
  | .string "SubqueryExists" => some subqueryExists
  | .string "Array" => some array
  | json => do
    match ← json.toTagged? with
    | ("Ident", data) => return column (← Column.ofJson? data)
    | ("Const", data) => return constant (← Value.ofJson? form data)
    | ("Binary", data) => return binary (← BinaryOp.ofJson? data)
    | ("Unary", data) => return unary (← Json.toNamed? UnaryOp.all UnaryOp.name data)
    | ("Func", data) => return call (← Json.toSole? "name" Json.toString? data)
    | ("AggFunc", data) =>
      let record ← Json.Record.ofJson? ["func", "distinct"] data
      return aggregate
        (← record.required "func" (Json.toNamed? AggregateFunction.all AggregateFunction.name))
        (← record.required "distinct" Json.toBool?)
    | ("ProjectElement", data) => return projectElement (← Column.ofJson? data)
    | ("Subquery", data) => return subquery (← Column.ofJson? data)
    | ("ArrayCmp", data) =>
      let record ← Json.Record.ofJson? ["op", "kind"] data
      return arrayComparison (← record.required "op" BinaryOp.ofJson?)
        (← record.required "kind" (Json.toNamed? [.any, .all] Quantifier.name))
    | _ => none

/-- Reads an operator. -/
def Operator.ofJson? (form : DoubleForm) (json : Json) : Option Operator := do
  match ← json.toTagged? with
  | ("Logical", data) => return logical (← LogicalOp.ofJson? data)
  | ("Physical", data) => return physical (← PhysicalOp.ofJson? data)
  | ("Scalar", data) => return scalar (← ScalarOp.ofJson? form data)
  | _ => none

/-! ### Writing operators -/

/-- The data of an operator on a table and some of its columns. -/
def Json.ofScan (table : Table) (columns : List Column) : Json :=
  .object [("table", table.toJson), ("columns", Json.ofList Column.toJson columns)]

/-- The data of a limit. -/
def Json.ofLimit (offset count : Nat) : Json :=
  .object [("offset", .ofNat offset), ("count", .ofNat count)]

/-- The data of a join. -/
def Json.ofJoinType (type : JoinType) : Json := .tagged "join_type" (.string type.name)

/-- The data of an aggregation. -/
def Json.ofKeys (keys : List Column) : Json := .tagged "group_by" (Json.ofList Column.toJson keys)

/-- A logical operator as it is written. -/
def LogicalOp.toJson (operator : LogicalOp) : Json :=
  let name := operator.kind.name
  match operator with
  | get table columns => .tagged name (.ofScan table columns)
  | join type => .tagged name (.ofJoinType type)
  | aggregate keys => .tagged name (.ofKeys keys)
  | limit offset count => .tagged name (.ofLimit offset count)
  | select | project | naryJoin => .string name

/-- A physical operator as it is written. -/
def PhysicalOp.toJson (operator : PhysicalOp) : Json :=
  let name := operator.kind.name
  match operator with
  | tableScan table columns => .tagged name (.ofScan table columns)
  | hashJoin type | nestedLoopJoin type => .tagged name (.ofJoinType type)
  | hashAggregate keys => .tagged name (.ofKeys keys)
  | limit offset count => .tagged name (.ofLimit offset count)
  | filter | computeScalar => .string name

/-- A scalar operator as it is written. -/
def ScalarOp.toJson (form : DoubleForm) (operator : ScalarOp) : Json :=
  let name := operator.kind.name
  match operator with
  | column data | projectElement data | subquery data => .tagged name data.toJson
  | constant value => .tagged name (value.toJson form)
  | binary operator => .tagged name (.string operator.name)
  | unary operator => .tagged name (.string operator.name)
  | call function => .tagged name (.tagged "name" (.string function))
  | aggregate function distinct =>
    .tagged name (.object [("func", .string function.name), ("distinct", .bool distinct)])
  | arrayComparison operator quantifier =>
    .tagged name (.object [("op", .string operator.name), ("kind", .string quantifier.name)])
  | and | or | projectList | subqueryExists | array => .string name

/-- An operator as it is written. -/
def Operator.toJson (form : DoubleForm) : Operator → Json
  | logical operator => .tagged "Logical" operator.toJson
  | physical operator => .tagged "Physical" operator.toJson
  | scalar operator => .tagged "Scalar" (operator.toJson form)

end Cascades
