/-
**Requests as queries.**

A request becomes one join of all its tables, in a memo with a catalog of their statistics. Columns
are numbered from one on in the order of the request; the predicate is the conjunction of the edges.
-/

import Cascades.JoinRequest.Basic
import Cascades.Memo.Basic
import Cascades.Catalog

namespace Cascades

/-- Why a request has no answer. -/
inductive RequestError where
  | invalidGraph (reason : String)
  | noPlan
  | unexpectedOperator (text : String)
  | failed (failure : Failure)
  deriving Inhabited

instance : MonadLift (Except Fault) (Except RequestError) where
  monadLift
    | .ok value => .ok value
    | .error cause => .error (.failed (.fault cause))

namespace RequestError

/-- The text of an error. -/
def message : RequestError → String
  | invalidGraph reason => "invalid join graph: " ++ reason
  | noPlan => "no physical plan found for the join graph"
  | unexpectedOperator text => "unexpected operator in optimized plan: " ++ text
  | failed (.abort cause) => cause.message
  | failed (.fault cause) => cause.message

end RequestError

/-- A table of a request in the memo: its group, and its columns by name. -/
structure LoadedTable where
  group : GroupId
  columns : List (String × Column)
  deriving Inhabited

/-- A request in a memo, with the names to give an answer in. Of several entries for a key the first
counts. -/
structure JoinQuery where
  memo : Memo := .empty
  catalog : Catalog.Entries := {}
  root : GroupId := 0
  /-- The loaded tables by the names that the request gives them. -/
  tables : List (String × LoadedTable) := []
  /-- The name of the table that a group stands for. -/
  tableNames : List (GroupId × String) := []
  /-- The table and the name of each column. -/
  columnNames : List (ColumnId × String × String) := []
  nextColumn : ColumnId := 1
  deriving Inhabited

namespace JoinQuery

/-! ### Tables -/

/-- The columns of a table with their statistics, numbered from a first number on. -/
def numberColumns (table : TableRequest) (first : ColumnId) :
    List (Column × ColumnStatistics) :=
  table.columns.zipIdx.map fun (column, offset) =>
    ({ id := first + offset, table := some table.name, name := column.name },
      { distinct := column.distinct
        nullFraction := column.nullFraction
        averageSize := column.averageSize })

/-- The statistics of a table. -/
def statisticsOf (table : TableRequest) (columns : List (Column × ColumnStatistics)) :
    Statistics where
  rows := table.rows
  size := table.size.getD (table.rows * Statistics.defaultRowSize)
  columns := .ofList (columns.map fun (column, statistics) => (column.id, statistics))

/-- Loads one table. -/
def addTable (query : JoinQuery) (table : TableRequest) : Except RequestError JoinQuery := do
  if (query.tables.lookup table.id).isSome then
    throw (.invalidGraph ("duplicate table id " ++ table.id))
  let numbered := numberColumns table query.nextColumn
  let columns := numbered.map (·.1)
  let name : Table := ⟨table.schema, table.name⟩
  let (expr, memo) ← (query.memo.insert (.logical (.get name columns)) [] :
    Except Fault (ExprId × Memo))
  let group := (← (memo.expr expr : Except Fault Expr)).group
  let named := columns.map fun column => (column.name, column)
  return { query with
    memo
    catalog := query.catalog.addTable name
      { columns, statistics := statisticsOf table numbered }
    tables := (table.id, { group, columns := named.reverse }) :: query.tables
    tableNames := (group, table.id) :: query.tableNames
    columnNames := query.columnNames
      ++ columns.map fun column => (column.id, table.id, column.name)
    nextColumn := query.nextColumn + columns.length }

/-! ### Edges -/

/-- The column of a table. -/
def column (query : JoinQuery) (table name : String) : Except RequestError Column :=
  match query.tables.lookup table with
  | none => throw (.invalidGraph ("unknown table id " ++ table))
  | some loaded =>
    match loaded.columns.lookup name with
    | none => throw (.invalidGraph ("table " ++ table ++ " has no column " ++ name))
    | some column => return column

/-- Inserts an expression and gives its group. -/
def insert (query : JoinQuery) (operator : Operator) (children : List GroupId) :
    Except RequestError (GroupId × JoinQuery) := do
  let (expr, memo) ← (query.memo.insert operator children : Except Fault (ExprId × Memo))
  return ((← (memo.expr expr : Except Fault Expr)).group, { query with memo })

/-- Whether a join type is the inner one, in any case of its letters. -/
def isInner (joinType : String) : Bool := joinType.map Char.toLower = "inner"

/-- Loads one edge; gives the group of its equality. -/
def addEdge (query : JoinQuery) (edge : EdgeRequest) :
    Except RequestError (GroupId × JoinQuery) := do
  if !isInner edge.joinType then
    throw (.invalidGraph ("join " ++ edge.leftTable ++ " - " ++ edge.rightTable ++ " is "
      ++ edge.joinType ++ "; only INNER joins can be reordered"))
  let leftColumn ← query.column edge.leftTable edge.leftColumn
  let rightColumn ← query.column edge.rightTable edge.rightColumn
  let (left, query) ← query.insert (.scalar (.column leftColumn)) []
  let (right, query) ← query.insert (.scalar (.column rightColumn)) []
  query.insert (.scalar (.binary .eq)) [left, right]

/-- Loads edges; gives the groups of their equalities. -/
def addEdges (query : JoinQuery) : List EdgeRequest → Except RequestError (List GroupId × JoinQuery)
  | [] => return ([], query)
  | edge :: rest => do
    let (conjunct, query) ← query.addEdge edge
    let (conjuncts, query) ← query.addEdges rest
    return (conjunct :: conjuncts, query)

/-- The predicate of some conjuncts. -/
def addPredicate (query : JoinQuery) :
    List GroupId → Except RequestError (GroupId × JoinQuery)
  | [] => query.insert .truth []
  | [single] => return (single, query)
  | several => query.insert (.scalar .and) several

/-! ### Requests -/

/-- Loads a request. -/
def ofRequest (request : JoinRequest) : Except RequestError JoinQuery := do
  if request.tables.isEmpty then throw (.invalidGraph "no tables")
  let query ← request.tables.foldlM addTable ({} : JoinQuery)
  let (conjuncts, query) ← query.addEdges request.edges
  let (predicate, query) ← query.addPredicate conjuncts
  let inputs := request.tables.filterMap fun table =>
    (query.tables.lookup table.id).map LoadedTable.group
  let (root, query) ← query.insert (.logical .naryJoin) (inputs ++ [predicate])
  return { query with root }

end JoinQuery

end Cascades
