/-
**Derived properties of groups.**

A group has properties that follow from the operators in it: ten of a scalar group, six of a
relational one. They are found one at a time and kept in a sheet; the derivations for each sheet are
counted.

* `ScalarProperty`, `RelationalProperty`: the properties, and the type of each one's value;
* `Facts`: all sheets, with the numbers of derivations;
* `Context`: a memo with what is known of it; `scalarProperties` and `relationalProperties` read a
  group whose sheet is complete.
-/

import Cascades.Catalog
import Cascades.Constraint.Predicate
import Cascades.Property.Sheet

namespace Cascades

/-! ### Properties -/

/-- The properties of a scalar group. -/
inductive ScalarProperty where
  /-- The columns that project elements define. -/
  | definedColumns
  /-- The columns that the value depends on. -/
  | usedColumns
  /-- The defined columns whose value is a set. -/
  | setReturningColumns
  /-- Whether a subquery occurs. -/
  | hasSubquery
  /-- The partitioned tables that subqueries scan. -/
  | partitions
  /-- The most restrictive traits of the functions. -/
  | functionTraits
  /-- Whether a function returns a set. -/
  | hasSetFunction
  /-- The number of different distinct aggregates of a project list. -/
  | distinctAggregates
  /-- Whether the distinct aggregates of a project list have different arguments. -/
  | multipleDistinctAggregates
  /-- Whether a comparison with an array occurs. -/
  | hasArrayComparison
  deriving DecidableEq, Repr

/-- The properties of a relational group. -/
inductive RelationalProperty where
  /-- The columns that a row has. -/
  | outputColumns
  /-- The columns that are used and come from no input. -/
  | outerReferences
  /-- What is known about each row. -/
  | constraint
  /-- A bound on the number of rows. -/
  | maxCardinality
  /-- The number of base tables that are joined. -/
  | joinDepth
  /-- The partitioned tables that are scanned. -/
  | partitions
  deriving DecidableEq, Repr

namespace ScalarProperty

/-- The type of a property's value. -/
abbrev Value : ScalarProperty → Type
  | definedColumns | usedColumns | setReturningColumns => ColumnSet
  | hasSubquery | hasSetFunction | multipleDistinctAggregates | hasArrayComparison => Bool
  | partitions => TableSet
  | functionTraits => FunctionTraits
  | distinctAggregates => Nat

/-- Every property, in the order of derivation. -/
def all : List ScalarProperty :=
  [definedColumns, usedColumns, setReturningColumns, hasSubquery, partitions, functionTraits,
    hasSetFunction, distinctAggregates, multipleDistinctAggregates, hasArrayComparison]

end ScalarProperty

namespace RelationalProperty

/-- The type of a property's value. -/
abbrev Value : RelationalProperty → Type
  | outputColumns | outerReferences => ColumnSet
  | constraint => Option Constraint
  | maxCardinality => Option Nat
  | joinDepth => Nat
  | partitions => TableSet

/-- Every property, in the order of derivation. -/
def all : List RelationalProperty :=
  [outputColumns, outerReferences, constraint, maxCardinality, joinDepth, partitions]

end RelationalProperty

/-- The properties of a scalar group once all are found. -/
abbrev ScalarProperties := (property : ScalarProperty) → property.Value

/-- The properties of a relational group once all are found. -/
abbrev RelationalProperties := (property : RelationalProperty) → property.Value

/-- What is known of a scalar group. -/
abbrev ScalarSheet := Sheet ScalarProperty.Value

/-- What is known of a relational group. -/
abbrev RelationalSheet := Sheet RelationalProperty.Value

/-! ### All sheets -/

/-- The sheets that scalar expressions lead to and those of relational groups, and how many derivations
there were for each. What is not there is blank, without derivations. -/
structure Facts where
  scalarSheets : Array ScalarSheet := #[]
  relationalSheets : Array RelationalSheet := #[]
  scalarTallies : Array Nat := #[]
  relationalTallies : Array Nat := #[]
  deriving Inhabited

namespace Facts

/-- The array with a value at a position; blanks fill the places below. -/
def setAt {α : Type} (blank : α) (values : Array α) (position : Nat) (value : α) : Array α :=
  if position < values.size then values.setIfInBounds position value
  else (values ++ Array.replicate (position - values.size) blank).push value

/-- A scalar sheet. -/
def scalar (facts : Facts) (sheet : SheetId) : ScalarSheet :=
  facts.scalarSheets.getD sheet .blank

/-- The sheet of a relational group. -/
def relational (facts : Facts) (group : GroupId) : RelationalSheet :=
  facts.relationalSheets.getD group .blank

/-- The number of derivations for a scalar sheet. -/
def scalarTally (facts : Facts) (sheet : SheetId) : Nat := facts.scalarTallies.getD sheet 0

/-- The number of derivations for a relational group. -/
def relationalTally (facts : Facts) (group : GroupId) : Nat := facts.relationalTallies.getD group 0

/-- The facts with another content of a scalar sheet. -/
def setScalar (facts : Facts) (sheet : SheetId) (content : ScalarSheet) : Facts :=
  { facts with scalarSheets := setAt .blank facts.scalarSheets sheet content }

/-- The facts with another sheet for a relational group. -/
def setRelational (facts : Facts) (group : GroupId) (content : RelationalSheet) : Facts :=
  { facts with relationalSheets := setAt .blank facts.relationalSheets group content }

/-- The facts with one more derivation for a scalar sheet. -/
def tallyScalar (facts : Facts) (sheet : SheetId) : Facts :=
  { facts with
    scalarTallies := setAt 0 facts.scalarTallies sheet (facts.scalarTally sheet + 1) }

/-- The facts with one more derivation for a relational group. -/
def tallyRelational (facts : Facts) (group : GroupId) : Facts :=
  { facts with
    relationalTallies := setAt 0 facts.relationalTallies group (facts.relationalTally group + 1) }

end Facts

/-! ### Memo and knowledge -/

/-- A memo, the properties found so far, the catalog, and the guard of the search. -/
structure Context where
  memo : Memo := .empty
  facts : Facts := {}
  catalog : Catalog := {}
  guard : Guard := {}
  deriving Inhabited

namespace Context

/-- A scalar expression and the sheet that it leads to. -/
def scalarExpr (context : Context) (id : ExprId) : Except Fault (Expr × SheetId) := do
  let expr ← context.memo.expr id
  match expr.sheet with
  | some sheet => return (expr, sheet)
  | none => throw (.exprNotScalar id expr.operator expr.group)

/-- The sheet of a scalar group. -/
def scalar (context : Context) (id : GroupId) : ScalarSheet :=
  match context.memo.sheet? id with
  | some sheet => context.facts.scalar sheet
  | none => .blank

/-- The properties of a scalar group, all of which have to be found already. -/
def scalarProperties (context : Context) (id : GroupId) : Except Fault ScalarProperties := do
  let group ← context.memo.group id
  if group.isScalar then
    let (_, sheet) ← context.scalarExpr (← group.first)
    match context.facts.scalar sheet with
    | .complete values => return values
    | .draft _ => throw (.scalarUnderived id)
  else throw (.groupNotScalar id)

/-- The properties of a relational group, all of which have to be found already. -/
def relationalProperties (context : Context) (id : GroupId) :
    Except Fault RelationalProperties := do
  let group ← context.memo.group id
  if group.isScalar then throw (.groupNotRelational id)
  else
    match context.facts.relational id with
    | .complete values => return values
    | .draft _ => throw (.relationalUnderived id)

end Context

end Cascades
