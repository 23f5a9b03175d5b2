/-
**Operators.**

A query is built from three families of operators. Logical operators say what a relation holds,
physical operators say how it is computed, scalar operators make up predicates and project lists.
The inputs of an operator are not part of it: a memo keeps them as child groups, in the layout that
each constructor documents. A physical operator has the layout of the logical one that it computes.
-/

import Cascades.SortedSet
import Cascades.Value

namespace Cascades

/-- The number of a column, unique within one query. -/
abbrev ColumnId := Nat

/-- A set of columns. -/
abbrev ColumnSet := SortedSet ColumnId

/-! ### Tables and columns -/

/-- A table of the catalog. -/
structure Table where
  schema : String
  name : String
  deriving DecidableEq, Repr, Inhabited

namespace Table

/-- The order of tables: by schema, then by name. -/
def order : Table → Table → Ordering :=
  compareLex (compareOn Table.schema) (compareOn Table.name)

instance : Ord Table := ⟨order⟩

instance : Std.TransOrd Table := inferInstanceAs (Std.TransCmp (compareLex _ _))

instance : Std.LawfulEqOrd Table where
  eq_of_compare {first second} equal := by
    have both : (compare first.schema second.schema).then
        (compare first.name second.name) = .eq := equal
    rw [Ordering.then_eq_eq] at both
    have schemas := Std.LawfulEqOrd.eq_of_compare both.1
    have names := Std.LawfulEqOrd.eq_of_compare both.2
    cases first; cases second; simp_all

/-- The text of a table, `schema.name`. -/
def toText (table : Table) : String := table.schema ++ "." ++ table.name

end Table

/-- A set of tables. -/
abbrev TableSet := SortedSet Table

/-- A column with the names it is shown by. -/
structure Column where
  id : ColumnId
  table : Option String
  name : String
  deriving DecidableEq, Repr, Inhabited

namespace Column

/-- The text of a column, `table.name#id`. -/
def toText (column : Column) : String :=
  let owner :=
    match column.table with
    | some table => table ++ "."
    | none => ""
  owner ++ column.name ++ "#" ++ toString column.id

end Column

/-! ### Parts of operators -/

/-- Comparison and arithmetic of two values. -/
inductive BinaryOp where
  | eq | notEq | lt | ltEq | gt | gtEq | add | sub | mul | div
  deriving DecidableEq, Repr, Inhabited

namespace BinaryOp

/-- Whether the operator compares. -/
def isComparison : BinaryOp → Bool
  | eq | notEq | lt | ltEq | gt | gtEq => true
  | add | sub | mul | div => false

/-- The operator that gives the same result with its operands exchanged. -/
def commute? : BinaryOp → Option BinaryOp
  | eq => some eq
  | notEq => some notEq
  | lt => some gt
  | ltEq => some gtEq
  | gt => some lt
  | gtEq => some ltEq
  | add => some add
  | mul => some mul
  | sub | div => none

end BinaryOp

/-- Negations and tests for null. -/
inductive UnaryOp where
  | not | neg | isNull | isNotNull
  deriving DecidableEq, Repr, Inhabited

/-- The ways to join two relations. -/
inductive JoinType where
  | inner | left | right | full | semi | anti | cross
  deriving DecidableEq, Repr, Inhabited

/-- Whether the two sides of a join may be exchanged and regrouped. -/
def JoinType.isInner : JoinType → Bool
  | inner | cross => true
  | left | right | full | semi | anti => false

/-- The aggregate functions. -/
inductive AggregateFunction where
  | count | sum | avg | min | max
  deriving DecidableEq, Repr, Inhabited

/-- Whether a comparison has to hold for some or for every item of an array. -/
inductive Quantifier where
  | any | all
  deriving DecidableEq, Repr, Inhabited

/-! ### The three families -/

/-- What a relation holds. -/
inductive LogicalOp where
  /-- A base table with these columns; no children. -/
  | get (table : Table) (columns : List Column)
  /-- Children: input, predicate. -/
  | select
  /-- Children: input, project list. -/
  | project
  /-- Children: left, right, predicate. -/
  | join (type : JoinType)
  /-- The inner join of any number of inputs. Children: the inputs, predicate. -/
  | naryJoin
  /-- Children: input, project list of aggregates. -/
  | aggregate (keys : List Column)
  /-- Children: input. -/
  | limit (offset count : Nat)
  deriving DecidableEq, Repr, Inhabited

/-- How a relation is computed. -/
inductive PhysicalOp where
  | tableScan (table : Table) (columns : List Column)
  | filter
  | computeScalar
  /-- Hashes the right input and probes with the left one. -/
  | hashJoin (type : JoinType)
  | nestedLoopJoin (type : JoinType)
  | hashAggregate (keys : List Column)
  | limit (offset count : Nat)
  deriving DecidableEq, Repr, Inhabited

/-- Predicates, values and project lists. -/
inductive ScalarOp where
  | column (column : Column)
  | constant (value : Value)
  /-- Children: left, right. -/
  | binary (operator : BinaryOp)
  /-- Children: operand. -/
  | unary (operator : UnaryOp)
  | and
  | or
  | call (name : String)
  | aggregate (function : AggregateFunction) (distinct : Bool)
  /-- Children: project elements. -/
  | projectList
  /-- Defines a column as the value of its child. -/
  | projectElement (column : Column)
  /-- A subquery with one column as its value. Children: relational input. -/
  | subquery (column : Column)
  /-- Children: relational input. -/
  | subqueryExists
  /-- Children: scalar, array. -/
  | arrayComparison (operator : BinaryOp) (quantifier : Quantifier)
  | array
  deriving BEq, Inhabited

/-- An operator of any family. -/
inductive Operator where
  | logical (operator : LogicalOp)
  | physical (operator : PhysicalOp)
  | scalar (operator : ScalarOp)
  deriving BEq, Inhabited

namespace Operator

/-- Whether an operator is logical. -/
def isLogical : Operator → Bool
  | logical _ => true
  | _ => false

/-- Whether an operator is physical. -/
def isPhysical : Operator → Bool
  | physical _ => true
  | _ => false

/-- Whether an operator is scalar. -/
def isScalar : Operator → Bool
  | scalar _ => true
  | _ => false

/-- The constant truth. -/
def truth : Operator := scalar (.constant (.bool true))

end Operator

end Cascades
