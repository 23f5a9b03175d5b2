/-
**Kinds of operators.**

A kind is an operator without its data: what a pattern asks for.
-/

import Cascades.Operator.Basic

namespace Cascades

/-- The kinds of logical operators. -/
inductive LogicalKind where
  | get | select | project | join | naryJoin | aggregate | limit
  deriving DecidableEq, Repr, Inhabited

/-- The kinds of physical operators. -/
inductive PhysicalKind where
  | tableScan | filter | computeScalar | hashJoin | nestedLoopJoin | hashAggregate | limit
  deriving DecidableEq, Repr, Inhabited

/-- The kinds of scalar operators. -/
inductive ScalarKind where
  | column | constant | binary | unary | and | or | call | aggregate | projectList
  | projectElement | subquery | subqueryExists | arrayComparison | array
  deriving DecidableEq, Repr, Inhabited

/-- The kinds of operators. -/
inductive OperatorKind where
  | logical (kind : LogicalKind)
  | physical (kind : PhysicalKind)
  | scalar (kind : ScalarKind)
  deriving DecidableEq, Repr, Inhabited

/-! ### The kind of an operator -/

/-- The kind of a logical operator. -/
def LogicalOp.kind : LogicalOp → LogicalKind
  | get .. => .get
  | select => .select
  | project => .project
  | join _ => .join
  | naryJoin => .naryJoin
  | aggregate _ => .aggregate
  | limit .. => .limit

/-- The kind of a physical operator. -/
def PhysicalOp.kind : PhysicalOp → PhysicalKind
  | tableScan .. => .tableScan
  | filter => .filter
  | computeScalar => .computeScalar
  | hashJoin _ => .hashJoin
  | nestedLoopJoin _ => .nestedLoopJoin
  | hashAggregate _ => .hashAggregate
  | limit .. => .limit

/-- The kind of a scalar operator. -/
def ScalarOp.kind : ScalarOp → ScalarKind
  | column _ => .column
  | constant _ => .constant
  | binary _ => .binary
  | unary _ => .unary
  | and => .and
  | or => .or
  | call _ => .call
  | aggregate .. => .aggregate
  | projectList => .projectList
  | projectElement _ => .projectElement
  | subquery _ => .subquery
  | subqueryExists => .subqueryExists
  | arrayComparison .. => .arrayComparison
  | array => .array

/-- The kind of an operator. -/
def Operator.kind : Operator → OperatorKind
  | logical operator => .logical operator.kind
  | physical operator => .physical operator.kind
  | scalar operator => .scalar operator.kind

end Cascades
