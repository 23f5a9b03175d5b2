/-
**Texts of operators.**

The names of kinds, and the one-line texts of operators that messages and plans show.
-/

import Cascades.Operator.Kind

namespace Cascades

/-! ### Names -/

/-- The name of a binary operator. -/
def BinaryOp.name : BinaryOp → String
  | eq => "Eq"
  | notEq => "NotEq"
  | lt => "Lt"
  | ltEq => "LtEq"
  | gt => "Gt"
  | gtEq => "GtEq"
  | add => "Add"
  | sub => "Sub"
  | mul => "Mul"
  | div => "Div"

/-- The name of a unary operator. -/
def UnaryOp.name : UnaryOp → String
  | not => "Not"
  | neg => "Neg"
  | isNull => "IsNull"
  | isNotNull => "IsNotNull"

/-- The name of a join type. -/
def JoinType.name : JoinType → String
  | inner => "Inner"
  | left => "Left"
  | right => "Right"
  | full => "Full"
  | semi => "Semi"
  | anti => "Anti"
  | cross => "Cross"

/-- The name of an aggregate function. -/
def AggregateFunction.name : AggregateFunction → String
  | count => "Count"
  | sum => "Sum"
  | avg => "Avg"
  | min => "Min"
  | max => "Max"

/-- The name of a quantifier. -/
def Quantifier.name : Quantifier → String
  | any => "Any"
  | all => "All"

/-- The name of a logical kind. -/
def LogicalKind.name : LogicalKind → String
  | get => "Get"
  | select => "Select"
  | project => "Project"
  | join => "Join"
  | naryJoin => "NAryJoin"
  | aggregate => "GbAgg"
  | limit => "Limit"

/-- The name of a physical kind. -/
def PhysicalKind.name : PhysicalKind → String
  | tableScan => "TableScan"
  | filter => "Filter"
  | computeScalar => "ComputeScalar"
  | hashJoin => "HashJoin"
  | nestedLoopJoin => "NLJoin"
  | hashAggregate => "HashAgg"
  | limit => "Limit"

/-- The name of a scalar kind. -/
def ScalarKind.name : ScalarKind → String
  | column => "Ident"
  | constant => "Const"
  | binary => "Binary"
  | unary => "Unary"
  | and => "And"
  | or => "Or"
  | call => "Func"
  | aggregate => "AggFunc"
  | projectList => "ProjectList"
  | projectElement => "ProjectElement"
  | subquery => "Subquery"
  | subqueryExists => "SubqueryExists"
  | arrayComparison => "ArrayCmp"
  | array => "Array"

/-- The text of a kind: its family around its name. -/
def OperatorKind.toText : OperatorKind → String
  | logical kind => "Logical(" ++ kind.name ++ ")"
  | physical kind => "Physical(" ++ kind.name ++ ")"
  | scalar kind => "Scalar(" ++ kind.name ++ ")"

/-! ### Texts of operators -/

/-- The text of a logical operator. -/
def LogicalOp.toText : LogicalOp → String
  | get table _ => "Get(" ++ table.toText ++ ")"
  | join type => "Join(" ++ type.name ++ ")"
  | limit offset count => "Limit(" ++ toString offset ++ ", " ++ toString count ++ ")"
  | other => other.kind.name

/-- The text of a physical operator. A physical limit shows its name alone. -/
def PhysicalOp.toText : PhysicalOp → String
  | tableScan table _ => "TableScan(" ++ table.toText ++ ")"
  | hashJoin type => "HashJoin(" ++ type.name ++ ")"
  | nestedLoopJoin type => "NLJoin(" ++ type.name ++ ")"
  | other => other.kind.name

/-- The text of a scalar operator. -/
def ScalarOp.toText : ScalarOp → String
  | column defined => defined.toText
  | constant value => value.toText
  | binary operator => operator.name
  | call name => name ++ "()"
  | other => other.kind.name

/-- The text of an operator. -/
def Operator.toText : Operator → String
  | logical operator => operator.toText
  | physical operator => operator.toText
  | scalar operator => operator.toText

end Cascades
