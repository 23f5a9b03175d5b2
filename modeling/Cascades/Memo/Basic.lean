/-
**The memo: groups of equivalent expressions.**

A memo holds groups, numbered in the order of their creation, and expressions, numbered in the order
of their insertion. An expression is an operator over child groups; it belongs to one group and
keeps its position there. No two expressions have one shape, that is, equal operators over equal
children. A scalar expression leads to a sheet for its properties.

* `lookup`: the expression of a shape;
* `insert`, `insertInto`: add an expression to a group of its own or to a given group, unless its
  shape is there already;
* `sheet?`: the sheet of a scalar group, which later members take over from the first one;
* `close`, `closeGroup`: end the growth of all groups or of one;
* `mark`, `isMarked`: remember what was done with an expression.
-/

import Cascades.Count
import Std.Data.TreeMap

namespace Cascades

/-- The number of a sheet of properties, that of the expression which it was made for. -/
abbrev SheetId := Nat

/-- An operator over child groups, at a position in the group it belongs to. A scalar one has a sheet
of properties. -/
structure Expr where
  operator : Operator
  children : List GroupId
  group : GroupId
  position : Nat
  sheet : Option SheetId := none
  deriving Inhabited

/-- Equivalent expressions in the order of their insertion. The members are all scalar or none
is. -/
structure Group where
  isScalar : Bool
  members : Array ExprId := #[]
  isOpen : Bool := true
  deriving Inhabited

/-- What a memo remembers of an expression: that a rule was applied to it, or a number of the
caller's. -/
inductive Mark where
  | rule (name : String)
  | code (value : Nat)
  deriving DecidableEq, Repr

/-- Groups, expressions, and an index of the expressions by their children. -/
structure Memo where
  groups : Array Group := #[]
  exprs : Array Expr := #[]
  shapes : Std.TreeMap (List GroupId) (List ExprId) := {}
  marks : Std.TreeMap ExprId (List Mark) := {}
  isOpen : Bool := true
  deriving Inhabited

/-! ### Access -/

/-- The child group at a position. -/
def Expr.child (expr : Expr) (position : Nat) : Except Fault GroupId :=
  match expr.children[position]? with
  | some child => .ok child
  | none => .error .indexOutOfBounds

/-- The number of children. -/
def Expr.arity (expr : Expr) : Nat := expr.children.length

/-- The last child group. -/
def Expr.lastChild (expr : Expr) : Except Fault GroupId := do
  expr.child (← Count.sub expr.arity 1)

/-- The first member of a group. -/
def Group.first (group : Group) : Except Fault ExprId :=
  match group.members[0]? with
  | some first => .ok first
  | none => .error .indexOutOfBounds

namespace Memo

/-- The memo without groups. -/
def empty : Memo := {}

/-- A group that has to exist. -/
def group (memo : Memo) (id : GroupId) : Except Fault Group :=
  match memo.groups[id]? with
  | some group => .ok group
  | none => .error (.groupMissing id memo.groups.size)

/-- An expression that has to exist. -/
def expr (memo : Memo) (id : ExprId) : Except Fault Expr :=
  match memo.exprs[id]? with
  | some expr => .ok expr
  | none => .error (.exprMissing id memo.exprs.size)

/-- Whether an expression has an operator of a family. -/
def hasOperator (memo : Memo) (family : Operator → Bool) (id : ExprId) : Bool :=
  match memo.exprs[id]? with
  | some expr => family expr.operator
  | none => false

/-- The logical members of a group in the order of their insertion. -/
def logicalMembers (memo : Memo) (group : Group) : List ExprId :=
  group.members.toList.filter (memo.hasOperator Operator.isLogical)

/-- The physical members of a group in the order of their insertion. -/
def physicalMembers (memo : Memo) (group : Group) : List ExprId :=
  group.members.toList.filter (memo.hasOperator Operator.isPhysical)

/-- Whether a group exists and is scalar. -/
def isScalarGroup (memo : Memo) (id : GroupId) : Bool :=
  match memo.groups[id]? with
  | some group => group.isScalar
  | none => false

/-- The relational groups among the children of an expression. -/
def relationalChildren (memo : Memo) (expr : Expr) : List GroupId :=
  expr.children.filter fun child => !memo.isScalarGroup child

/-- The scalar groups among the children of an expression. -/
def scalarChildren (memo : Memo) (expr : Expr) : List GroupId :=
  expr.children.filter memo.isScalarGroup

/-! ### Insertion -/

/-- The expression with an operator over children. -/
def lookup (memo : Memo) (operator : Operator) (children : List GroupId) : Option ExprId :=
  (memo.shapes.getD children []).find? (memo.hasOperator (· == operator))

/-- The sheet of the first member of a group. -/
def sheet? (memo : Memo) (id : GroupId) : Option SheetId := do
  let group ← memo.groups[id]?
  let first ← memo.exprs[← group.members[0]?]?
  first.sheet

/-- Adds an expression at the end of a group. A scalar one shares the sheet of the first member; a
first member gets a new one. -/
def append (memo : Memo) (group : GroupId) (operator : Operator) (children : List GroupId) :
    Memo :=
  let id := memo.exprs.size
  let position := (memo.groups[group]?.map (·.members.size)).getD 0
  let sheet := if operator.isScalar then some ((memo.sheet? group).getD id) else none
  { memo with
    groups := memo.groups.modify group fun target =>
      { target with members := target.members.push id }
    exprs := memo.exprs.push { operator, children, group, position, sheet }
    shapes := memo.shapes.insert children (memo.shapes.getD children [] ++ [id]) }

/-- Adds a group without members. -/
def appendGroup (memo : Memo) (isScalar : Bool) : Memo :=
  { memo with groups := memo.groups.push { isScalar } }

/-- Refuses an operator over a child group that does not exist. -/
def requireChildren (memo : Memo) (operator : Operator) (children : List GroupId) :
    Except Fault Unit :=
  match children.find? fun child => memo.groups.size ≤ child with
  | some child => .error (.childMissing child operator)
  | none => .ok ()

/-- The expression of a shape; a new one gets a group of its own. -/
def insert (memo : Memo) (operator : Operator) (children : List GroupId) :
    Except Fault (ExprId × Memo) := do
  memo.requireChildren operator children
  match memo.lookup operator children with
  | some existing => return (existing, memo)
  | none =>
    if memo.isOpen then
      let group := memo.groups.size
      return (memo.exprs.size,
        (memo.appendGroup operator.isScalar).append group operator children)
    else throw (.memoClosed operator)

/-- The expression of a shape; a new one goes to a given group. An expression that is there already
stays in its own group. -/
def insertInto (memo : Memo) (id : GroupId) (operator : Operator) (children : List GroupId) :
    Except Fault (ExprId × Memo) := do
  memo.requireChildren operator children
  match memo.lookup operator children with
  | some existing => return (existing, memo)
  | none =>
    let group ← memo.group id
    if !group.isOpen then throw (.groupClosed operator id)
    if group.isScalar != operator.isScalar then
      throw (.familyMismatch operator group.isScalar id)
    return (memo.exprs.size, memo.append id operator children)

/-! ### Closing and marking -/

/-- Closes one group. -/
def closeGroup (memo : Memo) (id : GroupId) : Except Fault Memo := do
  let _ ← memo.group id
  return { memo with groups := memo.groups.modify id fun group => { group with isOpen := false } }

/-- Closes every group; no group can be added any more. -/
def close (memo : Memo) : Memo :=
  { memo with
    groups := memo.groups.map fun group => { group with isOpen := false }
    isOpen := false }

/-- Whether an expression has a mark. -/
def isMarked (memo : Memo) (id : ExprId) (mark : Mark) : Bool :=
  (memo.marks.getD id []).contains mark

/-- Gives an expression a mark. -/
def mark (memo : Memo) (id : ExprId) (mark : Mark) : Memo :=
  if memo.isMarked id mark then memo
  else { memo with marks := memo.marks.insert id (mark :: memo.marks.getD id []) }

end Memo

end Cascades
