/-
**Reading predicates in a memo.**

A scalar group stands for the operator of its first member.

* `scalarOp?`, `column?`, `constant?`: the operator of a scalar group, and the two kinds of leaf;
* `conjuncts`: a predicate as the list of groups that have to be true;
* `equalColumns?`: the two columns of an equality.
-/

import Cascades.Memo.Basic

namespace Cascades.Memo

/-- The first member of a group. -/
def firstMember (memo : Memo) (id : GroupId) : Except Fault Expr := do
  memo.expr (← (← memo.group id).first)

/-- The first member of a scalar group, and its operator. -/
def scalarFirst? (memo : Memo) (id : GroupId) : Option (ScalarOp × List GroupId) := do
  let group ← memo.groups[id]?
  if group.isScalar then
    let expr ← memo.exprs[← group.members[0]?]?
    match expr.operator with
    | .scalar operator => some (operator, expr.children)
    | _ => none
  else none

/-- The operator of a scalar group. -/
def scalarOp? (memo : Memo) (id : GroupId) : Option ScalarOp := (memo.scalarFirst? id).map (·.1)

/-- The column that a group refers to. -/
def column? (memo : Memo) (id : GroupId) : Option Column :=
  match memo.scalarOp? id with
  | some (.column column) => some column
  | _ => none

/-- The constant that a group holds. -/
def constant? (memo : Memo) (id : GroupId) : Option Value :=
  match memo.scalarOp? id with
  | some (.constant value) => some value
  | _ => none

/-! ### Conjuncts -/

/-- The conjuncts of a predicate down to a number of levels. -/
def conjunctsWithin (memo : Memo) : (levels : Nat) → GroupId → List GroupId
  | 0, id => [id]
  | levels + 1, id =>
    match memo.scalarFirst? id with
    | some (.and, children) => children.flatMap (memo.conjunctsWithin levels)
    | some (.constant (.bool true), _) => []
    | _ => [id]

/-- The conjuncts of a predicate from left to right: conjunctions are flattened, and the constant
truth adds nothing. A first member has only older groups below it, so no predicate has more levels
than its number. -/
def conjuncts (memo : Memo) (id : GroupId) : List GroupId := memo.conjunctsWithin (id + 1) id

/-- The two columns of a group that equates them. -/
def equalColumns? (memo : Memo) (id : GroupId) : Except Fault (Option (ColumnId × ColumnId)) := do
  let _ ← memo.group id
  match memo.scalarFirst? id with
  | some (.binary .eq, children) =>
    let some left := children[0]? | throw .indexOutOfBounds
    let some leftColumn := memo.column? left | return none
    let some right := children[1]? | throw .indexOutOfBounds
    let some rightColumn := memo.column? right | return none
    return some (leftColumn.id, rightColumn.id)
  | _ => return none

/-- The columns of the equalities among some groups, in order. -/
def equalities (memo : Memo) (ids : List GroupId) : Except Fault (List (ColumnId × ColumnId)) := do
  return (← ids.mapM memo.equalColumns?).filterMap id

end Cascades.Memo
