/-
**Constraints of predicates.**

A predicate gives a constraint where it compares a column with a constant, tests a column for null,
or is made up of such parts. A conjunction may leave out parts that give none, a disjunction may
not.
-/

import Cascades.Constraint.Basic
import Cascades.Guard
import Cascades.Memo.Predicate

namespace Cascades.Constraint

/-- The constraint of a comparison between two groups: a column and a constant, either way round. -/
def ofComparison? (memo : Memo) (operator : BinaryOp) (left right : GroupId) :
    Option Constraint :=
  match memo.column? left, memo.constant? right with
  | some column, some value => (Interval.ofComparison? column.id operator value).map interval
  | _, _ =>
    match memo.constant? left, memo.column? right, operator.commute? with
    | some value, some column, some operator =>
      (Interval.ofComparison? column.id operator value).map interval
    | _, _, _ => none

/-- The constraint of a predicate, for a recursion with some levels left. -/
def ofPredicateWithin (memo : Memo) (guard : Guard) :
    (room : Nat) → GroupId → Except Failure (Option Constraint)
  | 0, _ => throw (.abort guard.refusal)
  | room + 1, group => do
    if guard.cancelled then throw (.abort guard.refusal)
    let first ← memo.firstMember group
    match first.operator with
    | .scalar (.binary operator) =>
      if operator.isComparison then
        let left ← first.child 0
        let right ← first.child 1
        return ofComparison? memo operator left right
      else return none
    | .scalar (.unary .isNull) =>
      let column := memo.column? (← first.child 0)
      return column.map fun column => interval (.nullOnly column.id)
    | .scalar (.unary .isNotNull) =>
      let column := memo.column? (← first.child 0)
      return column.map fun column => interval (.notNull column.id)
    | .scalar .and =>
      let parts ← first.children.mapM (ofPredicateWithin memo guard room)
      return all? (parts.filterMap id)
    | .scalar .or =>
      let parts ← (first.children.mapM fun child =>
        OptionT.mk (ofPredicateWithin memo guard room child)).run
      return parts.bind any?
    | _ => return none

/-- The constraint of a predicate, if one can be given. -/
def ofPredicate? (memo : Memo) (guard : Guard) (group : GroupId) :
    Except Failure (Option Constraint) :=
  ofPredicateWithin memo guard guard.room group

end Cascades.Constraint
