/-
**The properties of a relational group.**

All members of a relational group hold the same rows, so its properties are those of its first
logical member. They follow from the operator and from the properties of the child groups, which
have to be found already. `RelationalProperty.derive` is the rule for each one.
-/

import Cascades.Property.Scalar

namespace Cascades

/-- The first logical member of a group. -/
def Memo.firstLogical (memo : Memo) (id : GroupId) : Except Fault (Expr × LogicalOp) := do
  let group ← memo.group id
  let some first := (memo.logicalMembers group).head? | throw (.noLogicalMember id)
  let expr ← memo.expr first
  match expr.operator with
  | .logical operator => return (expr, operator)
  | _ => throw (.noLogicalMember id)

/-- The columns of a list as a set. -/
def columnSet (columns : List Column) : ColumnSet := .ofList (columns.map Column.id)

namespace RelationalProperty

variable (context : Context)

/-- The output columns of a child. -/
def outputOf (child : GroupId) : Except Fault ColumnSet :=
  return (← context.relationalProperties child) .outputColumns

/-- The columns that the scalar children of an expression define, added to a set. -/
def addDefined (start : ColumnSet) (expr : Expr) : Except Fault ColumnSet :=
  gather start (context.memo.scalarChildren expr) fun child =>
    return (← context.scalarProperties child) .definedColumns

/-! ### One rule for each property -/

/-- The columns of a row. -/
def deriveOutput (expr : Expr) : LogicalOp → Except Fault ColumnSet
  | .get _ columns => return columnSet columns
  | .join .semi | .join .anti => do outputOf context (← expr.child 0)
  | .aggregate keys => addDefined context (columnSet keys) expr
  | .project => do addDefined context (← outputOf context (← expr.child 0)) expr
  | .select | .join _ | .naryJoin | .limit .. =>
    gather .empty (context.memo.relationalChildren expr) (outputOf context)

/-- The columns that are used but come from no input. -/
def deriveOuter (expr : Expr) (operator : LogicalOp) : Except Fault ColumnSet := do
  let keys :=
    match operator with
    | .aggregate keys => columnSet keys
    | _ => .empty
  let used ← gather keys (context.memo.scalarChildren expr) fun child =>
    return (← context.scalarProperties child) .usedColumns
  let (used, available) ← (context.memo.relationalChildren expr).foldlM
    (fun (used, available) child => do
      let properties ← context.relationalProperties child
      return (used.union (properties .outerReferences),
        available.union (properties .outputColumns)))
    (used, (.empty : ColumnSet))
  return used.diff available

/-- The constraint of a child, as a list of at most one. -/
def constraintOf (child : GroupId) : Except Failure (List Constraint) := do
  let properties ← context.relationalProperties child
  return (properties .constraint).toList

/-- The constraint of a predicate, as a list of at most one. -/
def constraintOfPredicate (group : GroupId) : Except Failure (List Constraint) :=
  return (← Constraint.ofPredicate? context.memo context.guard group).toList

/-- What is known about each row. A side of a join that may be filled up with nulls says nothing
about the rows of the join. -/
def deriveConstraint (expr : Expr) : LogicalOp → Except Failure (Option Constraint)
  | .get .. => return none
  | .select => do
    let input ← constraintOf context (← expr.child 0)
    let predicate ← constraintOfPredicate context (← expr.child 1)
    return Constraint.all? (input ++ predicate)
  | .join .inner | .join .cross => do
    let left ← constraintOf context (← expr.child 0)
    let right ← constraintOf context (← expr.child 1)
    let predicate ← constraintOfPredicate context (← expr.child 2)
    return Constraint.all? (left ++ right ++ predicate)
  | .join .left | .join .semi | .join .anti => do
    return Constraint.all? (← constraintOf context (← expr.child 0))
  | .join .right => do return Constraint.all? (← constraintOf context (← expr.child 1))
  | .join .full => return none
  | .naryJoin => do
    let inputs ← (context.memo.relationalChildren expr).mapM (constraintOf context)
    let predicate ← constraintOfPredicate context (← expr.lastChild)
    return Constraint.all? (inputs.flatten ++ predicate)
  | .project | .limit .. => do return (← constraintOf context (← expr.child 0)).head?
  | .aggregate keys => do
    let input ← constraintOf context (← expr.child 0)
    return input.head?.bind (Constraint.onColumns? (columnSet keys))

/-- The bound on the rows of a child. -/
def cardinalityOf (child : GroupId) : Except Fault (Option Nat) :=
  return (← context.relationalProperties child) .maxCardinality

/-- A bound on the number of rows, where the constraint is not a contradiction. -/
def deriveCardinality (expr : Expr) : LogicalOp → Except Fault (Option Nat)
  | .get .. => return none
  | .limit _ count => do
    match ← cardinalityOf context (← expr.child 0) with
    | none => return some count
    | some bound => return some (min bound count)
  | .aggregate [] => return some 1
  | .join .semi | .join .anti => do cardinalityOf context (← expr.child 0)
  | .join _ | .naryJoin =>
    (context.memo.relationalChildren expr).foldlM (fun product child => do
      match product, ← cardinalityOf context child with
      | some product, some bound => return some (min (product * bound) greatestCount)
      | _, _ => return none) (some 1)
  | .select | .project | .aggregate _ => do cardinalityOf context (← expr.child 0)

/-- The number of base tables that are joined, which has to be a count. -/
def deriveDepth (expr : Expr) : LogicalOp → Except Fault Nat
  | .get .. => return 1
  | _ => (context.memo.relationalChildren expr).foldlM (fun depth child => do
    Count.add depth ((← context.relationalProperties child) .joinDepth)) 0

/-- The partitioned tables that are scanned here, in subqueries and in the inputs. -/
def derivePartitions (expr : Expr) (operator : LogicalOp) : Except Fault TableSet := do
  let own : TableSet :=
    match operator with
    | .get table _ =>
      if context.catalog.isPartitioned table then SortedSet.empty.insert table else .empty
    | _ => .empty
  let scalars ← gather own (context.memo.scalarChildren expr) fun child =>
    return (← context.scalarProperties child) .partitions
  gather scalars (context.memo.relationalChildren expr) fun child =>
    return (← context.relationalProperties child) .partitions

/-- A property of a group, in which the constraint is already known where the bound on the number of
rows is asked for. -/
def derive (group : GroupId) (known : Option Constraint) :
    (property : RelationalProperty) → Except Failure property.Value
  | outputColumns => do
    let (expr, operator) ← context.memo.firstLogical group
    deriveOutput context expr operator
  | outerReferences => do
    let (expr, operator) ← context.memo.firstLogical group
    deriveOuter context expr operator
  | constraint => do
    let (expr, operator) ← context.memo.firstLogical group
    deriveConstraint context expr operator
  | maxCardinality => do
    if (known.map Constraint.isContradiction).getD false then return some 0
    let (expr, operator) ← context.memo.firstLogical group
    deriveCardinality context expr operator
  | joinDepth => do
    let (expr, operator) ← context.memo.firstLogical group
    deriveDepth context expr operator
  | partitions => do
    let (expr, operator) ← context.memo.firstLogical group
    derivePartitions context expr operator

end RelationalProperty

end Cascades
