/-
**The properties of a scalar expression.**

Each property follows from the operator and from the properties of the child groups, which have to
be found already. `ScalarProperty.derive` is the rule for each one.
-/

import Cascades.Property.Basic

namespace Cascades

/-! ### Properties of children -/

/-- A set with the sets of some groups added. -/
def gather {α : Type} [Ord α] [Std.TransOrd α] [Std.LawfulEqOrd α] (start : SortedSet α)
    (groups : List GroupId) (read : GroupId → Except Fault (SortedSet α)) :
    Except Fault (SortedSet α) :=
  groups.foldlM (fun found group => return found.union (← read group)) start

/-- The groups of the distinct aggregates in a project list, and their children. -/
def distinctAggregateCalls (memo : Memo) (expr : Expr) :
    Except Fault (List (GroupId × List GroupId)) := do
  let elements ← expr.children.mapM fun elementGroup => do
    let element ← memo.firstMember elementGroup
    match element.operator with
    | .scalar (.projectElement _) =>
      let values ← element.children.mapM fun valueGroup => do
        let value ← memo.firstMember valueGroup
        match value.operator with
        | .scalar (.aggregate _ true) => return [(valueGroup, value.children)]
        | _ => return []
      return values.flatten
    | _ => return []
  return elements.flatten

namespace ScalarProperty

variable (context : Context) (expr : Expr)

/-- The scalar children of an expression. -/
abbrev inputs : List GroupId := context.memo.scalarChildren expr

/-! ### One rule for each property -/

/-- A project element defines its column; every other column comes from a child. -/
def deriveDefined : Except Fault ColumnSet :=
  let own : ColumnSet :=
    match expr.operator with
    | .scalar (.projectElement column) => SortedSet.empty.insert column.id
    | _ => .empty
  gather own (inputs context expr) fun child =>
    return (← context.scalarProperties child) .definedColumns

/-- A column reference uses its column, a subquery what it takes from outside. -/
def deriveUsed : Except Fault ColumnSet := do
  let own : ColumnSet :=
    match expr.operator with
    | .scalar (.column column) => SortedSet.empty.insert column.id
    | _ => .empty
  let scalars ← gather own (inputs context expr) fun child =>
    return (← context.scalarProperties child) .usedColumns
  gather scalars (context.memo.relationalChildren expr) fun child =>
    return (← context.relationalProperties child) .outerReferences

/-- A project element whose value contains a function that returns a set. -/
def deriveSetReturning : Except Fault ColumnSet :=
  match expr.operator with
  | .scalar (.projectElement column) =>
    gather .empty (inputs context expr) fun child => do
      let traits := (← context.scalarProperties child) .functionTraits
      return if traits.returnsSet then SortedSet.empty.insert column.id else .empty
  | .scalar .projectList =>
    gather .empty (inputs context expr) fun child =>
      return (← context.scalarProperties child) .setReturningColumns
  | _ => return .empty

/-- A subquery, here or below. -/
def deriveHasSubquery : Except Fault Bool :=
  match expr.operator with
  | .scalar (.subquery _) | .scalar .subqueryExists => return true
  | _ => (inputs context expr).anyM fun child =>
    return (← context.scalarProperties child) .hasSubquery

/-- The partitioned tables of all children. -/
def derivePartitions : Except Fault TableSet := do
  let scalars ← gather .empty (inputs context expr) fun child =>
    return (← context.scalarProperties child) .partitions
  gather scalars (context.memo.relationalChildren expr) fun child =>
    return (← context.relationalProperties child) .partitions

/-- The traits of the function called here, combined with those below. -/
def deriveTraits : Except Fault FunctionTraits :=
  let own :=
    match expr.operator with
    | .scalar (.call name) => (context.catalog.function? name).getD .unknown
    | _ => .harmless
  (inputs context expr).foldlM (fun traits child =>
    return traits.combine ((← context.scalarProperties child) .functionTraits)) own

/-- A known function that returns a set, here or below. -/
def deriveHasSetFunction : Except Fault Bool :=
  let own :=
    match expr.operator with
    | .scalar (.call name) =>
      ((context.catalog.function? name).map FunctionTraits.returnsSet).getD false
    | _ => false
  if own then return true
  else (inputs context expr).anyM fun child =>
    return (← context.scalarProperties child) .hasSetFunction

/-- The number of groups of distinct aggregates; equal aggregates share a group. -/
def deriveDistinctAggregates : Except Fault Nat :=
  match expr.operator with
  | .scalar .projectList => do
    return ((← distinctAggregateCalls context.memo expr).map (·.1)).eraseDups.length
  | _ => return 0

/-- Whether there are at least two lists of arguments among the distinct aggregates. -/
def deriveMultipleDistinct : Except Fault Bool :=
  match expr.operator with
  | .scalar .projectList => do
    return 2 ≤ ((← distinctAggregateCalls context.memo expr).map (·.2)).eraseDups.length
  | _ => return false

/-- A comparison with an array, here or below. -/
def deriveHasArrayComparison : Except Fault Bool :=
  match expr.operator with
  | .scalar (.arrayComparison ..) => return true
  | _ => (inputs context expr).anyM fun child =>
    return (← context.scalarProperties child) .hasArrayComparison

/-- A property of an expression. -/
def derive : (property : ScalarProperty) → Except Fault property.Value
  | definedColumns => deriveDefined context expr
  | usedColumns => deriveUsed context expr
  | setReturningColumns => deriveSetReturning context expr
  | hasSubquery => deriveHasSubquery context expr
  | partitions => derivePartitions context expr
  | functionTraits => deriveTraits context expr
  | hasSetFunction => deriveHasSetFunction context expr
  | distinctAggregates => deriveDistinctAggregates context expr
  | multipleDistinctAggregates => deriveMultipleDistinct context expr
  | hasArrayComparison => deriveHasArrayComparison context expr

end ScalarProperty

end Cascades
