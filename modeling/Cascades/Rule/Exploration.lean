/-
**Rules that explore.**

* `joinCommutativity`: exchanges the inputs of an inner or cross join;
* `joinAssociativity`: regroups two inner joins, where the regrouped inner join has a predicate;
* `expandNaryJoin`: puts a join of many inputs into a greedy order;
* `pushSelectIntoJoin`: adds the predicate of a selection to the join below it.
-/

import Cascades.JoinOrder
import Cascades.Rule.Basic

namespace Cascades.Rule

/-! ### Parts of bindings -/

/-- The type of a join. -/
def joinType? : Operator → Option JoinType
  | .logical (.join type) => some type
  | _ => none

/-- The binding below the root at a position. -/
def childBinding (binding : Binding) (position : Nat) : Except Fault Binding :=
  match binding.children[position]? with
  | some child => .ok child
  | none => .error .indexOutOfBounds

/-- The columns of a relational group. -/
def outputColumns (context : Context) (id : GroupId) : Except Fault ColumnSet :=
  return (← context.relationalProperties id) .outputColumns

/-- The columns that a predicate depends on. -/
def usedColumns (context : Context) (id : GroupId) : Except Fault ColumnSet :=
  return (← context.scalarProperties id) .usedColumns

/-- An inner join. -/
def innerJoin : Operator := .logical (.join .inner)

/-! ### Exchange of inputs -/

/-- `A ⋈ B` is `B ⋈ A`. -/
def joinCommutativity : Rule where
  name := "JoinCommutativity"
  kind := .exploration
  pattern := .overLeaves .join 3
  priority := 10
  promise context id := do
    match joinType? (← context.memo.expr id).operator with
    | some .inner | some .cross => return .high
    | _ => return .skip
  transform _ binding := do
    match joinType? binding.operator with
    | some type =>
      if type.isInner then
        let right ← binding.childGroup 1
        let left ← binding.childGroup 0
        let predicate ← binding.childGroup 2
        return [.overGroups (.logical (.join type)) [right, left, predicate]]
      else return []
    | none => return []

/-! ### Regrouping -/

/-- `(stay ⋈ moved) ⋈ other` as `stay ⋈ (moved ⋈ other)`. An outer conjunct goes to the new inner
join if it uses columns of both its inputs and of nothing else; all others stay on the outer join.
Without a conjunct for the inner join there is no such proposal. -/
def regroup? (outerConjuncts : List (GroupId × ColumnSet)) (innerConjuncts : List GroupId)
    (stay moved other : GroupId) (movedColumns otherColumns : ColumnSet) : Option Proposal :=
  let belongs (columns : ColumnSet) : Bool :=
    (columns.toList.all fun column => column ∈ movedColumns || column ∈ otherColumns)
      && (columns.toList.any fun column => column ∈ movedColumns)
      && (columns.toList.any fun column => column ∈ otherColumns)
  let (pushed, kept) := outerConjuncts.partition fun conjunct => belongs conjunct.2
  if pushed.isEmpty then none
  else
    some (.node innerJoin [
      .group stay,
      .node innerJoin [.group moved, .group other, .conjunction (pushed.map (·.1))],
      .conjunction (innerConjuncts ++ kept.map (·.1))])

/-- `(A ⋈ B) ⋈ C` is `A ⋈ (B ⋈ C)` and `B ⋈ (A ⋈ C)`. -/
def joinAssociativity : Rule where
  name := "JoinAssociativity"
  kind := .exploration
  pattern := .logical .join [.overLeaves .join 3, .leaf, .leaf]
  promise context id := do
    match joinType? (← context.memo.expr id).operator with
    | some .inner => return .high
    | _ => return .skip
  transform context binding := do
    let below ← childBinding binding 0
    if joinType? binding.operator != some .inner || joinType? below.operator != some .inner then
      return []
    let left ← below.childGroup 0
    let right ← below.childGroup 1
    let other ← binding.childGroup 1
    let leftColumns ← outputColumns context left
    let rightColumns ← outputColumns context right
    let otherColumns ← outputColumns context other
    let outerConjuncts ← (context.memo.conjuncts (← binding.childGroup 2)).mapM fun conjunct =>
      return (conjunct, ← (usedColumns context conjunct : Except Fault ColumnSet))
    let innerConjuncts := context.memo.conjuncts (← below.childGroup 2)
    let regrouped := regroup? outerConjuncts innerConjuncts
    return (regrouped left right other rightColumns otherColumns).toList
      ++ (regrouped right left other leftColumns otherColumns).toList

/-! ### Expansion -/

/-- Binary inner joins for a join tree; `extra` conjuncts go to the topmost join. -/
def joinsOf (graph : JoinGraph) (inputs extra : List GroupId) : JoinTree → Proposal
  | .leaf component => .group (inputs.getD component 0)
  | .join left right predicates _ =>
    let placed := predicates.filterMap fun number =>
      graph.predicates[number]?.bind JoinPredicate.group
    .node innerJoin [
      joinsOf graph inputs [] left,
      joinsOf graph inputs [] right,
      .conjunction (placed ++ extra)]

/-- The conjuncts that no join of a tree applies. -/
def leftover (graph : JoinGraph) (tree : JoinTree) : List GroupId :=
  (graph.predicates.zipIdx.filter fun (_, number) => !tree.applied.contains number).filterMap
    fun (predicate, _) => predicate.group

/-- A join of many inputs as binary joins in greedy order; of one input it is a selection. -/
def expandNaryJoin : Rule where
  name := "ExpandNAryJoinGreedy"
  kind := .exploration
  pattern := .logical .naryJoin [.leaves, .leaf]
  priority := 20
  promise context id := do
    return if 2 ≤ (← context.memo.expr id).arity then .high else .skip
  transform context binding := do
    match binding.operator, binding.childGroups.reverse with
    | .logical .naryJoin, predicate :: first :: others =>
      match (first :: others).reverse with
      | [input] => return [.overGroups (.logical .select) [input, predicate]]
      | inputs =>
        let graph ← (JoinGraph.ofGroups context inputs predicate : Except Fault JoinGraph)
        let tree ← (graph.greedyOrder context.guard : Except Abort JoinTree)
        return [joinsOf graph inputs (leftover graph tree) tree]
    | _, _ => return []

/-! ### Selections above joins -/

/-- A selection above an inner or cross join is an inner join under both predicates. -/
def pushSelectIntoJoin : Rule where
  name := "PushSelectIntoJoin"
  kind := .exploration
  pattern := .logical .select [.overLeaves .join 3, .leaf]
  promise _ _ := .ok .high
  transform context binding := do
    match binding.operator with
    | .logical .select =>
      let below ← childBinding binding 0
      match joinType? below.operator with
      | some .inner | some .cross =>
        let inner := context.memo.conjuncts (← below.childGroup 2)
        let outer := context.memo.conjuncts (← binding.childGroup 1)
        let left ← below.childGroup 0
        let right ← below.childGroup 1
        return [.node innerJoin [.group left, .group right, .conjunction (inner ++ outer)]]
      | _ => return []
    | _ => return []

end Cascades.Rule
