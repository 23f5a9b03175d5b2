/-
**Rules that implement.**

Every logical operator but the join of many inputs has a physical form over the same children. A
join has two: by hashing, where its predicate equates a column of each input and holds no subquery,
and by nested loops.
-/

import Cascades.Rule.Exploration

namespace Cascades.Rule

/-- The physical operator over the groups at some positions below a binding. -/
def substitute (operator : PhysicalOp) (binding : Binding) (positions : List Nat) :
    Except Fault (List Proposal) := do
  return [.overGroups (.physical operator) (← positions.mapM binding.childGroup)]

/-! ### Operators with one physical form -/

/-- A table is scanned. -/
def getToTableScan : Rule where
  name := "Get2TableScan"
  kind := .implementation
  pattern := .overLeaves .get 0
  transform _ binding := do
    match binding.operator with
    | .logical (.get table columns) =>
      return [.overGroups (.physical (.tableScan table columns)) []]
    | _ => return []

/-- A selection is a filter. -/
def selectToFilter : Rule where
  name := "Select2Filter"
  kind := .implementation
  pattern := .overLeaves .select 2
  transform _ binding := do
    match binding.operator with
    | .logical .select => return [.overGroups (.physical .filter) binding.childGroups]
    | _ => return []

/-- A projection computes its columns. -/
def projectToComputeScalar : Rule where
  name := "Project2ComputeScalar"
  kind := .implementation
  pattern := .overLeaves .project 2
  transform _ binding := do
    match binding.operator with
    | .logical .project => return [.overGroups (.physical .computeScalar) binding.childGroups]
    | _ => return []

/-- A limit counts rows. -/
def limitToLimit : Rule where
  name := "Limit2Limit"
  kind := .implementation
  pattern := .overLeaves .limit 1
  transform _ binding := do
    match binding.operator with
    | .logical (.limit offset count) =>
      return [.overGroups (.physical (.limit offset count)) binding.childGroups]
    | _ => return []

/-- An aggregation hashes its keys. -/
def aggregateToHashAggregate : Rule where
  name := "GbAgg2HashAgg"
  kind := .implementation
  pattern := .overLeaves .aggregate 2
  transform _ binding := do
    match binding.operator with
    | .logical (.aggregate keys) => substitute (.hashAggregate keys) binding [0, 1]
    | _ => return []

/-! ### Joins -/

/-- Whether some conjunct equates a column of the left set with one of the right. -/
def hasEqualityAcross (memo : Memo) (left right : ColumnSet) :
    List GroupId → Except Fault Bool
  | [] => return false
  | conjunct :: rest => do
    match ← memo.equalColumns? conjunct with
    | some (first, second) =>
      if (first ∈ left ∧ second ∈ right) ∨ (second ∈ left ∧ first ∈ right) then return true
      else hasEqualityAcross memo left right rest
    | none => hasEqualityAcross memo left right rest

/-- A join with an equality across its inputs and without subqueries is hashed. -/
def joinToHashJoin : Rule where
  name := "Join2HashJoin"
  kind := .implementation
  pattern := .overLeaves .join 3
  priority := 10
  promise context id := do
    let expr ← context.memo.expr id
    let left ← expr.child 0
    let right ← expr.child 1
    let predicate ← expr.child 2
    let properties ← context.scalarProperties predicate
    if properties .hasSubquery then return .skip
    let leftColumns ← outputColumns context left
    let rightColumns ← outputColumns context right
    let conjuncts := context.memo.conjuncts predicate
    return if ← hasEqualityAcross context.memo leftColumns rightColumns conjuncts then .high
      else .skip
  transform _ binding := do
    match joinType? binding.operator with
    | some type => substitute (.hashJoin type) binding [0, 1, 2]
    | none => return []

/-- Every join can go through all pairs of rows. -/
def joinToNestedLoop : Rule where
  name := "Join2NLJoin"
  kind := .implementation
  pattern := .overLeaves .join 3
  transform _ binding := do
    match joinType? binding.operator with
    | some type => substitute (.nestedLoopJoin type) binding [0, 1, 2]
    | none => return []

/-! ### All rules -/

/-- Every rule, those that explore first. -/
def standard : List Rule :=
  [joinCommutativity, joinAssociativity, expandNaryJoin, pushSelectIntoJoin, getToTableScan,
    selectToFilter, projectToComputeScalar, limitToLimit, joinToHashJoin, joinToNestedLoop,
    aggregateToHashAggregate]

/-- The rule with a name. -/
def find? (rules : List Rule) (name : String) : Option Rule :=
  rules.find? fun rule => rule.name = name

end Cascades.Rule
