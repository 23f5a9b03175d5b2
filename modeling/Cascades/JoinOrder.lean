/-
**Greedy join orders.**

A join graph has components, which are relations, and predicates over their columns. The greedy
order starts with the pair of components whose join is smallest and adds, one at a time, the
component that keeps the join smallest.

* A join applies every predicate whose columns both inputs together have and neither has alone.
* A join without predicates is taken only where there is no other.
* Of equally small joins the one with the lowest numbers is taken.
-/

import Cascades.Property.Relational
import Cascades.Statistics.Group

namespace Cascades

/-! ### Join graphs -/

/-- A relation to be joined; its group, where it comes from a memo. -/
structure JoinComponent where
  group : Option GroupId
  statistics : Statistics
  columns : ColumnSet
  deriving Inhabited

/-- A predicate to be applied; its group, where it comes from a memo, and its two columns, where it
equates two. -/
structure JoinPredicate where
  group : Option GroupId
  columns : ColumnSet
  equality : Option (ColumnId × ColumnId)
  deriving Inhabited

/-- Relations and the predicates between them. -/
structure JoinGraph where
  components : List JoinComponent
  predicates : List JoinPredicate
  deriving Inhabited

/-- The join graph of some groups and the conjuncts of a predicate. -/
def JoinGraph.ofGroups (context : Context) (inputs : List GroupId) (predicate : GroupId) :
    Except Fault JoinGraph := do
  let component (id : GroupId) : Statistics.Finding JoinComponent := do
    let statistics ← Statistics.find context.memo context.catalog id
    let properties ← context.relationalProperties id
    return { group := some id, statistics, columns := properties .outputColumns }
  let components ← (inputs.mapM component).run' {}
  let _ ← context.memo.group predicate
  let predicates ← (context.memo.conjuncts predicate).mapM fun id => do
    let properties ← context.scalarProperties id
    let equality ← context.memo.equalColumns? id
    return { group := some id, columns := properties .usedColumns, equality : JoinPredicate }
  return { components, predicates }

/-! ### Join trees -/

/-- A tree of joins over the numbers of components, with the numbers of the predicates that each
join applies. -/
inductive JoinTree where
  | leaf (component : Nat)
  | join (left right : JoinTree) (predicates : List Nat) (cardinality : Float)
  deriving Inhabited

namespace JoinTree

/-- The components from left to right. -/
def leaves : JoinTree → List Nat
  | leaf component => [component]
  | join left right _ _ => left.leaves ++ right.leaves

/-- The predicates that are applied anywhere in a tree. -/
def applied : JoinTree → List Nat
  | leaf _ => []
  | join left right predicates _ => predicates ++ left.applied ++ right.applied

/-- Whether the topmost join applies no predicate. -/
def isCross : JoinTree → Bool
  | leaf _ => false
  | join _ _ predicates _ => predicates.isEmpty

/-- The text of a tree. -/
def toText : JoinTree → String
  | leaf component => toString component
  | join left right _ _ => "(" ++ left.toText ++ " ⋈ " ++ right.toText ++ ")"

end JoinTree

/-! ### The greedy order -/

namespace JoinGraph

/-- A tree with the statistics and the columns of its rows. -/
structure Joined where
  tree : JoinTree
  statistics : Statistics
  columns : ColumnSet
  deriving Inhabited

variable (graph : JoinGraph)

/-- A component by itself. -/
def single (number : Nat) : Joined :=
  let component := graph.components.getD number default
  ⟨.leaf number, component.statistics, component.columns⟩

/-- The predicates that can be applied to a join but to neither of its inputs, with their
numbers. -/
def applicable (left right : Joined) : List (JoinPredicate × Nat) :=
  let both := left.columns.union right.columns
  graph.predicates.zipIdx.filter fun (predicate, _) =>
    predicate.columns.subset both && !predicate.columns.subset left.columns
      && !predicate.columns.subset right.columns

/-- The columns that a predicate equates across a join, the left one first. -/
def acrossJoin? (left right : Joined) (predicate : JoinPredicate) :
    Option (ColumnId × ColumnId) :=
  match predicate.equality with
  | none => none
  | some (first, second) =>
    if first ∈ left.columns ∧ second ∈ right.columns then some (first, second)
    else if second ∈ left.columns ∧ first ∈ right.columns then some (second, first)
    else none

/-- The join of two trees. A predicate that equates no columns across it counts as a filter. -/
def join (left right : Joined) : Joined :=
  let applied := graph.applicable left right
  let pairs := applied.filterMap fun (predicate, _) => acrossJoin? left right predicate
  let residual := applied.length - pairs.length
  let product := left.statistics.join right.statistics pairs
  let statistics :=
    if 0 < residual then
      product.filter (Double.power Statistics.defaultSelectivity residual)
    else product
  { tree := .join left.tree right.tree (applied.map (·.2)) statistics.rows
    statistics
    columns := left.columns.union right.columns }

/-- The first of the smallest joins; `replaces` says whether a later join takes the place of the
best one so far. -/
def pick {α : Type} (replaces : α → α → Bool) : List α → Option α
  | [] => none
  | first :: rest =>
    some (rest.foldl (fun best next => if replaces next best then next else best) first)

/-- The joins of two components, each pair once, the lower number on the left. -/
def pairs : List Joined :=
  let count := graph.components.length
  (List.range count).flatMap fun left =>
    (List.range' (left + 1) (count - (left + 1))).map fun right =>
      graph.join (graph.single left) (graph.single right)

/-- The pair to start with: a smallest one among those with a predicate, or among all where there
are none. -/
def seed? : Option Joined :=
  let smaller (next best : Joined) : Bool := next.statistics.rows < best.statistics.rows
  let (cross, connected) := graph.pairs.partition fun pair => pair.tree.isCross
  (pick smaller connected).or (pick smaller cross)

/-- The remaining component to add, as its place among them, with the join that adds it. -/
def extension? (current : Joined) (remaining : List Nat) : Option (Joined × Nat) :=
  let candidates := (remaining.map fun number => graph.join current (graph.single number)).zipIdx
  let adjacent := candidates.filter fun (candidate, _) => !candidate.tree.isCross
  pick (fun next best => !(best.1.statistics.rows ≤ next.1.statistics.rows))
    (if adjacent.isEmpty then candidates else adjacent)

/-- Adds the remaining components one at a time. -/
def extend (guard : Guard) : (steps : Nat) → Joined → List Nat → Except Abort Joined
  | 0, current, _ => return current
  | steps + 1, current, remaining => do
    if remaining.isEmpty then return current
    guard.check 0
    match graph.extension? current remaining with
    | none => return current
    | some (next, place) => extend guard steps next (remaining.eraseIdx place)

/-- The greedy join order of a graph. -/
def greedyOrder (guard : Guard) : Except Abort JoinTree := do
  match graph.components with
  | [] => throw (.invalidJoinGraph "no join components")
  | [_] => return .leaf 0
  | components =>
    guard.check 0
    match graph.seed? with
    | none => return .leaf 0
    | some start =>
      let remaining := (List.range components.length).filter fun number =>
        !start.tree.leaves.contains number
      return (← graph.extend guard remaining.length start remaining).tree

end JoinGraph

end Cascades
