/-
**Answers to requests.**

The answer to a request is the tree of joins in the cheapest plan: at each join its algorithm and
the equalities that it applies, the left column first.
-/

import Cascades.JoinRequest.Query
import Cascades.Search

namespace Cascades

/-- Two columns that a join equates, each as `table.column`. -/
structure JoinCondition where
  left : String
  right : String
  deriving DecidableEq, Repr, Inhabited

/-- A tree of joins over the tables of a request. -/
inductive AnswerTree where
  | table (id : String)
  | join (algorithm : String) (conditions : List JoinCondition) (left right : AnswerTree)
  deriving Inhabited

/-- The tree of joins of the cheapest plan, with what it costs and what the search came to. -/
structure JoinAnswer where
  tree : AnswerTree
  cost : Float
  rows : Float
  groups : Nat
  iterations : Nat
  deriving Inhabited

/-- The tables of a tree from left to right. -/
def AnswerTree.tables : AnswerTree → List String
  | table id => [id]
  | join _ _ left right => left.tables ++ right.tables

namespace JoinQuery

/-! ### From plans to trees -/

/-- A table and a column as a condition shows them. -/
def qualified (named : String × String) : String := named.1 ++ "." ++ named.2

/-- The equalities of a predicate, the column from the tables of the left input first. -/
def conditions (query : JoinQuery) (memo : Memo) (predicate : GroupId) (leftTables : List String) :
    Except Fault (List JoinCondition) := do
  return (← memo.equalities (memo.conjuncts predicate)).filterMap fun (first, second) => do
    let firstName ← query.columnNames.lookup first
    let secondName ← query.columnNames.lookup second
    if leftTables.contains firstName.1 then
      some ⟨qualified firstName, qualified secondName⟩
    else some ⟨qualified secondName, qualified firstName⟩

/-- The tree of a join over the trees of its inputs. -/
def joinTree (query : JoinQuery) (memo : Memo) (expr : ExprId) (algorithm : String)
    (left right : AnswerTree) : Except RequestError AnswerTree := do
  let predicate ← (do (← memo.expr expr).child 2 : Except Fault GroupId)
  let conditions ← (query.conditions memo predicate left.tables :
    Except Fault (List JoinCondition))
  return .join algorithm conditions left right

/-- The joins of a plan. A filter above a single input is passed over. -/
def treeOf (query : JoinQuery) (memo : Memo) : Plan → Except RequestError AnswerTree
  | .node (.tableScan table _) group _ _ _ _ =>
    return .table ((query.tableNames.lookup group).getD table.name)
  | .node (.hashJoin _) _ expr _ _ [left, right] => do
    query.joinTree memo expr "HASH" (← treeOf query memo left) (← treeOf query memo right)
  | .node (.nestedLoopJoin _) _ expr _ _ [left, right] => do
    query.joinTree memo expr "NESTED_LOOP" (← treeOf query memo left) (← treeOf query memo right)
  | .node (.hashJoin _) _ _ _ _ inputs | .node (.nestedLoopJoin _) _ _ _ _ inputs =>
    throw (.unexpectedOperator ("join with " ++ toString inputs.length ++ " inputs"))
  | .node .filter _ _ _ _ [input] => treeOf query memo input
  | .node operator _ _ _ _ _ => throw (.unexpectedOperator operator.toText)

end JoinQuery

/-! ### Answering -/

/-- Orders the joins of a request. -/
def JoinRequest.answer (request : JoinRequest) (config : Config) :
    Except RequestError JoinAnswer := do
  let query ← JoinQuery.ofRequest request
  let search := Search.ofMemo query.memo query.catalog Rule.standard config
  let model : CardinalityModel := {}
  match Search.optimize model.cost query.root search with
  | .error cause => throw (.failed (.fault cause))
  | .ok (.error cause, _) => throw (.failed (.abort cause))
  | .ok (.ok none, _) => throw .noPlan
  | .ok (.ok (some plan), search) =>
    let memo := search.context.memo
    return {
      tree := ← query.treeOf memo plan
      cost := plan.cost.total
      rows := plan.rows
      groups := memo.groups.size
      iterations := search.iterations }

/-! ### Writing -/

/-- A condition as it is written. -/
def JoinCondition.toJson (condition : JoinCondition) : Json :=
  .object [("leftColumn", .string condition.left), ("rightColumn", .string condition.right)]

/-- A tree as it is written. -/
def AnswerTree.toJson : AnswerTree → Json
  | table id => .object [("tableId", .string id)]
  | join algorithm conditions left right =>
    .object [("algorithm", .string algorithm),
      ("conditions", Json.ofList JoinCondition.toJson conditions),
      ("left", left.toJson), ("right", right.toJson)]

/-- An answer as it is written. -/
def JoinAnswer.toJson (answer : JoinAnswer) : Json :=
  .object [("tree", answer.tree.toJson), ("cost", .ofFloat answer.cost),
    ("rows", .ofFloat answer.rows), ("memoGroups", .ofNat answer.groups),
    ("iterations", .ofNat answer.iterations)]

end Cascades
