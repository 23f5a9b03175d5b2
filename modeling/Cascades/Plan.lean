/-
**Plans.**

A plan chooses one physical member of a group and a plan for each of its relational inputs.

* `Plan.cheapest`: the cheapest plan of a group under a cost model; of equally cheap members the
  earliest is taken, and a group has no plan below itself;
* `Plan.explain`: a plan with a line for each operator.
-/

import Cascades.Cost
import Cascades.Statistics.Group

namespace Cascades

/-- A physical operator with its group, its expression, what it costs with all below it, the rows it
is estimated to give, and the plans of its relational inputs. -/
inductive Plan where
  | node (operator : PhysicalOp) (group : GroupId) (expr : ExprId) (cost : Cost) (rows : Float)
    (inputs : List Plan)
  deriving Inhabited

namespace Plan

/-- The operator at the root. -/
def operator : Plan → PhysicalOp
  | node operator _ _ _ _ _ => operator

/-- The group of the root. -/
def group : Plan → GroupId
  | node _ group _ _ _ _ => group

/-- The expression at the root. -/
def expr : Plan → ExprId
  | node _ _ expr _ _ _ => expr

/-- The cost of the whole plan. -/
def cost : Plan → Cost
  | node _ _ _ cost _ _ => cost

/-- The estimated number of rows. -/
def rows : Plan → Float
  | node _ _ _ _ rows _ => rows

/-- The plans of the relational inputs. -/
def inputs : Plan → List Plan
  | node _ _ _ _ _ inputs => inputs

/-! ### Text -/

mutual

/-- A plan with a line for each operator, two blanks deeper for each level. -/
def explainAt (level : Nat) : Plan → String
  | node operator _ _ cost rows inputs =>
    String.ofList (List.replicate (2 * level) ' ') ++ operator.toText
      ++ " (rows=" ++ Decimal.fixed 0 rows ++ ", cost=" ++ Decimal.fixed 1 cost.total ++ ")\n"
      ++ explainInputs (level + 1) inputs

/-- The lines of some plans. -/
def explainInputs (level : Nat) : List Plan → String
  | [] => ""
  | plan :: rest => explainAt level plan ++ explainInputs level rest

end

/-- A plan with a line for each operator. -/
def explain (plan : Plan) : String := plan.explainAt 0

/-! ### The cheapest plan -/

/-- The best plans of the groups that are settled; none for a group without a plan. -/
abbrev Settled := Std.TreeMap GroupId (Option Plan)

/-- What the search for plans looks at. -/
structure Setting where
  memo : Memo
  guard : Guard
  statistics : GroupId → Except Fault Statistics
  model : CostModel

/-- The plan of an expression over plans of its inputs. -/
def ofInputs (setting : Setting) (group : GroupId) (expr : ExprId) (operator : PhysicalOp)
    (output : Statistics) (inputs : List Plan) : Except Fault Plan := do
  let statistics ← inputs.mapM fun input => setting.statistics input.group
  let cost := setting.model operator output statistics (inputs.map Plan.cost)
  return .node operator group expr cost output.rows inputs

/-- The cheaper of two plans; the earlier one where the later is not cheaper. -/
def better (best : Option Plan) (next : Plan) : Plan :=
  match best with
  | none => next
  | some best => if next.cost.less best.cost then next else best

/-- The cheapest plan of a group, for a recursion with some levels left. The path holds the groups
above, which a plan may not meet again. -/
def cheapestWithin (setting : Setting) :
    (room : Nat) → (path : List GroupId) → GroupId → StateT Settled (Except Failure) (Option Plan)
  | 0, _, _ => throw (.abort setting.guard.refusal)
  | room + 1, path, id => do
    if setting.guard.cancelled then throw (.abort setting.guard.refusal)
    match (← get).get? id with
    | some settled => return settled
    | none =>
      if path.contains id then return none
      let output ← (setting.statistics id : Except Fault Statistics)
      let group ← (setting.memo.group id : Except Fault Group)
      let best ← (setting.memo.physicalMembers group).foldlM (fun best member => do
        let expr ← (setting.memo.expr member : Except Fault Expr)
        match expr.operator with
        | .physical operator =>
          let inputs ← ((setting.memo.relationalChildren expr).mapM fun child =>
            OptionT.mk (cheapestWithin setting room (id :: path) child)).run
          match inputs with
          | none => return best
          | some inputs =>
            let plan ← (ofInputs setting id member operator output inputs : Except Fault Plan)
            return some (better best plan)
        | _ => return best) none
      modify fun settled => settled.insert id best
      return best

/-- The cheapest plan of a group. -/
def cheapest? (setting : Setting) (id : GroupId) : Except Failure (Option Plan) :=
  (cheapestWithin setting setting.guard.room [] id).run' {}

/-- The cheapest plan of a group of a memo under a cost model. -/
def ofGroup? (memo : Memo) (catalog : Catalog) (guard : Guard) (model : CostModel)
    (id : GroupId) : Except Failure (Option Plan) :=
  let found := Statistics.ofAll memo catalog
  cheapest? { memo, guard, statistics := Statistics.ofGroupFrom memo catalog found, model } id

end Plan

end Cascades
