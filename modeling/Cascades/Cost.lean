/-
**Costs of plans.**

* `Cost.approx`, `Cost.compare?`: two costs are equal where they differ by less than the distance
  from one to the next double, and are ordered as doubles;
* `CostModel`: the cost of a physical operator, given its output, its inputs and what they cost;
* `CardinalityModel`: a cost model that counts the rows touched and the bytes held in hash tables.
-/

import Cascades.Statistics.Basic

namespace Cascades

/-- The cost of a plan; lower is better. -/
structure Cost where
  total : Float
  deriving Inhabited

namespace Cost

/-- No cost. -/
def zero : Cost := ⟨0⟩

/-- The cost of a plan that cannot be carried out. -/
def infinite : Cost := ⟨Double.largest⟩

/-- Whether a cost is that of a plan that cannot be carried out. -/
def isInfinite (cost : Cost) : Bool := cost.total == Double.largest

/-- Whether two costs differ by rounding only. -/
def approx (first second : Cost) : Bool := (first.total - second.total).abs < Double.epsilon

/-- Whether one cost is lower than another. -/
def less (first second : Cost) : Bool := first.total < second.total

/-- The order of two costs, where they have one. -/
def compare? (first second : Cost) : Option Ordering :=
  if first.total < second.total then some .lt
  else if second.total < first.total then some .gt
  else if first.total == second.total then some .eq
  else none

end Cost

/-- The cost of a physical operator: its output, its relational inputs in order, and the costs of
the plans for those. -/
abbrev CostModel :=
  (operator : PhysicalOp) → (output : Statistics) → (inputs : List Statistics) →
    (costs : List Cost) → Cost

/-- Weights for the rows that are touched and the bytes that are held in hash tables. -/
structure CardinalityModel where
  cpuWeight : Float := 1
  memoryWeight : Float := 1
  deriving Inhabited

namespace CardinalityModel

/-- The rows of an input; none for a missing one. -/
def rowsOf (inputs : List Statistics) (position : Nat) : Float :=
  match inputs[position]? with
  | some input => input.rows
  | none => 0

/-- What an operator costs without its inputs. A hash join holds its right input, an aggregation its
output. -/
def localCost (model : CardinalityModel) (operator : PhysicalOp) (output : Statistics)
    (inputs : List Statistics) : Float :=
  let rows := rowsOf inputs
  match operator with
  | .tableScan .. => model.cpuWeight * output.rows
  | .hashJoin _ =>
    let held :=
      match inputs[1]? with
      | some input => input.size
      | none => 0
    model.cpuWeight * (rows 0 + rows 1 + output.rows) + model.memoryWeight * held
  | .nestedLoopJoin _ => model.cpuWeight * (rows 0 * rows 1 + output.rows)
  | .hashAggregate _ => model.cpuWeight * rows 0 + model.memoryWeight * output.size
  | .filter | .computeScalar => model.cpuWeight * rows 0
  | .limit .. => model.cpuWeight * output.rows

/-- The costs of the inputs and of the operator, added up from the left. -/
def cost (model : CardinalityModel) : CostModel := fun operator output inputs costs =>
  let below := costs.foldl (fun sum input => sum + input.total) Double.negativeZero
  ⟨below + model.localCost operator output inputs⟩

end CardinalityModel

end Cascades
