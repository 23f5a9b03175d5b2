/-
**Statistics of groups.**

The statistics of a relational group follow from its first logical member and from the statistics of
that member's inputs.

* `Statistics.selectivity`: the share of rows that a predicate keeps, each conjunct independent of
  the others;
* `Statistics.ofOperator`: one operator over the statistics of its inputs;
* `Statistics.find`: a group, by recursion; what is found on the way is kept;
* `Statistics.ofGroup`: a group by itself; `Statistics.ofAll`: all groups, each found once.
-/

import Cascades.Property.Relational
import Cascades.Statistics.Basic

namespace Cascades.Statistics

/-! ### Predicates -/

/-- The share of rows that one conjunct keeps. -/
def conjunctSelectivity (memo : Memo) (input : Statistics) (conjunct : GroupId) :
    Except Fault Float :=
  match memo.scalarFirst? conjunct with
  | some (.binary operator, children) => do
    if !operator.isComparison then return defaultSelectivity
    let some left := children[0]? | throw .indexOutOfBounds
    let some right := children[1]? | throw .indexOutOfBounds
    let withConstant := (memo.constant? left).isSome || (memo.constant? right).isSome
    match (memo.column? left).or (memo.column? right), operator with
    | some column, .eq =>
      if withConstant then return input.equalitySelectivity column.id
      match ← memo.equalColumns? conjunct with
      | some pair => return 1 / distinctOfPair input input pair
      | none => return defaultSelectivity
    | some _, _ => return rangeSelectivity
    | none, _ => return defaultSelectivity
  | _ => return defaultSelectivity

/-- The share of rows that a predicate keeps. -/
def selectivity (memo : Memo) (input : Statistics) (predicate : GroupId) : Except Fault Float := do
  let _ ← memo.group predicate
  (memo.conjuncts predicate).foldlM (fun share conjunct =>
    return share * (← conjunctSelectivity memo input conjunct)) 1

/-- An equality turned round so that its left column is in the left relation. -/
def orient? (left right : Statistics) (pair : ColumnId × ColumnId) :
    Option (ColumnId × ColumnId) :=
  if left.hasColumn pair.1 && right.hasColumn pair.2 then some pair
  else if left.hasColumn pair.2 && right.hasColumn pair.1 then some (pair.2, pair.1)
  else none

/-- The equalities among some conjuncts between a column of the left relation and one of the
right. -/
def equalPairs (memo : Memo) (left right : Statistics) (conjuncts : List GroupId) :
    Except Fault (List (ColumnId × ColumnId)) := do
  return (← memo.equalities conjuncts).filterMap (orient? left right)

/-! ### Operators -/

/-- A join of a type, given the inner join of the same inputs. -/
def ofJoin (type : JoinType) (left right joined : Statistics) : Statistics :=
  match type with
  | .semi | .anti =>
    let ratio := Double.smaller (joined.rows / Double.larger left.rows 1) 1
    let share := if type = .semi then ratio else 1 - ratio
    left.filter (Double.larger share defaultSelectivity)
  | .left => if joined.rows < left.rows then { joined with rows := left.rows } else joined
  | .right => if joined.rows < right.rows then { joined with rows := right.rows } else joined
  | .inner | .cross | .full => joined

/-- A table: what the catalog says, and one distinct value per row for any other column. -/
def ofTable (catalog : Catalog) (table : Table) (columns : List Column) : Statistics :=
  let known := (catalog.statistics? table).getD .default
  { known with
    columns := columns.foldl (fun map column =>
      if map.contains column.id then map
      else map.insert column.id { distinct := known.rows }) known.columns }

/-- The first rows of a relation. -/
def limit (input : Statistics) (count : Nat) : Statistics :=
  let bound := Double.ofNat count
  if bound < input.rows ∧ 0 < input.rows then input.filter (bound / input.rows) else input

/-! ### Finding -/

/-- The statistics of the groups for which they are found already. -/
abbrev Found := Std.TreeMap GroupId Statistics

/-- A computation that keeps the statistics that it finds. -/
abbrev Finding := StateT Found (Except Fault)

/-- One operator, given how to find the statistics of a group. -/
def ofOperator (memo : Memo) (catalog : Catalog) (input : GroupId → Finding Statistics)
    (expr : Expr) : LogicalOp → Finding Statistics
  | .get table columns => return ofTable catalog table columns
  | .select => do
    let rows ← input (← expr.child 0)
    return rows.filter (← selectivity memo rows (← expr.child 1))
  | .project => do input (← expr.child 0)
  | .limit _ count => return (← input (← expr.child 0)).limit count
  | .aggregate keys => return (← input (← expr.child 0)).aggregate (keys.map Column.id)
  | .join type => do
    let left ← input (← expr.child 0)
    let right ← input (← expr.child 1)
    let conjuncts := memo.conjuncts (← expr.child 2)
    return ofJoin type left right (left.join right (← equalPairs memo left right conjuncts))
  | .naryJoin => do
    let conjuncts := memo.conjuncts (← expr.lastChild)
    let first ← input (← expr.child 0)
    expr.children.dropLast.tail.foldlM (fun joined child => do
      let next ← input child
      return joined.join next (← equalPairs memo joined next conjuncts)) first

/-- The first logical member of a group, given how to find the statistics of a group. -/
def ofMembers (memo : Memo) (catalog : Catalog) (input : GroupId → Finding Statistics)
    (id : GroupId) : Finding Statistics := do
  let group ← memo.group id
  if group.isScalar then throw (.statisticsOfScalar id)
  let (expr, operator) ← memo.firstLogical id
  ofOperator memo catalog input expr operator

/-- The statistics of a group, for a recursion with some levels left. -/
def findWithin (memo : Memo) (catalog : Catalog) : (levels : Nat) → GroupId → Finding Statistics
  | 0, id => throw (.endlessDerivation id)
  | levels + 1, id => do
    match (← get).get? id with
    | some known => return known
    | none =>
      let statistics ← ofMembers memo catalog (findWithin memo catalog levels) id
      modify fun found => found.insert id statistics
      return statistics

/-- The statistics of a group. A recursion that ends meets no group twice on one path, so it has no
more levels than there are groups. -/
def find (memo : Memo) (catalog : Catalog) (id : GroupId) : Finding Statistics :=
  findWithin memo catalog (memo.groups.size + 1) id

/-! ### Groups -/

/-- The statistics of a group, where those of some groups are found already. -/
def ofGroupFrom (memo : Memo) (catalog : Catalog) (found : Found) (id : GroupId) :
    Except Fault Statistics :=
  (find memo catalog id).run' found

/-- The statistics of a group. -/
def ofGroup (memo : Memo) (catalog : Catalog) (id : GroupId) : Except Fault Statistics :=
  ofGroupFrom memo catalog {} id

/-- The statistics of all groups that have them, each found once. -/
def ofAll (memo : Memo) (catalog : Catalog) : Found :=
  (List.range memo.groups.size).foldl (fun found id =>
    match find memo catalog id found with
    | .ok (_, found) => found
    | .error _ => found) {}

end Cascades.Statistics
