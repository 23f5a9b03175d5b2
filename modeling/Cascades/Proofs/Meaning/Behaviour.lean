/-
**What a query does in an environment.**

An environment gives values to all columns. A scalar has a value in it and a relation has rows, and a
subquery reads the row that it belongs to as part of its environment. Which columns an expression may
read is left open here: that it reads no others than those that it takes from outside is proved.

* `World`: tables, functions, and an order in which the rows of a bag are read;
* `Behaviour`: what an expression does in an environment;
* `World.behaviour`: the behaviour of an operator over inputs;
* `Behaviour.Confined`: a behaviour that depends on the columns only that it takes from outside;
* `Scope.Unhidden`: no input takes from outside what an input makes; `confined_behaviour`: an operator
  over such inputs is confined if they are.
-/

import Cascades.Proofs.Meaning.Row
import Cascades.Proofs.Meaning.Scope
import Mathlib.Data.Multiset.Dedup

namespace Cascades

variable {V : Type}

/-! ### Rows in environments -/

namespace Row

/-- A row in an environment: its own values of some columns, NULL included, and of all other columns
those of the environment. -/
def onto (row : Row V) (columns : ColumnSet) (environment : Row V) : Row V :=
  fun column => if column ∈ columns then row column else environment column

/-- A row with other values in some columns. -/
def define (row : Row V) (cells : List (ColumnId × Option V)) : Row V :=
  fun column => (cells.lookup column).getD (row column)

/-- Two rows have the same values in some columns. -/
def Agree (columns : ColumnSet) (row other : Row V) : Prop :=
  ∀ column, column ∈ columns → row column = other column

theorem Agree.mono {columns others : ColumnSet} {row other : Row V} (agree : row.Agree columns other)
    (fewer : ∀ column, column ∈ others → column ∈ columns) : row.Agree others other :=
  fun column member => agree column (fewer column member)

end Row

/-! ### Worlds and behaviours -/

/-- **What a query does not say**: the rows of tables, the functions, and the order in which the rows of
a bag are read. A value is NULL where there is none. -/
structure World (V : Type) where
  /-- The rows of a table with names for its columns. -/
  table : Table → List Column → Bag V
  /-- The value of a scalar operator over the values of its operands and the rows of its subqueries. -/
  scalar : ScalarOp → List (Option V) → List (Bag V) → Option V
  /-- The value of an aggregate over the arguments for each row. -/
  aggregate : AggregateFunction → Bool → Multiset (List (Option V)) → Option V
  isTrue : Option V → Bool
  listed : Bag V → List (Row V)
  listed_eq : ∀ bag, (listed bag : Bag V) = bag

/-- **What an expression does in an environment.** A scalar may be asked for one row of a group, and an
aggregate in it then reads the environments of all rows of the group. -/
structure Behaviour (V : Type) where
  scope : Scope
  /-- The value of a scalar, given an environment and the environments of the group. -/
  value : Row V → Bag V → Option V
  /-- The columns that a scalar defines, with their values. -/
  cells : Row V → Bag V → List (ColumnId × Option V)
  /-- The rows of a relation. -/
  rows : Row V → Bag V

namespace Behaviour

/-- The behaviour of an expression without rows and without a value. -/
def nothing : Behaviour V where
  scope := ⟨false, .empty, .empty⟩
  value _ _ := none
  cells _ _ := []
  rows _ := 0

/-- The relations among some inputs. -/
def relations (inputs : List (Behaviour V)) : List (Behaviour V) :=
  inputs.filter fun input => !input.scope.isScalar

/-- The scalars among some inputs. -/
def scalars (inputs : List (Behaviour V)) : List (Behaviour V) :=
  inputs.filter fun input => input.scope.isScalar

/-- The columns of the rows of some inputs. -/
def available (inputs : List (Behaviour V)) : ColumnSet :=
  SortedSet.empty.addAll ((Scope.relations (inputs.map scope)).map Scope.columns)

variable {inputs : List (Behaviour V)}

theorem mem_available {column : ColumnId} : column ∈ available inputs ↔
    ∃ input ∈ inputs.map scope, input.isScalar = false ∧ column ∈ input.columns := by
  simp [available, Scope.relations, and_assoc]

end Behaviour

/-! ### Logical operators -/

/-- What the scalars of an operator say of the rows of its inputs. -/
@[ext] structure Judgement (V : Type) where
  /-- Whether all conditions are true of a row. -/
  test : Row V → Bool
  /-- What a row is grouped by. -/
  key : Row V → List (Option V)
  /-- The columns that are defined for a row of a group. -/
  cells : Row V → Bag V → List (ColumnId × Option V)

namespace Bag

/-- A join of two bags. In an outer join, a row without a partner is kept, with NULL in the columns of
the other side. -/
def join (test : Row V → Bool) (type : JoinType) (left right : Bag V) : Bag V :=
  let pairs := (cross left right).filter fun row => test row
  let aloneLeft := left.filter fun row => ∀ other ∈ right, test (row.above other) = false
  let aloneRight := right.filter fun other => ∀ row ∈ left, test (row.above other) = false
  match type with
  | .inner | .cross => pairs
  | .left => pairs + aloneLeft
  | .right => pairs + aloneRight
  | .full => pairs + aloneLeft + aloneRight
  | .semi => left.filter fun row => ¬ ∀ other ∈ right, test (row.above other) = false
  | .anti => aloneLeft

/-- The rows of a bag by what they are grouped by. If that is nothing, all rows are in one group, also
where there are none. -/
def groups [DecidableEq V] (keys : List Column) (key : Row V → List (Option V)) (bag : Bag V) :
    Multiset (List (Option V) × Bag V) :=
  if keys = [] then {([], bag)}
  else (bag.map key).dedup.map fun value => (value, bag.filter fun row => key row = value)

end Bag

namespace World

variable [DecidableEq V] (world : World V)

/-- A row of a group for the columns that the group does not determine. -/
def first (group : Bag V) : Row V := (world.listed group).headD .empty

/-- **The rows of a logical operator** over those of its inputs. -/
def rows (judgement : Judgement V) : LogicalOp → List (Bag V) → Bag V
  | .get table columns, _ => world.table table columns
  | .select, [input] => input.filter fun row => judgement.test row
  | .project, [input] => input.map fun row => row.define (judgement.cells row {row})
  | .join type, [left, right] => .join judgement.test type left right
  | .naryJoin, inputs => (Bag.crossAll inputs).filter fun row => judgement.test row
  | .aggregate keys, [input] => (input.groups keys judgement.key).map fun (key, group) =>
      Row.empty.define ((keys.map Column.id).zip key ++ judgement.cells (world.first group) group)
  | .limit offset count, [input] => ((world.listed input).drop offset).take count
  | _, _ => 0

/-- What the scalars among some inputs say of the rows of the relations among them. -/
def judgement (operator : LogicalOp) (inputs : List (Behaviour V)) (environment : Row V) :
    Judgement V :=
  let inside (row : Row V) : Row V := row.onto (Behaviour.available inputs) environment
  { test row := (Behaviour.scalars inputs).all fun condition =>
      world.isTrue (condition.value (inside row) {inside row})
    key row := operator.uses.map (inside row)
    cells row group := (Behaviour.scalars inputs).flatMap fun input =>
      input.cells (inside row) (group.map inside) }

/-- The behaviour of a logical operator over inputs. -/
def ofLogical (operator : LogicalOp) (inputs : List (Behaviour V)) : Behaviour V :=
  let scope := Scope.ofLogical operator (inputs.map Behaviour.scope)
  { scope
    value _ _ := none
    cells _ _ := []
    rows environment := (world.rows (world.judgement operator inputs environment) operator
      ((Behaviour.relations inputs).map fun input => input.rows environment)).map fun row =>
        row.restrict scope.columns }

/-! ### All operators -/

/-- The value of a scalar operator over inputs. -/
def value (operator : ScalarOp) (inputs : List (Behaviour V)) (environment : Row V) (group : Bag V) :
    Option V :=
  match operator with
  | .column column => environment column.id
  | .aggregate function distinct => world.aggregate function distinct (group.map fun row =>
      (Behaviour.scalars inputs).map fun input => input.value row {row})
  | operator => world.scalar operator
      ((Behaviour.scalars inputs).map fun input => input.value environment group)
      ((Behaviour.relations inputs).map fun input => input.rows environment)

/-- The columns that a scalar operator over inputs defines. -/
def cells (operator : ScalarOp) (inputs : List (Behaviour V)) (environment : Row V) (group : Bag V) :
    List (ColumnId × Option V) :=
  let own : List (ColumnId × Option V) :=
    match operator with
    | .projectElement column =>
      (Behaviour.scalars inputs).map fun input => (column.id, input.value environment group)
    | _ => []
  own ++ (Behaviour.scalars inputs).flatMap fun input => input.cells environment group

/-- The behaviour of a scalar operator over inputs. -/
def ofScalar (operator : ScalarOp) (inputs : List (Behaviour V)) : Behaviour V where
  scope := Scope.ofScalar operator (inputs.map Behaviour.scope)
  value := world.value operator inputs
  cells := cells operator inputs
  rows _ := 0

/-- **The behaviour of an operator over inputs.** -/
def behaviour : Operator → List (Behaviour V) → Behaviour V
  | .logical operator => world.ofLogical operator
  | .physical operator => world.ofLogical operator.logical
  | .scalar operator => world.ofScalar operator

end World

/-- The scope of a behaviour follows from the scopes of the inputs. -/
theorem World.scope_behaviour [DecidableEq V] {world : World V} {operator : Operator}
    {inputs : List (Behaviour V)} :
    (world.behaviour operator inputs).scope = .of operator (inputs.map Behaviour.scope) := by
  cases operator <;> rfl

/-! ### What is read -/

/-- No relation takes a column from outside that one of the relations makes. -/
def Scope.Unhidden (inputs : List Scope) : Prop :=
  ∀ taker ∈ inputs, taker.isScalar = false → ∀ source ∈ inputs, source.isScalar = false →
    ∀ column, column ∈ taker.free → ¬ column ∈ source.columns

/-- **A behaviour that depends on the columns only that it takes from outside.** -/
structure Behaviour.Confined (behaviour : Behaviour V) : Prop where
  value : ∀ {environment other : Row V} {group others : Bag V},
    environment.Agree behaviour.scope.free other →
    Multiset.Rel (Row.Agree behaviour.scope.free) group others →
      behaviour.value environment group = behaviour.value other others
  cells : ∀ {environment other : Row V} {group others : Bag V},
    environment.Agree behaviour.scope.free other →
    Multiset.Rel (Row.Agree behaviour.scope.free) group others →
      behaviour.cells environment group = behaviour.cells other others
  rows : ∀ {environment other : Row V}, environment.Agree behaviour.scope.free other →
    behaviour.rows environment = behaviour.rows other

section Parts

variable {inputs : List (Behaviour V)} {columns : ColumnSet} {environment other : Row V}
  (confined : ∀ input ∈ inputs, input.Confined)
  (among : ∀ input ∈ inputs, ∀ column, column ∈ input.scope.free → column ∈ columns)
  (agree : environment.Agree columns other)
include confined among agree

theorem Behaviour.map_rows_congr : inputs.map (fun input => input.rows environment) =
    inputs.map fun input => input.rows other :=
  List.map_congr_left fun input member => (confined input member).rows (agree.mono (among input member))

variable {group others : Bag V} (grouped : Multiset.Rel (Row.Agree columns) group others)
include grouped

theorem Behaviour.map_value_congr : inputs.map (fun input => input.value environment group) =
    inputs.map fun input => input.value other others :=
  List.map_congr_left fun input member => (confined input member).value
    (agree.mono (among input member)) (grouped.mono fun _ _ _ _ same => same.mono (among input member))

theorem Behaviour.flatMap_cells_congr : inputs.flatMap (fun input => input.cells environment group) =
    inputs.flatMap fun input => input.cells other others :=
  List.flatMap_congr fun input member => (confined input member).cells
    (agree.mono (among input member)) (grouped.mono fun _ _ _ _ same => same.mono (among input member))

end Parts

/-! ### Operators -/

namespace World

variable {world : World V} {inputs : List (Behaviour V)} {environment other : Row V}
  (confined : ∀ input ∈ inputs, input.Confined)
include confined

/-- The scalars of an operator say the same of all rows in two environments, if the environments agree
in the columns that the operator takes from outside. -/
theorem judgement_congr {operator : LogicalOp}
    (agree : environment.Agree (Scope.ofLogical operator (inputs.map Behaviour.scope)).free other) :
    world.judgement operator inputs environment = world.judgement operator inputs other := by
  let inside (environment row : Row V) : Row V := row.onto (Behaviour.available inputs) environment
  -- A column that is used comes from the row, or the operator takes it from outside as well.
  have column : ∀ (row : Row V) (column : ColumnId),
      (column ∈ operator.uses ∨ ∃ input ∈ Behaviour.scalars inputs, column ∈ input.scope.free) →
      inside environment row column = inside other row column := by
    intro row column used
    by_cases made : column ∈ Behaviour.available inputs
    · simp only [inside, Row.onto, if_pos made]
    · simp only [inside, Row.onto, if_neg made]
      refine agree column (Scope.mem_free_ofLogical.2 ⟨Or.inl (used.imp_right ?_), ?_⟩)
      · rintro ⟨input, member, taken⟩
        obtain ⟨listed, family⟩ := List.mem_filter.1 member
        exact ⟨_, List.mem_map_of_mem listed, family, taken⟩
      · exact fun others => made (Behaviour.mem_available.2 others)
  have views : ∀ input ∈ Behaviour.scalars inputs, ∀ row : Row V,
      (inside environment row).Agree input.scope.free (inside other row) :=
    fun input member row used taken => column row used (Or.inr ⟨input, member, taken⟩)
  have read : ∀ input ∈ Behaviour.scalars inputs, input.Confined :=
    fun input member => confined input (List.mem_of_mem_filter member)
  refine Judgement.ext (funext fun row => ?test) (funext fun row => ?key)
    (funext₂ fun row group => ?cells)
  case test =>
    refine Bool.eq_iff_iff.2 ?_
    simp only [judgement, List.all_eq_true]
    refine forall₂_congr fun input member => ?_
    have agree := views input member row
    exact Bool.eq_iff_iff.1
      (congrArg world.isTrue ((read input member).value agree (.cons agree .zero)))
  case key => exact List.map_congr_left fun key member => column row key (Or.inl member)
  case cells =>
    refine List.flatMap_congr fun input member => (read input member).cells (views input member row) ?_
    exact Multiset.rel_map.2 (Multiset.rel_refl_of_refl_on fun row _ => views input member row)

/-- **A logical operator is confined** if its inputs are, and none takes from outside what one makes. -/
theorem confined_ofLogical [DecidableEq V] {operator : LogicalOp}
    (unhidden : Scope.Unhidden (inputs.map Behaviour.scope)) :
    (world.ofLogical operator inputs).Confined := by
  refine ⟨fun _ _ => rfl, fun _ _ => rfl, fun {environment other} agree => ?_⟩
  -- What an input takes from outside is not hidden by an input, so the operator takes it as well.
  have among : ∀ input ∈ Behaviour.relations inputs, ∀ column, column ∈ input.scope.free →
      column ∈ (Scope.ofLogical operator (inputs.map Behaviour.scope)).free := by
    intro input member column taken
    obtain ⟨listed, family⟩ := List.mem_filter.1 member
    have among : input.scope ∈ inputs.map Behaviour.scope := List.mem_map_of_mem listed
    have relation : input.scope.isScalar = false := by simpa using family
    refine Scope.mem_free_ofLogical.2 ⟨Or.inr ⟨_, among, relation, taken⟩, ?_⟩
    rintro ⟨source, beside, relationToo, made⟩
    exact unhidden _ among relation source beside relationToo column taken made
  have bags : (Behaviour.relations inputs).map (fun input => input.rows environment) =
      (Behaviour.relations inputs).map fun input => input.rows other :=
    Behaviour.map_rows_congr
      (fun input member => confined input (List.mem_of_mem_filter member)) among agree
  have judged : world.judgement operator inputs environment = world.judgement operator inputs other :=
    judgement_congr confined agree
  show Multiset.map _ (world.rows (world.judgement operator inputs environment) operator _) =
    Multiset.map _ (world.rows (world.judgement operator inputs other) operator _)
  rw [judged, bags]

/-- **A scalar operator is confined** if its inputs are. -/
theorem confined_ofScalar {operator : ScalarOp} : (world.ofScalar operator inputs).Confined := by
  -- A scalar uses what its operands use, and what its subqueries take from outside.
  have among : ∀ input ∈ inputs, ∀ column, column ∈ input.scope.free →
      column ∈ (Scope.ofScalar operator (inputs.map Behaviour.scope)).free :=
    fun input member column used =>
      Scope.mem_free_ofScalar.2 (Or.inr ⟨_, List.mem_map_of_mem member, used⟩)
  have operands : ∀ input ∈ Behaviour.scalars inputs, input ∈ inputs :=
    fun input member => List.mem_of_mem_filter member
  have subqueries : ∀ input ∈ Behaviour.relations inputs, input ∈ inputs :=
    fun input member => List.mem_of_mem_filter member
  have values : ∀ {environment other : Row V} {group others : Bag V},
      environment.Agree (Scope.ofScalar operator (inputs.map Behaviour.scope)).free other →
      Multiset.Rel (Row.Agree (Scope.ofScalar operator (inputs.map Behaviour.scope)).free) group others →
      (Behaviour.scalars inputs).map (fun input => input.value environment group) =
        (Behaviour.scalars inputs).map fun input => input.value other others :=
    fun agree grouped => Behaviour.map_value_congr
      (fun input member => confined input (operands input member))
      (fun input member => among input (operands input member)) agree grouped
  refine ⟨fun {environment other group others} agree grouped => ?value,
    fun {environment other group others} agree grouped => ?cells, fun _ => rfl⟩
  case value =>
    show world.value operator inputs environment group = world.value operator inputs other others
    cases operator with
    | column own => exact agree own.id (Scope.mem_free_ofScalar.2 (Or.inl (List.mem_singleton.2 rfl)))
    | aggregate function distinct =>
      refine congrArg (world.aggregate function distinct) (Multiset.rel_eq.1 (Multiset.rel_map.2 ?_))
      exact grouped.mono fun row _ row' _ same => values same (.cons same .zero)
    | _ =>
      unfold World.value
      rw [values agree grouped, Behaviour.map_rows_congr
        (fun input member => confined input (subqueries input member))
        (fun input member => among input (subqueries input member)) agree]
  case cells =>
    show World.cells operator inputs environment group = World.cells operator inputs other others
    unfold World.cells
    rw [Behaviour.flatMap_cells_congr (fun input member => confined input (operands input member))
      (fun input member => among input (operands input member)) agree grouped]
    cases operator with
    | projectElement column =>
      have own := congrArg (List.map fun value => (column.id, value)) (values agree grouped)
      simp only [List.map_map, Function.comp_def] at own
      simp only [own]
    | _ => rfl

/-- **An operator is confined** if its inputs are, and no relation among them takes from outside what
one of them makes. -/
theorem confined_behaviour [DecidableEq V] {operator : Operator} (unhidden : operator.isScalar = false →
    Scope.Unhidden (inputs.map Behaviour.scope)) : (world.behaviour operator inputs).Confined := by
  cases operator with
  | logical operator => exact confined_ofLogical confined (unhidden rfl)
  | physical operator => exact confined_ofLogical confined (unhidden rfl)
  | scalar operator => exact confined_ofScalar confined

end World

end Cascades
