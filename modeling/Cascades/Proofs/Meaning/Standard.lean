/-
**The standard meaning of operators.**

Predicates have three truth values, and a comparison with NULL is unknown. Outer joins fill up with
NULL the rows that match nothing. Aggregation gives one row for each group of rows with equal keys, and
one row altogether where there are no keys. A limit may keep any rows, as long as it keeps the right
number of them. What functions and aggregates compute is left open.

* `Interpretation.joinRows`: the rows of each type of join;
* `Interpretation.Standard`: interpretations that give operators this meaning;
* `Interpretation.ofValues`: one of them for any contents of the tables.
-/

import Cascades.Proofs.Constraint.Satisfaction
import Cascades.Proofs.Meaning.Sense

namespace Cascades

/-! ### Truth values -/

namespace Value

/-- The result of a comparison: unknown where the values do not compare. -/
def compared (operator : BinaryOp) (first second : Value) : Value :=
  match compare? first second with
  | some found => bool (operator.accepts found)
  | none => null

/-- Whether a value is the truth value TRUE or FALSE. -/
def isTruth (truth : Bool) : Value → Bool
  | bool value => value == truth
  | _ => false

/-- False if some value is false, true if all are true, else unknown. -/
def conjoin (operands : List Value) : Value :=
  if operands.any (isTruth false) then bool false
  else if operands.all (isTruth true) then bool true
  else null

/-- True if some value is true, false if all are false, else unknown. -/
def disjoin (operands : List Value) : Value :=
  if operands.any (isTruth true) then bool true
  else if operands.all (isTruth false) then bool false
  else null

/-- The other truth value; unknown stays unknown. -/
def negate : Value → Value
  | bool value => bool !value
  | _ => null

theorem isTruth_iff {truth : Bool} {value : Value} :
    value.isTruth truth = true ↔ value = bool truth := by
  cases value <;> simp [isTruth]

theorem conjoin_eq_true_iff {operands : List Value} :
    conjoin operands = bool true ↔ ∀ operand ∈ operands, operand = bool true := by
  unfold conjoin
  split
  · rename_i some
    obtain ⟨operand, member, wrong⟩ := List.any_eq_true.1 some
    rw [isTruth_iff] at wrong
    refine ⟨nofun, fun each => ?_⟩
    cases wrong.symm.trans (each operand member)
  · split
    · rename_i every
      exact ⟨fun _ operand member => isTruth_iff.1 (List.all_eq_true.1 every operand member),
        fun _ => rfl⟩
    · rename_i other
      refine ⟨nofun, fun each => absurd (List.all_eq_true.2 fun operand member => ?_) other⟩
      exact isTruth_iff.2 (each operand member)

theorem disjoin_eq_true_iff {operands : List Value} :
    disjoin operands = bool true ↔ ∃ operand ∈ operands, operand = bool true := by
  unfold disjoin
  split
  · rename_i some
    obtain ⟨operand, member, holds⟩ := List.any_eq_true.1 some
    exact ⟨fun _ => ⟨operand, member, isTruth_iff.1 holds⟩, fun _ => rfl⟩
  · rename_i none
    have absent : ¬ ∃ operand ∈ operands, operand = bool true := fun ⟨operand, member, holds⟩ =>
      none (List.any_eq_true.2 ⟨operand, member, isTruth_iff.2 holds⟩)
    split <;> exact ⟨nofun, fun exist => absurd exist absent⟩

theorem compared_eq_true_iff {operator : BinaryOp} {first second : Value} :
    compared operator first second = bool true ↔
      ∃ found, compare? first second = some found ∧ operator.accepts found = true := by
  unfold compared
  cases compare? first second <;> simp

/-- Equal values compare alike with any value. -/
theorem compare?_congr {first second : Value} (same : first.same second = true) (value : Value) :
    compare? value first = compare? value second := by
  cases first <;> cases second <;> cases value <;>
    simp_all [Value.same, compare?, Double.order]

end Value

/-! ### Rows with NULL -/

namespace Row

/-- The value of a column; NULL for a column that the row lacks. -/
def value (row : Row Value) (column : ColumnId) : Value := (row column).getD .null

/-- The row with NULL in some columns. -/
def nulls (columns : ColumnSet) : Row Value :=
  fun column => if column ∈ columns then some .null else none

/-- Whether every value of a row is among some values. -/
def In (values : Value → Prop) (row : Row Value) : Prop :=
  ∀ column value, row column = some value → values value

/-- Whether two rows have equal values in some columns. -/
def SameKeys (keys : ColumnSet) (first second : Row Value) : Prop :=
  ∀ column ∈ keys.toList, Value.order (first.value column) (second.value column) = .eq

theorem nulls_within {columns : ColumnSet} : (nulls columns).Within columns := by
  intro column outside
  simp [nulls, outside]

/-- A row keeps its values in the columns that it is restricted to. -/
theorem value_restrict {row : Row Value} {columns : ColumnSet} {column : ColumnId}
    (inside : column ∈ columns) : (row.restrict columns).value column = row.value column := by
  simp [value, restrict, inside]

theorem value_in {values : Value → Prop} {row : Row Value} (inside : row.In values)
    (null : values .null) (column : ColumnId) : values (row.value column) := by
  unfold value
  cases found : row column with
  | none => exact null
  | some value => exact inside column value found

theorem above_in {values : Value → Prop} {row below : Row Value} (inside : row.In values)
    (belowInside : below.In values) : (row.above below).In values := by
  intro column value found
  unfold above at found
  cases here : row column with
  | none =>
    rw [here, Option.none_or] at found
    exact belowInside column value found
  | some other =>
    rw [here, Option.some_or] at found
    exact Option.some.inj found ▸ inside column other here

end Row

/-- Rows that stand for all rows of a bag with the same keys, one for each. -/
structure Bag.Represents (keys : ColumnSet) (environment : Row Value) (rows : Bag Value)
    (chosen : List (Row Value)) : Prop where
  among : (chosen : Bag Value) ≤ rows
  covers : ∀ row ∈ rows, ∃ one ∈ chosen,
    (row.above environment).SameKeys keys (one.above environment)
  apart : chosen.Pairwise fun first second =>
    ¬ (first.above environment).SameKeys keys (second.above environment)

/-- Every bag has rows that represent it. -/
theorem Bag.exists_represents (keys : ColumnSet) (environment : Row Value) (rows : Bag Value) :
    ∃ chosen, Bag.Represents keys environment rows chosen := by
  induction rows using Multiset.induction with
  | empty => exact ⟨[], le_refl _, by simp, .nil⟩
  | cons row rows ih =>
    obtain ⟨chosen, represents⟩ := ih
    by_cases known : ∃ one ∈ chosen, (row.above environment).SameKeys keys (one.above environment)
    · refine ⟨chosen, represents.among.trans (Multiset.le_cons_self _ _), ?_, represents.apart⟩
      intro other member
      rcases Multiset.mem_cons.1 member with rfl | member
      · exact known
      · exact represents.covers other member
    · have itself : (row.above environment).SameKeys keys (row.above environment) := by
        intro column _
        cases (row.above environment).value column <;>
          simp [Value.order, Value.compare?, Double.order]
      refine ⟨row :: chosen, ?_, ?_, List.pairwise_cons.2 ⟨fun one member same =>
        known ⟨one, member, same⟩, represents.apart⟩⟩
      · rw [← Multiset.cons_coe]
        exact Multiset.cons_le_cons _ represents.among
      · intro other member
        rcases Multiset.mem_cons.1 member with rfl | member
        · exact ⟨other, List.mem_cons_self, itself⟩
        · obtain ⟨one, inside, same⟩ := represents.covers other member
          exact ⟨one, List.mem_cons_of_mem row inside, same⟩

/-! ### Joins -/

/-- The value of a scalar; NULL for what has no value. -/
def Sense.valueIn (sense : Sense Value) (environment : Row Value) : Value :=
  (sense.value environment).getD .null

namespace Interpretation

section Joins

variable (I : Interpretation Value)

/-- Whether two rows match under a predicate. -/
def Matches (predicate : Sense Value) (environment row other : Row Value) : Prop :=
  I.Holds predicate ((row.above other).above environment)

/-- The pairs of rows that match. -/
noncomputable def matched (left right predicate : Sense Value) (environment : Row Value) :
    Bag Value :=
  (Bag.cross (left.rows environment) (right.rows environment)).keep fun row =>
    I.Holds predicate (row.above environment)

/-- The left rows that match no right one. -/
noncomputable def lonelyLeft (left right predicate : Sense Value) (environment : Row Value) :
    Bag Value :=
  (left.rows environment).keep fun row =>
    ∀ other ∈ right.rows environment, ¬ I.Matches predicate environment row other

/-- The right rows that match no left one. -/
noncomputable def lonelyRight (left right predicate : Sense Value) (environment : Row Value) :
    Bag Value :=
  (right.rows environment).keep fun other =>
    ∀ row ∈ left.rows environment, ¬ I.Matches predicate environment row other

/-- **The rows of a join.** -/
noncomputable def joinRows (type : JoinType) (left right predicate : Sense Value)
    (environment : Row Value) : Bag Value :=
  let pairs := I.matched left right predicate environment
  let keptLeft := (I.lonelyLeft left right predicate environment).map fun row =>
    row.above (Row.nulls right.scope.columns)
  let keptRight := (I.lonelyRight left right predicate environment).map fun other =>
    (Row.nulls left.scope.columns).above other
  match type with
  | .inner | .cross => pairs
  | .left => pairs + keptLeft
  | .right => pairs + keptRight
  | .full => pairs + keptLeft + keptRight
  | .semi => (left.rows environment).keep fun row =>
      ∃ other ∈ right.rows environment, I.Matches predicate environment row other
  | .anti => I.lonelyLeft left right predicate environment

end Joins

/-! ### Standard interpretations -/

/-- **Interpretations that give operators their standard meaning.** Equal constants have one meaning,
so a constant means some value that is equal to it. A row is projected to any number of rows, since a
function in a project list may return a set. -/
structure Standard (I : Interpretation Value) : Prop where
  isTrue_iff : ∀ {value}, I.isTrue value ↔ value = .bool true
  column : ∀ {column inputs environment},
    I.scalar (.column column) inputs environment = environment.value column.id
  constant : ∀ {value inputs environment},
    (I.scalar (.constant value) inputs environment).same value = true
  comparison : ∀ {operator left right environment}, operator.isComparison = true →
    I.scalar (.binary operator) [left, right] environment =
      Value.compared operator (left.valueIn environment) (right.valueIn environment)
  isNull : ∀ {operand environment}, I.scalar (.unary .isNull) [operand] environment =
    .bool (operand.valueIn environment).isNull
  isNotNull : ∀ {operand environment}, I.scalar (.unary .isNotNull) [operand] environment =
    .bool !(operand.valueIn environment).isNull
  negation : ∀ {operand environment}, I.scalar (.unary .not) [operand] environment =
    (operand.valueIn environment).negate
  conjunction : ∀ {operands environment}, I.scalar .and operands environment =
    Value.conjoin (operands.map fun operand => operand.valueIn environment)
  disjunction : ∀ {operands environment}, I.scalar .or operands environment =
    Value.disjoin (operands.map fun operand => operand.valueIn environment)
  join : ∀ {type left right predicate environment}, type.isInner = false →
    I.relation (.join type) [left, right, predicate] environment =
      I.joinRows type left right predicate environment
  project : ∀ {input list environment}, ∃ results : Row Value → Bag Value,
    (∀ row, (results row).Within list.scope.columns) ∧
    I.relation .project [input, list] environment =
      (input.rows environment).bind fun row => (results row).map fun result => row.above result
  aggregateAll : ∀ {input list environment}, ∃ result : Row Value,
    result.Within list.scope.columns ∧
    I.relation (.aggregate []) [input, list] environment = {result}
  aggregate : ∀ {keys : List Column} {input list environment}, keys ≠ [] →
    ∃ (chosen : List (Row Value)) (results : Row Value → Row Value),
      (input.rows environment).Represents (.ofList (keys.map Column.id)) environment chosen ∧
      (∀ row, (results row).Within list.scope.columns) ∧
      I.relation (.aggregate keys) [input, list] environment = chosen.map fun row =>
        ((row.above environment).restrict (.ofList (keys.map Column.id))).above (results row)
  limit : ∀ {offset count input environment},
    I.relation (.limit offset count) [input] environment ≤ input.rows environment ∧
    (I.relation (.limit offset count) [input] environment).card =
      min count ((input.rows environment).card - offset)

/-! ### An interpretation for any tables -/

/-- Some bag of a size within another one. -/
theorem exists_le_card {α : Type} (bag : Multiset α) {size : Nat} (fits : size ≤ bag.card) :
    ∃ part ≤ bag, part.card = size := by
  induction bag using Quotient.inductionOn with
  | h list =>
    refine ⟨(list.take size : Multiset α), ?_, ?_⟩
    · exact Multiset.coe_le.2 (List.take_sublist size list).subperm
    · simpa using fits

/-- Equality of values as a setoid. -/
def sameSetoid : Setoid Value where
  r first second := first.same second = true
  iseqv := ⟨Value.same_refl, Value.same_symm, Value.same_trans⟩

/-- One of the values that are equal to a value, the same one for all of them. -/
noncomputable def representative (value : Value) : Value :=
  (Quotient.mk sameSetoid value).out

theorem same_representative (value : Value) : (representative value).same value = true :=
  Quotient.exact (s := sameSetoid) (Quotient.out_eq (Quotient.mk sameSetoid value))

theorem representative_congr {first second : Value} (same : first.same second = true) :
    representative first = representative second :=
  congrArg Quotient.out (Quotient.sound same)

/-- The value of a scalar operator; NULL where no value is laid down. -/
noncomputable def standardScalar : ScalarOp → List (Sense Value) → Row Value → Value
  | .column column, _, environment => environment.value column.id
  | .constant value, _, _ => representative value
  | .binary operator, [left, right], environment =>
    if operator.isComparison then
      Value.compared operator (left.valueIn environment) (right.valueIn environment)
    else .null
  | .unary .isNull, [operand], environment => .bool (operand.valueIn environment).isNull
  | .unary .isNotNull, [operand], environment => .bool !(operand.valueIn environment).isNull
  | .unary .not, [operand], environment => (operand.valueIn environment).negate
  | .and, operands, environment =>
    Value.conjoin (operands.map fun operand => operand.valueIn environment)
  | .or, operands, environment =>
    Value.disjoin (operands.map fun operand => operand.valueIn environment)
  | _, _, _ => .null

/-- Tables, and scalar operators with their standard values; other relations are empty. -/
noncomputable def scalarsOnly (table : Table → List Column → Bag Value) : Interpretation Value where
  table
  relation _ _ _ := 0
  scalar := standardScalar
  isTrue value := value = .bool true
  true_iff {inputs environment} := by
    show Value.conjoin _ = .bool true ↔ _
    rw [Value.conjoin_eq_true_iff, List.forall_mem_map]
    refine forall₂_congr fun input _ => ?_
    unfold Sense.valueIn
    cases input.value environment <;> simp
  true_truth {inputs environment} := by
    have same := same_representative (.bool true)
    show representative (.bool true) = .bool true
    cases found : representative (.bool true) <;> rw [found] at same <;>
      simp_all [Value.same]
  scalar_congr {first second} equal := by
    rcases ScalarOp.beq_iff.1 equal with rfl | ⟨value, other, rfl, rfl, same⟩
    · rfl
    · funext inputs environment
      exact representative_congr same

/-- The rows of an operator that is not an inner join. A projection computes no values, and a
limit keeps some rows. -/
noncomputable def standardRelation (I : Interpretation Value) :
    LogicalOp → List (Sense Value) → Row Value → Bag Value
  | .join type, [left, right, predicate], environment =>
    I.joinRows type left right predicate environment
  | .project, [input, list], environment =>
    (input.rows environment).bind fun row => {row.above (.nulls list.scope.columns)}
  | .aggregate [], [_, list], _ => {.nulls list.scope.columns}
  | .aggregate keys, [input, list], environment =>
    let chosen := (Bag.exists_represents (.ofList (keys.map Column.id)) environment
      (input.rows environment)).choose
    chosen.map fun row => ((row.above environment).restrict
      (.ofList (keys.map Column.id))).above (.nulls list.scope.columns)
  | .limit offset count, [input], environment =>
    (exists_le_card (input.rows environment)
      (le_trans (min_le_right count _) (Nat.sub_le _ offset))).choose
  | _, _, _ => 0

/-- **A standard interpretation** for any contents of the tables. -/
noncomputable def ofValues (table : Table → List Column → Bag Value) : Interpretation Value :=
  { scalarsOnly table with relation := standardRelation (scalarsOnly table) }

variable {table : Table → List Column → Bag Value}

theorem ofValues_standard : (ofValues table).Standard where
  isTrue_iff := Iff.rfl
  column := rfl
  constant := same_representative _
  comparison comparing := if_pos comparing
  isNull := rfl
  isNotNull := rfl
  negation := rfl
  conjunction := rfl
  disjunction := rfl
  join _ := rfl
  project {input list environment} :=
    ⟨fun _ => {.nulls list.scope.columns},
      fun _ _ member => Multiset.mem_singleton.1 member ▸ Row.nulls_within, by
        simp only [Multiset.map_singleton]
        rfl⟩
  aggregateAll := ⟨_, Row.nulls_within, rfl⟩
  aggregate {keys input list environment} some := by
    cases keys with
    | nil => exact absurd rfl some
    | cons key keys =>
      exact ⟨_, fun _ => .nulls list.scope.columns, (Bag.exists_represents _ _ _).choose_spec,
        fun _ => Row.nulls_within, rfl⟩
  limit {offset count input environment} :=
    (exists_le_card (input.rows environment)
      (le_trans (min_le_right count _) (Nat.sub_le _ offset))).choose_spec

end Interpretation

end Cascades
