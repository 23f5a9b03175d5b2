/-
**Values that occur.**

Constraints compare values, which makes sense for values that are ordered. Which values occur in a memo
over a database follows from its constants and from the rows of its groups; they are among some values
if the tables hold no others and no operator makes others.

* `Memo.Draws`: the values that occur in a memo over a database; `Memo.exactConstants`: whether its
  constants are without doubles;
* `Interpretation.Closed`: operators over rows of some values make rows of such values.
-/

import Cascades.Proofs.Meaning.Group
import Cascades.Proofs.Meaning.Sound
import Cascades.Proofs.Meaning.Standard

namespace Cascades

open Memo Interpretation

/-! ### Values that occur -/

/-- All values that occur over a database are among some values: NULL, the constants of the memo, and
what is in the rows of its groups, if the environment holds no others. -/
structure Memo.Draws (I : Interpretation Value) (memo : Memo) (values : Value → Prop) : Prop where
  null : values .null
  constants : ∀ {id : ExprId} {expr : Expr} {value : Value}, memo.exprs[id]? = some expr →
    expr.operator = .scalar (.constant value) → values value
  rows : ∀ {id : GroupId} {environment : Row Value}, id < memo.groups.size →
    environment.In values → ∀ row ∈ (memo.sense I id).rows environment, row.In values

theorem Memo.Draws.earlier {I : Interpretation Value} {memo next : Memo} {values : Value → Prop}
    (draws : next.Draws I values) (valid : memo.Valid) (later : next.Valid)
    (grows : memo.Grows next) : memo.Draws I values where
  null := draws.null
  constants stored := draws.constants (grows.exprs stored)
  rows inside known := by
    rw [← grows.sense_eq valid later inside]
    exact draws.rows (Nat.lt_of_lt_of_le inside grows.size_groups) known

/-- Whether no constant of a memo is a double. -/
def Memo.exactConstants (memo : Memo) : Bool :=
  memo.exprs.toList.all fun expr =>
    match expr.operator with
    | .scalar (.constant value) => value.isExact
    | _ => true

theorem Memo.isExact_of_exactConstants {memo : Memo} (without : memo.exactConstants = true)
    {id : ExprId} {expr : Expr} {value : Value} (stored : memo.exprs[id]? = some expr)
    (kind : expr.operator = .scalar (.constant value)) : value.isExact = true := by
  have each := List.all_eq_true.1 without expr (Array.mem_toList_iff.2 (Array.mem_of_getElem? stored))
  rw [kind] at each
  exact each

/-! ### Closed interpretations -/

/-- Operators over rows of some values make rows of such values. -/
structure Interpretation.Closed (I : Interpretation Value) (values : Value → Prop) : Prop where
  tables : ∀ (table : Table) (columns : List Column), ∀ row ∈ I.table table columns, row.In values
  relations : ∀ (operator : LogicalOp) (inputs : List (Sense Value)) (environment : Row Value),
    environment.In values →
      (∀ input ∈ inputs, ∀ row ∈ input.rows environment, row.In values) →
        ∀ row ∈ I.relation operator inputs environment, row.In values

namespace Row

variable {values : Value → Prop} {row : Row Value}

theorem restrict_in (inside : row.In values) {columns : ColumnSet} :
    (row.restrict columns).In values := by
  intro column value found
  unfold restrict at found
  split at found
  · exact inside column value found
  · cases found

theorem nulls_in (null : values .null) {columns : ColumnSet} : (nulls columns).In values := by
  intro column value found
  unfold nulls at found
  split at found
  · cases found
    exact null
  · cases found

end Row

namespace Interpretation

variable {I : Interpretation Value} {values : Value → Prop} {environment : Row Value}
  {inputs : List (Sense Value)}

theorem product_in (each : ∀ input ∈ inputs, ∀ row ∈ input.rows environment, row.In values) :
    ∀ row ∈ product inputs environment, row.In values := by
  induction inputs with
  | nil =>
    intro row member column value found
    rw [product, List.map_nil, Bag.crossAll_nil, Multiset.mem_singleton] at member
    rw [member] at found
    cases found
  | cons head tail ih =>
    intro row member
    obtain ⟨one, oneIn, other, otherIn, rfl⟩ := Bag.mem_cross.1 member
    exact Row.above_in (each head List.mem_cons_self one oneIn)
      (ih (fun input listed => each input (List.mem_cons_of_mem _ listed)) other otherIn)

/-- An operator over rows of some values makes rows of such values, if the interpretation is closed. -/
theorem Closed.sense_in (closed : I.Closed values) (known : environment.In values)
    (each : ∀ input ∈ inputs, ∀ row ∈ input.rows environment, row.In values) {operator : Operator} :
    ∀ row ∈ (I.sense operator inputs).rows environment, row.In values := by
  have logical : ∀ operator : LogicalOp,
      ∀ row ∈ (I.ofLogical operator inputs).rows environment, row.In values := by
    intro operator row member
    unfold ofLogical at member
    split at member
    · exact product_in (fun input listed => each input (List.mem_filter.1 listed).1) row
        (Bag.mem_keep.1 member).1
    · obtain ⟨before, given, rfl⟩ := Multiset.mem_map.1 member
      refine Row.restrict_in ?_
      unfold otherRows at given
      split at given
      · exact closed.tables _ _ before given
      · exact closed.relations _ inputs environment known each before given
  cases operator with
  | logical operator => exact logical operator
  | physical operator => exact logical operator.logical
  | scalar operator => exact fun row member => absurd member (Multiset.notMem_zero row)

/-- **A memo over a closed interpretation** draws on the values of its constants and its tables. -/
theorem Closed.draws (closed : I.Closed values) {memo : Memo} (valid : memo.Valid)
    (null : values .null)
    (constants : ∀ {id : ExprId} {expr : Expr} {value : Value}, memo.exprs[id]? = some expr →
      expr.operator = .scalar (.constant value) → values value) : memo.Draws I values where
  null := null
  constants := constants
  rows {id environment} inside known := by
    induction id using Nat.strongRecOn with
    | ind id ih =>
      obtain ⟨expr, found⟩ := valid.exists_firstMember inside
      rw [valid.sense_eq found]
      refine closed.sense_in known fun input listed => ?_
      obtain ⟨child, member, rfl⟩ := List.mem_map.1 listed
      have older := (valid.of_firstMember found).2 child member
      exact ih child older (Nat.lt_trans older inside)

theorem joinRows_in (null : values .null) {type : JoinType} {left right predicate : Sense Value}
    (leftIn : ∀ row ∈ left.rows environment, row.In values)
    (rightIn : ∀ row ∈ right.rows environment, row.In values) :
    ∀ row ∈ I.joinRows type left right predicate environment, row.In values := by
  have pairs : ∀ row ∈ I.matched left right predicate environment, row.In values := by
    intro row member
    obtain ⟨one, oneIn, other, otherIn, rfl⟩ := Bag.mem_cross.1 (Bag.mem_keep.1 member).1
    exact Row.above_in (leftIn one oneIn) (rightIn other otherIn)
  have keptLeft : ∀ row ∈ (I.lonelyLeft left right predicate environment).map fun row =>
      row.above (Row.nulls right.scope.columns), row.In values := by
    intro row member
    obtain ⟨one, oneIn, rfl⟩ := Multiset.mem_map.1 member
    exact Row.above_in (leftIn one (Bag.mem_keep.1 oneIn).1) (Row.nulls_in null)
  have keptRight : ∀ row ∈ (I.lonelyRight left right predicate environment).map fun row =>
      (Row.nulls left.scope.columns).above row, row.In values := by
    intro row member
    obtain ⟨one, oneIn, rfl⟩ := Multiset.mem_map.1 member
    exact Row.above_in (Row.nulls_in null) (rightIn one (Bag.mem_keep.1 oneIn).1)
  intro row member
  cases type with
  | inner | cross => exact pairs row member
  | left => exact (Multiset.mem_add.1 member).elim (pairs row) (keptLeft row)
  | right => exact (Multiset.mem_add.1 member).elim (pairs row) (keptRight row)
  | full =>
    exact (Multiset.mem_add.1 member).elim
      (fun early => (Multiset.mem_add.1 early).elim (pairs row) (keptLeft row)) (keptRight row)
  | semi | anti => exact leftIn row (Bag.mem_keep.1 member).1

/-- **The standard interpretation of some tables** makes NULL and what is in the tables. -/
theorem ofValues_closed {table : Table → List Column → Bag Value} (null : values .null)
    (tables : ∀ (name : Table) (columns : List Column), ∀ row ∈ table name columns, row.In values) :
    (ofValues table).Closed values where
  tables := tables
  relations operator inputs environment known each row member := by
    have made : row ∈ standardRelation (scalarsOnly table) operator inputs environment := member
    unfold standardRelation at made
    split at made
    · refine joinRows_in null ?_ ?_ row made
      · exact each _ List.mem_cons_self
      · exact each _ (List.mem_cons_of_mem _ List.mem_cons_self)
    · obtain ⟨one, oneIn, shown⟩ := Multiset.mem_bind.1 made
      rw [Multiset.mem_singleton.1 shown]
      exact Row.above_in (each _ List.mem_cons_self one oneIn) (Row.nulls_in null)
    · rw [Multiset.mem_singleton.1 made]
      exact Row.nulls_in null
    · rename_i keys input list _
      obtain ⟨one, chosen, rfl⟩ := List.mem_map.1 (Multiset.mem_coe.1 made)
      have among := (Bag.exists_represents (.ofList (keys.map Column.id)) environment
        (input.rows environment)).choose_spec.among
      have oneIn := each input List.mem_cons_self one
        (Multiset.mem_of_le among (Multiset.mem_coe.2 chosen))
      exact Row.above_in (Row.restrict_in (Row.above_in oneIn known)) (Row.nulls_in null)
    · rename_i offset count input
      exact each input List.mem_cons_self row (Multiset.mem_of_le
        (exists_le_card (input.rows environment)
          (le_trans (min_le_right count _) (Nat.sub_le _ offset))).choose_spec.1 made)
    · exact absurd made (Multiset.notMem_zero row)

end Interpretation

end Cascades
