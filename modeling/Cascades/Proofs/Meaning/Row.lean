/-
**Rows and bags of rows.**

A row gives values to columns, and a bag holds rows with their multiplicities. A join puts every row
of one bag together with every row of another one.

* `Row.above`: a row in front of another one; `Row.Within`: the columns that a row may have;
* `cross`, `crossAll`: all rows of two bags, and of any number of bags, put together;
* `cross_comm`: two bags without a common column can be exchanged;
* `keep_cross`: what is asked of one side only can be asked before the rows are put together.
-/

import Cascades.Operator.Basic
import Mathlib.Data.Multiset.Bind
import Mathlib.Data.Multiset.Filter

namespace Cascades

/-! ### Rows -/

/-- Values of columns. -/
abbrev Row (V : Type) := ColumnId → Option V

namespace Row

variable {V : Type} {row other : Row V} {columns others : ColumnSet}

/-- The row without columns. -/
def empty : Row V := fun _ => none

/-- The values of a row, and for the columns that it lacks those of the row below. -/
def above (row below : Row V) : Row V := fun column => (row column).or (below column)

/-- The values of a row in some columns. -/
def restrict (row : Row V) (columns : ColumnSet) : Row V :=
  fun column => if column ∈ columns then row column else none

/-- A row has no values outside of some columns. -/
def Within (row : Row V) (columns : ColumnSet) : Prop :=
  ∀ column, ¬ column ∈ columns → row column = none

@[simp] theorem empty_above : empty.above row = row := by
  funext column
  simp [above, empty]

@[simp] theorem above_empty : row.above empty = row := by
  funext column
  simp [above, empty]

theorem above_assoc {last : Row V} : (row.above other).above last = row.above (other.above last) := by
  funext column
  simp [above, Option.or_assoc]

theorem restrict_within : (row.restrict columns).Within columns := by
  intro column outside
  simp [restrict, outside]

theorem restrict_congr (same : ∀ column, column ∈ columns → row column = other column) :
    row.restrict columns = other.restrict columns := by
  funext column
  by_cases inside : column ∈ columns
  · simp [restrict, inside, same column inside]
  · simp [restrict, inside]

/-- Rows without a common column can be put together in either order. -/
theorem above_comm (first : row.Within columns) (second : other.Within others)
    (apart : ∀ column, column ∈ columns → ¬ column ∈ others) :
    row.above other = other.above row := by
  funext column
  by_cases inside : column ∈ columns
  · simp [above, second column (apart column inside)]
  · simp [above, first column inside]

/-- A row adds nothing to the columns that it does not have. -/
theorem above_above_apply {below : Row V} (second : other.Within others) {column : ColumnId}
    (outside : ¬ column ∈ others) :
    ((row.above other).above below) column = (row.above below) column := by
  simp [above, second column outside]

end Row

/-! ### Bags -/

/-- Rows with multiplicities. -/
abbrev Bag (V : Type) := Multiset (Row V)

namespace Bag

variable {V : Type} {first second : Bag V} {columns others : ColumnSet}

/-- No row of a bag has a value outside of some columns. -/
def Within (bag : Bag V) (columns : ColumnSet) : Prop := ∀ row ∈ bag, row.Within columns

/-- Every row of a bag together with every row of another one. -/
def cross (first second : Bag V) : Bag V :=
  first.bind fun row => second.map fun other => row.above other

/-- The rows of any number of bags put together; no bags at all give one row without columns. -/
def crossAll (bags : List (Bag V)) : Bag V := bags.foldr cross {Row.empty}

theorem mem_cross {row : Row V} :
    row ∈ cross first second ↔ ∃ one ∈ first, ∃ other ∈ second, one.above other = row := by
  simp [cross]

@[simp] theorem unit_cross : cross {Row.empty} first = first := by
  simp [cross]

theorem cross_assoc {third : Bag V} :
    cross (cross first second) third = cross first (cross second third) := by
  simp only [cross, Multiset.bind_assoc, Multiset.bind_map, Multiset.map_bind, Multiset.map_map,
    Function.comp_def, Row.above_assoc]

theorem cross_comm (one : first.Within columns) (two : second.Within others)
    (apart : ∀ column, column ∈ columns → ¬ column ∈ others) :
    cross first second = cross second first := by
  unfold cross
  rw [Multiset.bind_map_comm]
  refine Multiset.bind_congr fun other otherIn => Multiset.map_congr rfl fun row rowIn => ?_
  exact Row.above_comm (one row rowIn) (two other otherIn) apart

@[simp] theorem crossAll_nil : crossAll ([] : List (Bag V)) = {Row.empty} := rfl

@[simp] theorem crossAll_cons {bags : List (Bag V)} :
    crossAll (first :: bags) = cross first (crossAll bags) := rfl

theorem crossAll_append {bags more : List (Bag V)} :
    crossAll (bags ++ more) = cross (crossAll bags) (crossAll more) := by
  induction bags with
  | nil => simp
  | cons head tail ih => rw [List.cons_append, crossAll_cons, ih, crossAll_cons, cross_assoc]

theorem cross_within (one : first.Within columns) (two : second.Within others) :
    ∀ row ∈ cross first second, ∀ column, ¬ column ∈ columns → ¬ column ∈ others →
      row column = none := by
  intro row member column outside outsideToo
  obtain ⟨left, leftIn, right, rightIn, rfl⟩ := mem_cross.1 member
  simp [Row.above, one left leftIn column outside, two right rightIn column outsideToo]

/-! ### Tests -/

open scoped Classical in
/-- The rows that pass a test. -/
noncomputable def keep (bag : Bag V) (test : Row V → Prop) : Bag V := bag.filter test

variable {test early : Row V → Prop}

theorem mem_keep {row : Row V} : row ∈ first.keep test ↔ row ∈ first ∧ test row := by
  classical
  exact Multiset.mem_filter

theorem keep_congr (same : ∀ row ∈ first, (test row ↔ early row)) :
    first.keep test = first.keep early := by
  classical
  exact Multiset.filter_congr same

theorem keep_keep : (first.keep early).keep test = first.keep fun row => test row ∧ early row := by
  unfold keep
  rw [Multiset.filter_filter]
  congr!

/-- What holds of a row of the first bag in any company can be asked before the rows are put
together. -/
theorem keep_cross (same : ∀ row ∈ first, ∀ other ∈ second, (test (row.above other) ↔ early row)) :
    (cross first second).keep test = cross (first.keep early) second := by
  classical
  unfold keep cross
  rw [Multiset.filter_bind, Multiset.bind_filter]
  refine Multiset.bind_congr fun row rowIn => ?_
  rw [Multiset.filter_map]
  by_cases holds : early row
  · rw [if_pos holds, Multiset.filter_eq_self.2]
    intro other otherIn
    exact (same row rowIn other otherIn).2 holds
  · rw [if_neg holds, Multiset.filter_eq_nil.2, Multiset.map_zero]
    intro other otherIn
    exact fun passes => holds ((same row rowIn other otherIn).1 passes)

end Bag

end Cascades
