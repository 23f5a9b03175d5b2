/-
**What a constraint says about columns is never more than it does.**

A constraint of several parts is asked about a column through its index, which has the places of the
parts that mention the column. So what it says about a column is what all its parts say about it, and
that is satisfied wherever the constraint is.

* `PlaceIndex.get?_ofParts`: an index has for a column the places of the parts that mention it;
* `Indexed.columns_ofConstraint`, `Indexed.onColumn?_ofConstraint`: what is read from the indexes;
* `Constraint.views_widen`: what is said about one column and about several is satisfied wherever the
  constraint is.
-/

import Cascades.Constraint.Index
import Cascades.Proofs.Constraint.Contradiction
import Cascades.Proofs.Meaning.Values

namespace Cascades

/-! ### Indexes -/

namespace PlaceIndex

variable {column : ColumnId} {index : PlaceIndex}

/-- The places of the parts that mention a column. -/
def owners (column : ColumnId) (parts : List (ColumnSet × Nat)) : List Nat :=
  (parts.filter fun part => column ∈ part.1).map (·.2)

theorem get?_foldl_push {place : Nat} {columns : List ColumnId} (once : columns.Nodup) :
    (columns.foldl (push place) index).get? column =
      if column ∈ columns then some ((index.get? column).getD [] ++ [place])
      else index.get? column := by
  induction columns generalizing index with
  | nil => simp
  | cons head tail ih =>
    obtain ⟨other, once⟩ := List.nodup_cons.1 once
    rw [List.foldl_cons, ih once, push, ColumnMap.get?_insert]
    by_cases here : column = head
    · subst here
      simp [other]
    · simp [here]

theorem get?_pushAll {columns : ColumnSet} {place : Nat} :
    (pushAll index columns place).get? column =
      if column ∈ columns then some ((index.get? column).getD [] ++ [place])
      else index.get? column := by
  refine get?_foldl_push (columns.ascending.imp fun {first second} below same => ?_)
  rw [same, Std.ReflOrd.compare_self] at below
  cases below

theorem get?_foldl_pushAll (parts : List (ColumnSet × Nat)) :
    (parts.foldl (fun index part => pushAll index part.1 part.2) index).get? column =
      if owners column parts = [] then index.get? column
      else some ((index.get? column).getD [] ++ owners column parts) := by
  induction parts generalizing index with
  | nil => simp [owners]
  | cons part rest ih =>
    rw [List.foldl_cons, ih, get?_pushAll]
    by_cases here : column ∈ part.1
    · have first : owners column (part :: rest) = part.2 :: owners column rest := by
        simp [owners, here]
      by_cases later : owners column rest = []
      · simp [first, here, later]
      · simp [first, here, later]
    · have first : owners column (part :: rest) = owners column rest := by simp [owners, here]
      rw [first, if_neg here]

/-- **An index has for a column** the places of the parts that mention it, if there are any. -/
theorem get?_ofParts (mentioned : List ColumnSet) :
    (ofParts mentioned).get? column =
      if owners column mentioned.zipIdx = [] then none else some (owners column mentioned.zipIdx) := by
  rw [ofParts, get?_foldl_pushAll]
  simp

theorem owners_eq_nil_iff {mentioned : List ColumnSet} :
    owners column mentioned.zipIdx = [] ↔ ∀ columns ∈ mentioned, column ∉ columns := by
  rw [owners, List.map_eq_nil_iff, List.filter_eq_nil_iff]
  constructor
  · intro none columns member
    obtain ⟨place, there⟩ := List.getElem?_of_mem member
    simpa using none (columns, place) (List.mk_mem_zipIdx_iff_getElem?.2 there)
  · intro none part member
    have there := List.mk_mem_zipIdx_iff_getElem?.1 member
    simpa using none part.1 (List.mem_of_getElem? there)

/-- All parts mention a column where it has as many owners as there are parts. -/
theorem length_owners_lt_iff {mentioned : List ColumnSet} :
    (owners column mentioned.zipIdx).length < mentioned.length ↔
      ∃ columns ∈ mentioned, column ∉ columns := by
  have count : (owners column mentioned.zipIdx).length = mentioned.countP (column ∈ ·) := by
    have parts : mentioned.zipIdx.map Prod.fst = mentioned := List.zipIdx_map_fst ..
    conv_rhs => rw [← parts, List.countP_map]
    rw [owners, List.length_map, ← List.countP_eq_length_filter]
    rfl
  have every := List.countP_eq_length (p := fun columns : ColumnSet => column ∈ columns) (l := mentioned)
  simp only [decide_eq_true_eq] at every
  rw [count, List.countP_le_length.lt_iff_ne, ne_eq, every]
  push Not
  rfl

theorem mem_columns_ofParts {mentioned : List ColumnSet} :
    column ∈ (ofParts mentioned).columns ↔ ∃ columns ∈ mentioned, column ∈ columns := by
  rw [ColumnMap.mem_columns_iff, get?_ofParts]
  by_cases none : owners column mentioned.zipIdx = []
  · have nowhere := owners_eq_nil_iff.1 none
    simpa [none] using nowhere
  · have somewhere := mt owners_eq_nil_iff.2 none
    push Not at somewhere
    simpa [none] using somewhere

end PlaceIndex

namespace Indexed

variable {column : ColumnId}

/-! ### Lists of parts -/

theorem ofParts_eq_map (parts : List Constraint) : ofParts parts = parts.map ofConstraint := by
  induction parts with
  | nil => rfl
  | cons part rest ih => rw [ofParts, ih, List.map_cons]

/-! ### What is read from the indexes -/

theorem mem_columns_indexOf {parts : List Indexed} :
    column ∈ (indexOf parts).columns ↔ ∃ part ∈ parts, column ∈ part.columns := by
  rw [indexOf, PlaceIndex.mem_columns_ofParts]
  simp

mutual

theorem mem_columns_ofConstraint : (constraint : Constraint) →
    (column ∈ (ofConstraint constraint).columns ↔ column ∈ constraint.columns)
  | .interval value => Iff.rfl
  | .all parts => by
    rw [Constraint.columns, ofConstraint, ofAll, columns, mem_columns_indexOf]
    exact exists_mem_columns_ofParts parts
  | .any parts => by
    rw [Constraint.columns, ofConstraint, ofAny, columns, mem_columns_indexOf]
    exact exists_mem_columns_ofParts parts

theorem exists_mem_columns_ofParts : (parts : List Constraint) →
    ((∃ part ∈ ofParts parts, column ∈ part.columns) ↔ column ∈ Constraint.columnsOfParts parts)
  | [] => by simp [ofParts]
  | part :: rest => by
    rw [Constraint.columnsOfParts, SortedSet.mem_union, ← mem_columns_ofConstraint part,
      ← exists_mem_columns_ofParts rest]
    simp [ofParts]

end

/-- **The columns that the index has** are those that the constraint mentions. -/
theorem columns_ofConstraint (constraint : Constraint) :
    (ofConstraint constraint).columns = constraint.columns :=
  SortedSet.ext fun _ => mem_columns_ofConstraint constraint

theorem map_columns_ofParts (parts : List Constraint) :
    (ofParts parts).map columns = parts.map Constraint.columns := by
  rw [ofParts_eq_map, List.map_map]
  exact List.map_congr_left fun part _ => columns_ofConstraint part

/-- What the owners of a column say about it is what all parts say about it. -/
theorem filterMap_owners {views : List (Option Interval)} {mentioned : List ColumnSet}
    (silent : List.Forall₂ (fun columns view => column ∉ columns → view = none) mentioned views)
    (before : List (Option Interval)) :
    ((PlaceIndex.owners column (mentioned.zipIdx before.length)).map
      fun place => (before ++ views)[place]?.join).filterMap id = views.filterMap id := by
  induction silent generalizing before with
  | nil => rfl
  | @cons columns view rest views none _ ih =>
    have later := ih (before ++ [view])
    rw [List.length_append, List.length_singleton, List.append_assoc, List.singleton_append] at later
    have here : (before ++ view :: views)[before.length]?.join = view := by simp
    rw [List.zipIdx_cons]
    by_cases mentions : column ∈ columns
    · have first : PlaceIndex.owners column ((columns, before.length) :: rest.zipIdx (before.length + 1)) =
          before.length :: PlaceIndex.owners column (rest.zipIdx (before.length + 1)) := by
        simp [PlaceIndex.owners, mentions]
      rw [first, List.map_cons, here, List.filterMap_cons, List.filterMap_cons, later]
    · have first : PlaceIndex.owners column ((columns, before.length) :: rest.zipIdx (before.length + 1)) =
          PlaceIndex.owners column (rest.zipIdx (before.length + 1)) := by
        simp [PlaceIndex.owners, mentions]
      rw [first, later, none mentions]
      rfl

section Parts

variable (parts : List Constraint)

/-- A part that does not mention a column says nothing about it. -/
theorem silent_parts : List.Forall₂ (fun columns view => column ∉ columns → view = none)
    (parts.map Constraint.columns) (Constraint.viewsOnColumn column parts) := by
  induction parts with
  | nil => exact .nil
  | cons part rest ih => exact .cons (Constraint.onColumn?_eq_none_iff part).2 ih

/-- Nothing is said about a column that has no owners. -/
theorem owners_parts_eq_nil_iff :
    PlaceIndex.owners column (parts.map Constraint.columns).zipIdx = [] ↔
      (Constraint.viewsOnColumn column parts).filterMap id = [] := by
  rw [PlaceIndex.owners_eq_nil_iff, Constraint.viewsOnColumn_eq_nil_iff, Constraint.mem_columnsOfParts,
    List.forall_mem_map]
  push Not
  rfl

theorem meetAll_owners : ((indexOf (ofParts parts)).get? column).bind (fun owners =>
      Constraint.meetAll (owners.map fun place => (Constraint.viewsOnColumn column parts)[place]?.join)) =
    Constraint.meetAll (Constraint.viewsOnColumn column parts) := by
  have silent : List.Forall₂ (fun columns view => column ∉ columns → view = none) _ _ :=
    silent_parts parts
  have said := filterMap_owners silent []
  simp only [List.length_nil, List.nil_append] at said
  rw [indexOf, map_columns_ofParts, PlaceIndex.get?_ofParts]
  by_cases nowhere : PlaceIndex.owners column (parts.map Constraint.columns).zipIdx = []
  · rw [if_pos nowhere, Option.bind_none, eq_comm, Constraint.meetAll_eq_none_iff]
    exact (owners_parts_eq_nil_iff parts).1 nowhere
  · rw [if_neg nowhere, Option.bind_some, Constraint.meetAll, said]
    rfl

theorem joinAll_owners : ((indexOf (ofParts parts)).get? column).bind (fun owners =>
      if owners.length < (ofParts parts).length then some (.unbounded column)
      else Constraint.joinAll column (Constraint.viewsOnColumn column parts)) =
    Constraint.joinAll column (Constraint.viewsOnColumn column parts) := by
  have count : (ofParts parts).length = (parts.map Constraint.columns).length := by
    rw [ofParts_eq_map, List.length_map, List.length_map]
  rw [indexOf, map_columns_ofParts, PlaceIndex.get?_ofParts, count]
  by_cases nowhere : PlaceIndex.owners column (parts.map Constraint.columns).zipIdx = []
  · rw [if_pos nowhere, Option.bind_none, eq_comm, Constraint.joinAll_eq_none_iff]
    exact (owners_parts_eq_nil_iff parts).1 nowhere
  rw [if_neg nowhere, Option.bind_some]
  split
  · rename_i fewer
    obtain ⟨_, member, unmentioned⟩ := PlaceIndex.length_owners_lt_iff.1 fewer
    obtain ⟨part, inside, rfl⟩ := List.mem_map.1 member
    have free : (Constraint.viewsOnColumn column parts).any (·.isNone) = true :=
      List.any_eq_true.2 ⟨_, Constraint.viewsOnColumn_eq_map ▸ List.mem_map_of_mem inside,
        Option.isNone_iff_eq_none.2 ((Constraint.onColumn?_eq_none_iff part).2 unmentioned)⟩
    have someone := mt (owners_parts_eq_nil_iff parts).2 nowhere
    unfold Constraint.joinAll
    split
    · rename_i none
      exact absurd none someone
    · rw [free, Bool.true_or, if_pos rfl]
  · rfl

end Parts

mutual

/-- **What the indexes give for a column** is what the constraint says about it. -/
theorem onColumn?_ofConstraint : (constraint : Constraint) →
    (ofConstraint constraint).onColumn? column = constraint.onColumn? column
  | .interval value => by rw [ofConstraint, onColumn?, Constraint.onColumn?]
  | .all parts => by
    rw [ofConstraint, ofAll, onColumn?, Constraint.onColumn?, viewsOnColumn_ofParts parts]
    exact meetAll_owners parts
  | .any parts => by
    rw [ofConstraint, ofAny, onColumn?, Constraint.onColumn?, viewsOnColumn_ofParts parts]
    exact joinAll_owners parts

theorem viewsOnColumn_ofParts : (parts : List Constraint) →
    viewsOnColumn column (ofParts parts) = Constraint.viewsOnColumn column parts
  | [] => rfl
  | part :: rest => by
    rw [ofParts, viewsOnColumn, Constraint.viewsOnColumn, onColumn?_ofConstraint part,
      viewsOnColumn_ofParts rest]

end

end Indexed

namespace Constraint

variable {column : ColumnId} {set : ColumnSet} {constraint found : Constraint}

/-! ### Both views -/

/-- **What a constraint says about columns is never more than it does.** Its indexes give what it says
about one column. That is something exactly where it mentions the column, and it is one interval on the
column; what it says about some columns mentions only those of its own columns. Over values in an order,
every row that satisfies the constraint, with null for some columns, satisfies both. -/
theorem views_widen (constraint : Constraint) (column : ColumnId) (set : ColumnSet) :
    ((Indexed.ofConstraint constraint).columns = constraint.columns ∧
      (Indexed.ofConstraint constraint).onColumn? column = onColumn? column constraint) ∧
    (onColumn? column constraint = none ↔ column ∉ constraint.columns) ∧
    assemble? column constraint = (onColumn? column constraint).map interval ∧
    (∀ view, onColumn? column constraint = some view → view.column = column) ∧
    (∀ found, onColumns? set constraint = some found →
      ∀ other ∈ found.columns, other ∈ set ∧ other ∈ constraint.columns) ∧
    ∀ (values : Value → Prop) (row : ColumnId → Value), Value.Ordered values →
      (constraint.Fits (fun value => value.isNull = true ∨ values value) fun _ => True) →
      (∀ other ∈ constraint.columns, (row other).isNull = true ∨ values (row other)) →
      constraint.Holds row →
        (∀ view, onColumn? column constraint = some view → (interval view).Holds row) ∧
        (∀ found, onColumns? set constraint = some found → found.Holds row) := by
  refine ⟨⟨Indexed.columns_ofConstraint constraint, Indexed.onColumn?_ofConstraint constraint⟩,
    onColumn?_eq_none_iff constraint, assemble?_eq constraint, fun _ => column_of_onColumn?,
    fun found given other mentioned => ?_, fun values row ordered bounds there holds => ?_⟩
  · have all := Fits.mentioned constraint (fits_all_values constraint)
    have fits := fits_onColumns? constraint all given
    exact (Fits.of_mem_columns found fits mentioned).symm
  · have fits := Fits.mentioned constraint bounds
    refine ⟨fun view given => ?_, fun found =>
      holds_onColumns? ordered.orNull there constraint fits holds⟩
    rw [holds_interval, column_of_onColumn? given]
    exact allows_onColumn? ordered.orNull there constraint fits holds given

/-- Prices below ten for which either the price is above five or the stock is three, or a price of
twenty. -/
def pricedOrStocked : Constraint :=
  let price (lower upper : Bound) : Constraint := interval ⟨1, [⟨lower, upper⟩], false⟩
  any [
    all [price .unbounded (.excluded (.int 10)),
      any [price (.excluded (.int 5)) .unbounded, interval ⟨2, [.point (.int 3)], false⟩]],
    price (.included (.int 20)) (.included (.int 20))]

/-- The inner disjunction leaves the price free, the outer one does not. -/
theorem views_widen_pricedOrStocked :
    ∃ (view : Interval) (found : Constraint) (row : ColumnId → Value), row 1 = .int 7 ∧ row 2 = .null ∧
      (Indexed.ofConstraint pricedOrStocked).onColumn? 1 = some view ∧ view.ranges.length = 2 ∧
      onColumns? (.ofList [1]) pricedOrStocked = some found ∧ pricedOrStocked.Holds row ∧
      (interval view).Holds row ∧ found.Holds row := by
  let row (column : ColumnId) : Value := if column = 1 then .int 7 else .null
  have bounds : pricedOrStocked.Fits (fun value => value.isNull = true ∨ value.isExact = true)
      fun _ => True := by
    simp [pricedOrStocked, fits_any, fits_all, fits_interval, Interval.Fits, Range.In, Bound.In,
      Range.point, Value.isExact]
  have there : ∀ column ∈ pricedOrStocked.columns,
      (row column).isNull = true ∨ (row column).isExact = true := by
    intro column _
    by_cases first : column = 1
    · simp [row, first, Value.isExact]
    · simp [row, first, Value.isNull]
  have holds : pricedOrStocked.Holds row := by
    have below : Value.order (.int 7) (.int 10) = .lt := by decide
    have above : Value.order (.int 5) (.int 7) = .lt := by decide
    simp [pricedOrStocked, holds_any, holds_all, holds_interval, Interval.Allows, Range.Holds,
      Bound.Lower, Bound.Upper, row, Value.isNull, below, above]
  obtain ⟨⟨_, indexed⟩, _, _, _, _, satisfied⟩ := views_widen pricedOrStocked 1 (.ofList [1])
  obtain ⟨one, some⟩ := satisfied _ row Value.ordered_exact bounds there holds
  exact ⟨_, _, row, rfl, rfl, indexed, rfl, rfl, holds, one _ rfl, some _ rfl⟩

end Constraint

end Cascades
