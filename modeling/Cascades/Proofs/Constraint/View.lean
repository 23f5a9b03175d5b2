/-
**What a constraint says about one column.**

A constraint says something about one column where it mentions the column, and that is one interval on
the column, however its parts are nested: a part of a disjunction that leaves a column free frees it for
the whole disjunction.

* `Fits.mentioned`, `Fits.of_mem_columns`: a constraint is one on the columns that it mentions;
* `onColumn?_eq_none_iff`: the columns about which nothing is said;
* `assemble?`: what is said about one column, built as constraints are built from parts;
  `assemble?_eq`: it is one interval.
-/

import Cascades.Proofs.Constraint.Satisfaction

set_option linter.unusedSectionVars false

namespace Cascades

namespace Constraint

variable {parts : List Constraint} {column : ColumnId} {set : ColumnSet} {constraint found : Constraint}
  {values : Value → Prop} {columns : ColumnId → Prop} {row : ColumnId → Value}

/-! ### The columns of a constraint -/

@[simp] theorem mem_columns_interval {value : Interval} :
    column ∈ (interval value).columns ↔ column = value.column := by
  simp [Constraint.columns]

@[simp] theorem mem_columnsOfParts :
    column ∈ columnsOfParts parts ↔ ∃ part ∈ parts, column ∈ part.columns := by
  induction parts with
  | nil => simp [columnsOfParts]
  | cons part rest ih => simp [columnsOfParts, ih]

@[simp] theorem mem_columns_all :
    column ∈ (all parts).columns ↔ ∃ part ∈ parts, column ∈ part.columns := by
  rw [Constraint.columns, mem_columnsOfParts]

@[simp] theorem mem_columns_any :
    column ∈ (any parts).columns ↔ ∃ part ∈ parts, column ∈ part.columns := by
  rw [Constraint.columns, mem_columnsOfParts]

mutual

/-- A constraint on some columns mentions no other. -/
theorem Fits.of_mem_columns : (constraint : Constraint) → constraint.Fits values columns →
    column ∈ constraint.columns → columns column
  | interval value, fits, mentioned => by
    rw [mem_columns_interval.1 mentioned]
    exact (fits_interval.1 fits).1
  | all parts, fits, mentioned => by
    rw [Fits] at fits
    exact AllFit.of_mem_columns parts fits mentioned
  | any parts, fits, mentioned => by
    rw [Fits] at fits
    exact AllFit.of_mem_columns parts fits mentioned

theorem AllFit.of_mem_columns : (parts : List Constraint) → AllFit values columns parts →
    column ∈ columnsOfParts parts → columns column
  | [], _, mentioned => by simp at mentioned
  | part :: rest, fits, mentioned => by
    rw [columnsOfParts, SortedSet.mem_union] at mentioned
    exact mentioned.elim (Fits.of_mem_columns part fits.1) (AllFit.of_mem_columns rest fits.2)

end

mutual

/-- A constraint is one on the columns that it mentions. -/
theorem Fits.mentioned : (constraint : Constraint) → constraint.Fits values columns →
    constraint.Fits values (· ∈ constraint.columns)
  | interval value, fits => by
    rw [fits_interval] at fits ⊢
    exact ⟨mem_columns_interval.2 rfl, fits.2⟩
  | all parts, fits => by
    rw [Fits] at fits ⊢
    exact AllFit.mentioned parts fits
  | any parts, fits => by
    rw [Fits] at fits ⊢
    exact AllFit.mentioned parts fits

theorem AllFit.mentioned : (parts : List Constraint) → AllFit values columns parts →
    AllFit values (· ∈ columnsOfParts parts) parts
  | [], _ => trivial
  | part :: rest, fits => by
    refine ⟨Fits.mono (fun column here => ?_) part (Fits.mentioned part fits.1),
      AllFit.mono (fun column later => ?_) rest (AllFit.mentioned rest fits.2)⟩
    · rw [columnsOfParts, SortedSet.mem_union]
      exact .inl here
    · rw [columnsOfParts, SortedSet.mem_union]
      exact .inr later

end

mutual

/-- Every constraint has bounds among all values. -/
theorem fits_all_values : (constraint : Constraint) →
    constraint.Fits (fun _ => True) (fun _ => True)
  | interval value => by
    have bound : ∀ end_ : Bound, end_.In fun _ => True := fun end_ => by cases end_ <;> trivial
    exact fits_interval.2 ⟨trivial, fun range _ => ⟨bound range.lower, bound range.upper⟩⟩
  | all parts => by
    rw [Fits]
    exact allFit_all_values parts
  | any parts => by
    rw [Fits]
    exact allFit_all_values parts

theorem allFit_all_values : (parts : List Constraint) →
    AllFit (fun _ => True) (fun _ => True) parts
  | [] => trivial
  | part :: rest => ⟨fits_all_values part, allFit_all_values rest⟩

end

/-! ### One column -/

theorem meetAll_eq_none_iff {views : List (Option Interval)} :
    meetAll views = none ↔ views.filterMap id = [] := by
  unfold meetAll
  split <;> rename_i shape <;> rw [shape] <;> simp

theorem joinAll_eq_none_iff {views : List (Option Interval)} :
    joinAll column views = none ↔ views.filterMap id = [] := by
  unfold joinAll
  split
  · rename_i shape
    rw [shape]
    simp
  · rename_i shape
    rw [shape]
    split <;> simp

mutual

/-- **Nothing is said of a column exactly where it is not mentioned.** -/
theorem onColumn?_eq_none_iff : (constraint : Constraint) →
    (onColumn? column constraint = none ↔ column ∉ constraint.columns)
  | interval value => by
    rw [onColumn?, mem_columns_interval, eq_comm (a := column)]
    split <;> simp [*]
  | all parts => by
    rw [onColumn?, meetAll_eq_none_iff, Constraint.columns, viewsOnColumn_eq_nil_iff parts]
  | any parts => by
    rw [onColumn?, joinAll_eq_none_iff, Constraint.columns, viewsOnColumn_eq_nil_iff parts]

theorem viewsOnColumn_eq_nil_iff : (parts : List Constraint) →
    ((viewsOnColumn column parts).filterMap id = [] ↔ column ∉ columnsOfParts parts)
  | [] => by simp [viewsOnColumn]
  | part :: rest => by
    rw [viewsOnColumn, columnsOfParts, SortedSet.mem_union, not_or, ← onColumn?_eq_none_iff part,
      ← viewsOnColumn_eq_nil_iff rest]
    cases onColumn? column part <;> simp

end

/-- What is said about one column is about that column. -/
theorem column_of_onColumn? {view : Interval} (given : onColumn? column constraint = some view) :
    view.column = column :=
  (fits_onColumn? constraint (fits_all_values constraint) given).1

theorem column_of_mem_views {view : Interval} (member : some view ∈ viewsOnColumn column parts) :
    view.column = column :=
  (fits_viewsOnColumn parts (allFit_all_values parts) view member).1

/-! ### One column, as any constraint is built -/

mutual

/-- What a constraint says about one column, built from what its parts say as constraints are built. -/
def assemble? (column : ColumnId) : Constraint → Option Constraint
  | interval value => if value.column = column then some (interval value) else none
  | all parts => all? ((assembleParts column parts).filterMap id)
  | any parts =>
    let views := assembleParts column parts
    match views.filterMap id with
    | [] => none
    | said =>
      if views.any (·.isNone) || said.any isUnbounded then some (interval (.unbounded column))
      else any? said

/-- What each part says about one column, so built. -/
def assembleParts (column : ColumnId) : List Constraint → List (Option Constraint)
  | [] => []
  | part :: rest => assemble? column part :: assembleParts column rest

end

theorem foldl_meetInto_eq {rest : List Interval} : ∀ {first : Interval},
    (∀ next ∈ rest, next.column = first.column) →
      rest.foldl (fun merged next => meetInto next merged) [first] =
        [rest.foldl Interval.meet first] := by
  induction rest with
  | nil => exact fun _ => rfl
  | cons next rest ih =>
    intro first same
    have here := same next List.mem_cons_self
    rw [List.foldl_cons, List.foldl_cons, meetInto, if_neg (here ▸ Nat.lt_irrefl _), if_pos here]
    exact ih fun other member => same other (List.mem_cons_of_mem next member)

theorem flatMap_conjuncts_intervals {intervals : List Interval} :
    (intervals.map interval).flatMap conjuncts = intervals.map interval := by
  induction intervals with
  | nil => rfl
  | cons _ _ ih => simp [conjuncts, ih]

theorem flatMap_disjuncts_intervals {intervals : List Interval} :
    (intervals.map interval).flatMap disjuncts = intervals.map interval := by
  induction intervals with
  | nil => rfl
  | cons _ _ ih => simp [disjuncts, ih]

/-- Intervals on one column of which all hold are one interval. -/
theorem all?_intervals {first : Interval} {rest : List Interval}
    (same : ∀ next ∈ rest, next.column = first.column) :
    all? ((first :: rest).map interval) = some (interval (rest.foldl Interval.meet first)) := by
  have several : ((first :: rest).map interval).mapM interval? = some (first :: rest) :=
    mapM_interval?_eq_some_iff.2 rfl
  unfold all?
  rw [flatMap_conjuncts_intervals]
  cases rest with
  | nil => rfl
  | cons second rest =>
    simp only [List.map_cons] at several ⊢
    simp only [several, List.foldl_cons (l := second :: rest), meetInto, foldl_meetInto_eq same]

/-- Intervals on one column of which one holds are one interval. -/
theorem any?_intervals {first : Interval} {rest : List Interval}
    (same : ∀ next ∈ rest, next.column = first.column) :
    any? ((first :: rest).map interval) = some (interval (rest.foldl Interval.join first)) := by
  have several : ((first :: rest).map interval).mapM interval? = some (first :: rest) :=
    mapM_interval?_eq_some_iff.2 rfl
  unfold any?
  rw [flatMap_disjuncts_intervals]
  cases rest with
  | nil => rfl
  | cons second rest =>
    simp only [List.map_cons] at several ⊢
    simp only [several]
    rw [if_pos (List.all_eq_true.2 fun next member => decide_eq_true (same next member))]

theorem filterMap_map_interval {views : List (Option Interval)} :
    (views.map (Option.map interval)).filterMap id = (views.filterMap id).map interval := by
  induction views with
  | nil => rfl
  | cons view rest ih => cases view <;> simpa using ih

mutual

/-- **What is said about one column is one interval**, however its parts are nested. -/
theorem assemble?_eq : (constraint : Constraint) →
    assemble? column constraint = (onColumn? column constraint).map interval
  | interval value => by
    rw [assemble?, onColumn?]
    split <;> rfl
  | all parts => by
    rw [assemble?, onColumn?, assembleParts_eq parts, filterMap_map_interval, meetAll]
    split
    · rename_i shape
      rw [shape]
      rfl
    · rename_i first rest shape
      have named : ∀ view ∈ first :: rest, view.column = column := fun _ member =>
        column_of_mem_views ((mem_present shape).1 member)
      rw [shape]
      exact all?_intervals fun next member => (named next (List.mem_cons_of_mem first member)).trans
        (named first List.mem_cons_self).symm
  | any parts => by
    rw [assemble?, onColumn?, assembleParts_eq parts, filterMap_map_interval, joinAll]
    cases shape : (viewsOnColumn column parts).filterMap id with
    | nil => rfl
    | cons first rest =>
      have named : ∀ view ∈ first :: rest, view.column = column := fun _ member =>
        column_of_mem_views ((mem_present shape).1 member)
      have silent : ((viewsOnColumn column parts).map (Option.map interval)).any (·.isNone) =
          (viewsOnColumn column parts).any (·.isNone) := by
        rw [List.any_map]
        exact congrArg _ (funext fun view => by cases view <;> rfl)
      have free : ((first :: rest).map interval).any isUnbounded =
          (first :: rest).any Interval.isUnbounded := by
        rw [List.any_map]
        rfl
      simp only [List.map_cons] at free ⊢
      rw [silent, free]
      split
      · rfl
      · exact any?_intervals fun next member =>
          (named next (List.mem_cons_of_mem first member)).trans (named first List.mem_cons_self).symm

theorem assembleParts_eq : (parts : List Constraint) →
    assembleParts column parts = (viewsOnColumn column parts).map (Option.map interval)
  | [] => rfl
  | part :: rest => by
    rw [assembleParts, viewsOnColumn, List.map_cons, assemble?_eq part, assembleParts_eq rest]

end

end Constraint

end Cascades
