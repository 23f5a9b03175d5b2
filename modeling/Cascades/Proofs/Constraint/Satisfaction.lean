/-
**Rows satisfy constraints.**

An interval allows values, and a constraint holds for rows. A constraint that is built from parts holds
for the rows for which all of them hold, or one of them; what is said about some columns holds for all
rows for which the constraint does, and no contradiction holds for any row. The values are those on
which the order is a total preorder.

* `Constraint.Holds`: the rows that are left possible;
* `Constraint.Fits`: a constraint on some columns, with bounds among some values;
* `all?_cases`, `any?_cases`: what can be built from parts;
* `holds_all?`, `holds_any?`: for which rows it holds;
* `holds_onColumns?`: what is said about some columns;
* `isContradiction_eq_false`: a constraint that holds is no contradiction.
-/

import Cascades.Constraint.Basic
import Cascades.Proofs.Constraint.Interval

set_option linter.unusedSectionVars false

namespace Cascades

namespace Constraint

/-! ### Lists of parts -/

variable {parts : List Constraint} {column : ColumnId} {set : ColumnSet}

theorem mapM_interval?_eq_some_iff {intervals : List Interval} :
    parts.mapM interval? = some intervals ↔ parts = intervals.map interval := by
  induction parts generalizing intervals with
  | nil => cases intervals <;> simp
  | cons part rest ih =>
    cases part <;> cases intervals <;>
      simp [List.mapM_cons, interval?, ih, Option.bind_eq_some_iff, and_left_comm]

theorem mapM_id_eq_some_iff {views : List (Option Constraint)} :
    views.mapM id = some parts ↔ views = parts.map some := by
  induction views generalizing parts with
  | nil => cases parts <;> simp
  | cons view rest ih =>
    cases view <;> cases parts <;>
      simp [List.mapM_cons, ih, Option.bind_eq_some_iff, and_left_comm]

/-! ### Rows -/

mutual

/-- **Whether a constraint holds for the values of the columns of a row.** -/
def Holds (row : ColumnId → Value) : Constraint → Prop
  | interval value => value.Allows (row value.column)
  | all parts => AllHold row parts
  | any parts => AnyHolds row parts

/-- Whether every part holds. -/
def AllHold (row : ColumnId → Value) : List Constraint → Prop
  | [] => True
  | part :: rest => part.Holds row ∧ AllHold row rest

/-- Whether some part holds. -/
def AnyHolds (row : ColumnId → Value) : List Constraint → Prop
  | [] => False
  | part :: rest => part.Holds row ∨ AnyHolds row rest

end

mutual

/-- The intervals in a constraint, however deep. -/
def intervals : Constraint → List Interval
  | interval value => [value]
  | all parts => intervalsOfParts parts
  | any parts => intervalsOfParts parts

/-- The intervals in some constraints. -/
def intervalsOfParts : List Constraint → List Interval
  | [] => []
  | part :: rest => intervals part ++ intervalsOfParts rest

end

mutual

/-- A constraint on some columns, with bounds among some values. -/
def Fits (values : Value → Prop) (columns : ColumnId → Prop) : Constraint → Prop
  | interval value => value.Fits values columns
  | all parts => AllFit values columns parts
  | any parts => AllFit values columns parts

/-- Some constraints on some columns. -/
def AllFit (values : Value → Prop) (columns : ColumnId → Prop) : List Constraint → Prop
  | [] => True
  | part :: rest => part.Fits values columns ∧ AllFit values columns rest

end

variable {row other : ColumnId → Value} {values : Value → Prop} {columns : ColumnId → Prop}
  {constraint found : Constraint}

theorem allHold_iff : AllHold row parts ↔ ∀ part ∈ parts, part.Holds row := by
  induction parts with
  | nil => simp [AllHold]
  | cons part rest ih => simp [AllHold, ih]

theorem anyHolds_iff : AnyHolds row parts ↔ ∃ part ∈ parts, part.Holds row := by
  induction parts with
  | nil => simp [AnyHolds]
  | cons part rest ih => simp [AnyHolds, ih]

theorem allFit_iff : AllFit values columns parts ↔ ∀ part ∈ parts, part.Fits values columns := by
  induction parts with
  | nil => simp [AllFit]
  | cons part rest ih => simp [AllFit, ih]

theorem holds_interval {value : Interval} :
    (interval value).Holds row ↔ value.Allows (row value.column) := by rw [Holds]

theorem holds_all : (all parts).Holds row ↔ ∀ part ∈ parts, part.Holds row := by
  rw [Holds, allHold_iff]

theorem holds_any : (any parts).Holds row ↔ ∃ part ∈ parts, part.Holds row := by
  rw [Holds, anyHolds_iff]

theorem fits_interval {value : Interval} :
    (interval value).Fits values columns ↔ value.Fits values columns := by rw [Fits]

theorem fits_all : (all parts).Fits values columns ↔ ∀ part ∈ parts, part.Fits values columns := by
  rw [Fits, allFit_iff]

theorem fits_any : (any parts).Fits values columns ↔ ∀ part ∈ parts, part.Fits values columns := by
  rw [Fits, allFit_iff]

mutual

/-- A constraint fits where its intervals do. -/
theorem fits_iff : (constraint : Constraint) →
    (constraint.Fits values columns ↔
      ∀ interval ∈ constraint.intervals, interval.Fits values columns)
  | interval value => by simp [fits_interval, intervals]
  | all parts => by rw [Fits, intervals, allFit_iff_intervals parts]
  | any parts => by rw [Fits, intervals, allFit_iff_intervals parts]

theorem allFit_iff_intervals : (parts : List Constraint) →
    (AllFit values columns parts ↔
      ∀ interval ∈ intervalsOfParts parts, interval.Fits values columns)
  | [] => by simp [AllFit, intervalsOfParts]
  | part :: rest => by
    rw [AllFit, intervalsOfParts, List.forall_mem_append, fits_iff part, allFit_iff_intervals rest]

end

mutual

theorem Fits.mono {more : ColumnId → Prop} (wider : ∀ column, columns column → more column) :
    (constraint : Constraint) → constraint.Fits values columns → constraint.Fits values more
  | interval _, fits => by
    rw [fits_interval] at fits ⊢
    exact ⟨wider _ fits.1, fits.2⟩
  | all parts, fits => by
    rw [Fits] at fits ⊢
    exact AllFit.mono wider parts fits
  | any parts, fits => by
    rw [Fits] at fits ⊢
    exact AllFit.mono wider parts fits

theorem AllFit.mono {more : ColumnId → Prop} (wider : ∀ column, columns column → more column) :
    (parts : List Constraint) → AllFit values columns parts → AllFit values more parts
  | [], _ => trivial
  | part :: rest, fits => ⟨Fits.mono wider part fits.1, AllFit.mono wider rest fits.2⟩

end

mutual

/-- A constraint on some columns depends on these columns only. -/
theorem Holds.congr (same : ∀ column, columns column → row column = other column) :
    (constraint : Constraint) → constraint.Fits values columns →
      (constraint.Holds row ↔ constraint.Holds other)
  | interval value, fits => by
    rw [holds_interval, holds_interval, same _ (fits_interval.1 fits).1]
  | all parts, fits => by
    rw [Fits] at fits
    rw [Holds, Holds]
    exact (AllFit.congr same parts fits).1
  | any parts, fits => by
    rw [Fits] at fits
    rw [Holds, Holds]
    exact (AllFit.congr same parts fits).2

theorem AllFit.congr (same : ∀ column, columns column → row column = other column) :
    (parts : List Constraint) → AllFit values columns parts →
      (AllHold row parts ↔ AllHold other parts) ∧ (AnyHolds row parts ↔ AnyHolds other parts)
  | [], _ => ⟨Iff.rfl, Iff.rfl⟩
  | part :: rest, fits => by
    have first := Holds.congr same part fits.1
    have others := AllFit.congr same rest fits.2
    exact ⟨and_congr first others.1, or_congr first others.2⟩

end

/-! ### Building -/

theorem holds_conjuncts : (∀ part ∈ constraint.conjuncts, part.Holds row) ↔
    constraint.Holds row := by
  cases constraint with
  | all parts => rw [conjuncts, holds_all]
  | _ => simp [conjuncts]

theorem holds_disjuncts : (∃ part ∈ constraint.disjuncts, part.Holds row) ↔
    constraint.Holds row := by
  cases constraint with
  | any parts => rw [disjuncts, holds_any]
  | _ => simp [disjuncts]

theorem forall_mem_conjuncts :
    (∀ part ∈ parts.flatMap conjuncts, part.Holds row) ↔ ∀ part ∈ parts, part.Holds row := by
  simp only [List.forall_mem_flatMap, holds_conjuncts]

theorem exists_mem_disjuncts :
    (∃ part ∈ parts.flatMap disjuncts, part.Holds row) ↔ ∃ part ∈ parts, part.Holds row := by
  constructor
  · rintro ⟨part, member, holds⟩
    obtain ⟨owner, inside, listed⟩ := List.mem_flatMap.1 member
    exact ⟨owner, inside, holds_disjuncts.1 ⟨part, listed, holds⟩⟩
  · rintro ⟨owner, inside, holds⟩
    obtain ⟨part, listed, holds⟩ := holds_disjuncts.2 holds
    exact ⟨part, List.mem_flatMap.2 ⟨owner, inside, listed⟩, holds⟩

theorem fits_conjuncts (fits : constraint.Fits values columns) :
    ∀ part ∈ constraint.conjuncts, part.Fits values columns := by
  cases constraint with
  | all parts => exact fits_all.1 fits
  | _ => simpa [conjuncts] using fits

theorem fits_flatMap_conjuncts (each : ∀ part ∈ parts, part.Fits values columns) :
    ∀ part ∈ parts.flatMap conjuncts, part.Fits values columns :=
  List.forall_mem_flatMap.2 fun owner inside => fits_conjuncts (each owner inside)

theorem fits_disjuncts (fits : constraint.Fits values columns) :
    ∀ part ∈ constraint.disjuncts, part.Fits values columns := by
  cases constraint with
  | any parts => exact fits_any.1 fits
  | _ => simpa [disjuncts] using fits

theorem fits_flatMap_disjuncts (each : ∀ part ∈ parts, part.Fits values columns) :
    ∀ part ∈ parts.flatMap disjuncts, part.Fits values columns :=
  List.forall_mem_flatMap.2 fun owner inside => fits_disjuncts (each owner inside)

/-- Intervals that are parts of a constraint fit as it does. -/
theorem fits_of_map_interval {intervals : List Interval} (shape : parts = intervals.map interval)
    (each : ∀ part ∈ parts, part.Fits values columns) :
    ∀ interval ∈ intervals, interval.Fits values columns := fun _ member =>
  fits_interval.1 (each _ (shape ▸ List.mem_map_of_mem member))

/-- Intervals met column by column. -/
def metByColumn (intervals : List Interval) : List Interval :=
  intervals.foldl (fun merged next => meetInto next merged) []

/-- What a conjunction of parts can be: the only part, a list of parts not all of which are intervals, or
intervals that were met column by column. -/
theorem all?_cases (given : all? parts = some found) :
    parts.flatMap conjuncts = [found] ∨
      (2 ≤ (parts.flatMap conjuncts).length ∧ (parts.flatMap conjuncts).mapM interval? = none ∧
        found = all (parts.flatMap conjuncts)) ∨
      ∃ intervals : List Interval, parts.flatMap conjuncts = intervals.map interval ∧
        ((∃ single, metByColumn intervals = [single] ∧ found = interval single) ∨
          ((metByColumn intervals).length ≠ 1 ∧ found = all ((metByColumn intervals).map interval))) := by
  unfold all? at given
  split at given
  · cases given
  · rename_i single shape
    cases given
    exact .inl shape
  · rename_i notNone notSingle
    split at given
    · rename_i mixed
      cases given
      refine .inr (.inl ⟨?_, mixed, rfl⟩)
      match flat : parts.flatMap conjuncts with
      | [] => exact absurd flat notNone
      | [single] => exact absurd flat (notSingle single)
      | _ :: _ :: _ => simp
    · rename_i intervals several
      refine .inr (.inr ⟨intervals, mapM_interval?_eq_some_iff.1 several, ?_⟩)
      split at given
      · rename_i single shape
        cases given
        exact .inl ⟨single, shape, rfl⟩
      · rename_i notOne
        cases given
        exact .inr ⟨fun one => (List.length_eq_one_iff.1 one).elim notOne, rfl⟩

theorem all?_eq_none_iff : all? parts = none ↔ parts.flatMap conjuncts = [] := by
  unfold all?
  split
  · rename_i shape
    rw [shape]
    simp
  · rename_i shape
    rw [shape]
    simp
  · rename_i notNone _
    refine iff_of_false ?_ notNone
    split
    · nofun
    · split <;> nofun

section Meeting

variable (keeps sat : Interval → Prop) (meets : ∀ {first second : Interval},
  second.column = first.column → keeps first → keeps second → keeps (first.meet second))
include meets

/-- Merging intervals keeps what the meet of two on one column keeps. -/
theorem mem_meetInto {next : Interval} (new : keeps next) {merged : List Interval}
    (each : ∀ interval ∈ merged, keeps interval) :
    ∀ interval ∈ meetInto next merged, keeps interval := by
  induction merged with
  | nil => simpa [meetInto] using new
  | cons head tail ih =>
    have here := each head List.mem_cons_self
    have others := fun interval member => each interval (List.mem_cons_of_mem head member)
    unfold meetInto
    split
    · simpa using ⟨new, here, others⟩
    · split
      · rename_i same
        exact List.forall_mem_cons.2 ⟨meets same here new, others⟩
      · exact List.forall_mem_cons.2 ⟨here, ih others⟩

theorem mem_foldl_meetInto {intervals : List Interval} (news : ∀ next ∈ intervals, keeps next) :
    ∀ {merged : List Interval}, (∀ interval ∈ merged, keeps interval) → ∀ interval ∈
      intervals.foldl (fun merged next => meetInto next merged) merged, keeps interval := by
  induction intervals with
  | nil => exact fun each => each
  | cons next rest ih =>
    exact fun each => ih (fun other member => news other (List.mem_cons_of_mem next member))
      (mem_meetInto keeps meets (news next List.mem_cons_self) each)

theorem mem_metByColumn {intervals : List Interval} (news : ∀ next ∈ intervals, keeps next) :
    ∀ interval ∈ metByColumn intervals, keeps interval :=
  mem_foldl_meetInto keeps meets news (List.forall_mem_nil _)

variable (exact : ∀ {first second : Interval}, second.column = first.column → keeps first →
  keeps second → (sat (first.meet second) ↔ sat first ∧ sat second))
include exact

/-- What the meet of two intervals on one column satisfies where both do, merged intervals satisfy where
all of them do. -/
theorem forall_mem_meetInto {next : Interval} (new : keeps next) {merged : List Interval}
    (each : ∀ interval ∈ merged, keeps interval) :
    (∀ interval ∈ meetInto next merged, sat interval) ↔
      sat next ∧ ∀ interval ∈ merged, sat interval := by
  induction merged with
  | nil => simp [meetInto]
  | cons head tail ih =>
    have here := each head List.mem_cons_self
    have others := fun interval member => each interval (List.mem_cons_of_mem head member)
    unfold meetInto
    split
    · exact List.forall_mem_cons
    · split
      · rename_i same
        rw [List.forall_mem_cons, exact same here new, List.forall_mem_cons, and_assoc,
          and_left_comm]
      · rw [List.forall_mem_cons, ih others, List.forall_mem_cons, and_left_comm]

theorem forall_mem_foldl_meetInto {intervals : List Interval}
    (news : ∀ next ∈ intervals, keeps next) : ∀ {merged : List Interval},
      (∀ interval ∈ merged, keeps interval) →
        ((∀ interval ∈ intervals.foldl (fun merged next => meetInto next merged) merged,
          sat interval) ↔
            (∀ interval ∈ intervals, sat interval) ∧ ∀ interval ∈ merged, sat interval) := by
  induction intervals with
  | nil => simp
  | cons next rest ih =>
    intro merged each
    have new := news next List.mem_cons_self
    rw [List.foldl_cons, ih (fun other member => news other (List.mem_cons_of_mem next member))
      (mem_meetInto keeps meets new each), forall_mem_meetInto keeps sat meets exact new each,
      List.forall_mem_cons, and_left_comm, and_assoc]

theorem forall_mem_metByColumn {intervals : List Interval} (news : ∀ next ∈ intervals, keeps next) :
    (∀ interval ∈ metByColumn intervals, sat interval) ↔ ∀ interval ∈ intervals, sat interval := by
  unfold metByColumn
  rw [forall_mem_foldl_meetInto keeps sat meets exact news (List.forall_mem_nil _)]
  simp

end Meeting

theorem fits_all? (each : ∀ part ∈ parts, part.Fits values columns)
    (given : all? parts = some found) : found.Fits values columns := by
  have flat := fits_flatMap_conjuncts each
  rcases all?_cases given with shape | ⟨_, _, rfl⟩ | ⟨intervals, shape, built⟩
  · exact flat found (shape ▸ List.mem_singleton_self found)
  · exact fits_all.2 flat
  · have kept := mem_metByColumn _ (fun _ => Interval.fits_meet) (fits_of_map_interval shape flat)
    rcases built with ⟨single, only, rfl⟩ | ⟨_, rfl⟩
    · exact fits_interval.2 (kept single (only ▸ List.mem_singleton_self single))
    · exact fits_all.2 (List.forall_mem_map.2 fun interval member =>
        fits_interval.2 (kept interval member))

/-- What a disjunction of parts can be: the only part, a list of parts that are not all intervals on one
column, or the join of intervals on one column. -/
theorem any?_cases (given : any? parts = some found) :
    parts.flatMap disjuncts = [found] ∨
      (2 ≤ (parts.flatMap disjuncts).length ∧
        (∀ first rest, parts.flatMap disjuncts = (first :: rest).map interval →
          ∃ next ∈ rest, next.column ≠ first.column) ∧
        found = any (parts.flatMap disjuncts)) ∨
      ∃ first rest, parts.flatMap disjuncts = (first :: rest).map interval ∧
        (∀ next ∈ rest, next.column = first.column) ∧
        found = interval (rest.foldl Interval.join first) := by
  unfold any? at given
  split at given
  · cases given
  · rename_i single shape
    cases given
    exact .inl shape
  · rename_i notNone notSingle
    have several : 2 ≤ (parts.flatMap disjuncts).length := by
      match flat : parts.flatMap disjuncts with
      | [] => exact absurd flat notNone
      | [single] => exact absurd flat (notSingle single)
      | _ :: _ :: _ => simp
    split at given
    · rename_i first rest listed
      have shape := mapM_interval?_eq_some_iff.1 listed
      split at given
      · rename_i same
        cases given
        exact .inr (.inr ⟨first, rest, shape, by simpa using same, rfl⟩)
      · rename_i mixed
        cases given
        refine .inr (.inl ⟨several, fun other others again => ?_, rfl⟩)
        rw [mapM_interval?_eq_some_iff.2 again] at listed
        cases listed
        simpa using mixed
    · rename_i notIntervals
      cases given
      exact .inr (.inl ⟨several, fun first rest shape =>
        absurd (mapM_interval?_eq_some_iff.2 shape) (notIntervals first rest), rfl⟩)

theorem any?_eq_none_iff : any? parts = none ↔ parts.flatMap disjuncts = [] := by
  unfold any?
  split
  · rename_i shape
    rw [shape]
    simp
  · rename_i shape
    rw [shape]
    simp
  · rename_i notNone _
    refine iff_of_false ?_ notNone
    split
    · split <;> nofun
    · nofun

theorem fits_any? (each : ∀ part ∈ parts, part.Fits values columns)
    (given : any? parts = some found) : found.Fits values columns := by
  have flat := fits_flatMap_disjuncts each
  rcases any?_cases given with shape | ⟨_, _, rfl⟩ | ⟨first, rest, shape, _, rfl⟩
  · exact flat found (shape ▸ List.mem_singleton_self found)
  · exact fits_any.2 flat
  · have kept := fits_of_map_interval shape flat
    exact fits_interval.2 (Interval.keeps_foldl Interval.fits_join (kept first List.mem_cons_self)
      fun next member => kept next (List.mem_cons_of_mem first member))

theorem column_foldl_join {rest : List Interval} : ∀ {first : Interval},
    (rest.foldl Interval.join first).column = first.column := by
  induction rest with
  | nil => exact rfl
  | cons next rest ih => exact ih

theorem column_foldl_meet {rest : List Interval} : ∀ {first : Interval},
    (rest.foldl Interval.meet first).column = first.column := by
  induction rest with
  | nil => exact rfl
  | cons next rest ih => exact ih

section Ordered

variable (ordered : Value.Ordered values) (there : ∀ column, columns column → values (row column))
include ordered there

/-- **A conjunction of constraints holds for a row where all of them do.** -/
theorem holds_all? (each : ∀ part ∈ parts, part.Fits values columns)
    (given : all? parts = some found) : found.Holds row ↔ ∀ part ∈ parts, part.Holds row := by
  have flat := fits_flatMap_conjuncts each
  rw [← forall_mem_conjuncts]
  rcases all?_cases given with shape | ⟨_, _, rfl⟩ | ⟨intervals, shape, built⟩
  · rw [shape]
    simp
  · exact holds_all
  · have exact := forall_mem_metByColumn (Interval.Fits values columns)
      (fun interval => interval.Allows (row interval.column)) (fun _ => Interval.fits_meet)
      (fun {first second} same one two => by
        rw [same]
        exact Interval.allows_meet ordered one two (there _ one.1))
      (fits_of_map_interval shape flat)
    rw [shape, List.forall_mem_map]
    simp only [holds_interval]
    rw [← exact]
    rcases built with ⟨single, only, rfl⟩ | ⟨_, rfl⟩
    · rw [only, holds_interval]
      simp
    · rw [holds_all, List.forall_mem_map]
      simp only [holds_interval]

/-- **A disjunction of constraints holds for a row where one of them does.** -/
theorem holds_any? (each : ∀ part ∈ parts, part.Fits values columns)
    (given : any? parts = some found) : found.Holds row ↔ ∃ part ∈ parts, part.Holds row := by
  have flat := fits_flatMap_disjuncts each
  rw [← exists_mem_disjuncts]
  rcases any?_cases given with shape | ⟨_, _, rfl⟩ | ⟨first, rest, shape, same, rfl⟩
  · rw [shape]
    simp
  · exact holds_any
  · have kept := fits_of_map_interval shape flat
    have fits := kept first List.mem_cons_self
    have sameColumn : ∀ next ∈ first :: rest, next.column = first.column :=
      List.forall_mem_cons.2 ⟨rfl, same⟩
    rw [holds_interval, column_foldl_join, shape, Interval.allows_foldl_join ordered fits
      (fun next member => kept next (List.mem_cons_of_mem first member)) (there _ fits.1)]
    constructor
    · rintro ⟨next, member, allows⟩
      refine ⟨_, List.mem_map_of_mem member, holds_interval.2 ?_⟩
      rwa [sameColumn next member]
    · rintro ⟨_, listed, holds⟩
      obtain ⟨next, member, rfl⟩ := List.mem_map.1 listed
      rw [holds_interval, sameColumn next member] at holds
      exact ⟨next, member, holds⟩

end Ordered

/-! ### Columns -/

mutual

/-- What a constraint says about some columns is a constraint on those columns. -/
theorem fits_onColumns? : (constraint : Constraint) → constraint.Fits values columns →
    ∀ {found}, onColumns? set constraint = some found →
      found.Fits values fun column => columns column ∧ column ∈ set
  | interval value, fits, found, given => by
    rw [onColumns?] at given
    split at given
    · rename_i member
      cases given
      rw [fits_interval] at fits ⊢
      exact ⟨⟨fits.1, member⟩, fits.2⟩
    · cases given
  | all parts, fits, found, given => by
    rw [Fits] at fits
    rw [onColumns?] at given
    refine fits_all? (fun part member => ?_) given
    obtain ⟨view, listed, shown⟩ := List.mem_filterMap.1 member
    exact fits_viewsOnColumns parts fits _ (shown ▸ listed)
  | any parts, fits, found, given => by
    rw [Fits] at fits
    rw [onColumns?] at given
    obtain ⟨views, listed, given⟩ := Option.bind_eq_some_iff.1 given
    refine fits_any? (fun part member => ?_) given
    refine fits_viewsOnColumns parts fits _ ?_
    rw [mapM_id_eq_some_iff.1 listed]
    exact List.mem_map_of_mem member

theorem fits_viewsOnColumns : (parts : List Constraint) → AllFit values columns parts →
    ∀ found, some found ∈ viewsOnColumns set parts →
      found.Fits values fun column => columns column ∧ column ∈ set
  | [], _, _, member => by
    rw [viewsOnColumns] at member
    exact absurd member List.not_mem_nil
  | part :: rest, fits, found, member => by
    rw [viewsOnColumns] at member
    rcases List.mem_cons.1 member with same | member
    · exact fits_onColumns? part fits.1 same.symm
    · exact fits_viewsOnColumns rest fits.2 found member

end

/-- The intervals of what several parts say about a column, where one of them says something. -/
theorem mem_present {views : List (Option Interval)} {first : Interval} {rest : List Interval}
    (shape : views.filterMap id = first :: rest) {view : Interval} :
    view ∈ first :: rest ↔ some view ∈ views := by
  rw [← shape, List.mem_filterMap]
  simp

section Views

variable {keeps : Interval → Prop}
  (meets : ∀ {first second : Interval}, keeps first → keeps second → keeps (first.meet second))
  (joins : ∀ {first second : Interval}, keeps first → keeps second → keeps (first.join second))
  (free : ∀ {view : Interval}, view.column = column → keeps view → keeps (.unbounded column))
include meets joins free

mutual

/-- What a constraint says about one column is about that column, and keeps what its intervals have in
common. -/
theorem keeps_onColumn? : (constraint : Constraint) →
    (∀ interval ∈ constraint.intervals, keeps interval) →
      ∀ {view}, onColumn? column constraint = some view → view.column = column ∧ keeps view
  | interval value, each, view, given => by
    rw [onColumn?] at given
    split at given
    · rename_i same
      cases given
      exact ⟨same, each value (List.mem_singleton_self value)⟩
    · cases given
  | all parts, each, view, given => by
    rw [onColumn?, meetAll] at given
    split at given
    · cases given
    · rename_i first rest shape
      cases given
      have known := fun view member =>
        keeps_viewsOnColumn parts each view ((mem_present shape).1 member)
      exact ⟨column_foldl_meet.trans (known first List.mem_cons_self).1,
        Interval.keeps_foldl meets (known first List.mem_cons_self).2
          fun next member => (known next (List.mem_cons_of_mem first member)).2⟩
  | any parts, each, view, given => by
    rw [onColumn?, joinAll] at given
    split at given
    · cases given
    · rename_i first rest shape
      have known := fun view member =>
        keeps_viewsOnColumn parts each view ((mem_present shape).1 member)
      have here := known first List.mem_cons_self
      split at given
      · cases given
        exact ⟨rfl, free here.1 here.2⟩
      · cases given
        exact ⟨column_foldl_join.trans here.1, Interval.keeps_foldl joins here.2
          fun next member => (known next (List.mem_cons_of_mem first member)).2⟩

theorem keeps_viewsOnColumn : (parts : List Constraint) →
    (∀ interval ∈ intervalsOfParts parts, keeps interval) →
      ∀ view, some view ∈ viewsOnColumn column parts → view.column = column ∧ keeps view
  | [], _, _, member => by
    rw [viewsOnColumn] at member
    exact absurd member List.not_mem_nil
  | part :: rest, each, view, member => by
    rw [intervalsOfParts, List.forall_mem_append] at each
    rw [viewsOnColumn] at member
    rcases List.mem_cons.1 member with same | member
    · exact keeps_onColumn? part each.1 same.symm
    · exact keeps_viewsOnColumn rest each.2 view member

end

end Views

/-- What a constraint says about one column is about that column. -/
theorem fits_onColumn? (constraint : Constraint) (fits : constraint.Fits values columns)
    {view : Interval} (given : onColumn? column constraint = some view) :
    view.column = column ∧ view.Fits values columns :=
  keeps_onColumn? Interval.fits_meet Interval.fits_join
    (fun same inside => Interval.fits_unbounded (same ▸ inside.1)) constraint
    ((fits_iff constraint).1 fits) given

theorem fits_viewsOnColumn (parts : List Constraint) (fits : AllFit values columns parts)
    (view : Interval) (member : some view ∈ viewsOnColumn column parts) :
    view.column = column ∧ view.Fits values columns :=
  keeps_viewsOnColumn Interval.fits_meet Interval.fits_join
    (fun same inside => Interval.fits_unbounded (same ▸ inside.1)) parts
    ((allFit_iff_intervals parts).1 fits) view member

section Ordered

variable (ordered : Value.Ordered values) (there : ∀ column, columns column → values (row column))
include ordered there

mutual

/-- **What a constraint that holds says about some columns holds.** -/
theorem holds_onColumns? : (constraint : Constraint) → constraint.Fits values columns →
    constraint.Holds row → ∀ {found}, onColumns? set constraint = some found → found.Holds row
  | interval value, _, holds, found, given => by
    rw [onColumns?] at given
    split at given
    · cases given
      exact holds
    · cases given
  | all parts, fits, holds, found, given => by
    rw [Fits] at fits
    rw [Holds] at holds
    rw [onColumns?] at given
    have shown : ∀ part ∈ (viewsOnColumns set parts).filterMap id,
        some part ∈ viewsOnColumns set parts := by
      intro part member
      obtain ⟨view, listed, same⟩ := List.mem_filterMap.1 member
      exact same ▸ listed
    refine (holds_all? ordered there (fun part member => ?_) given).2 fun part member => ?_
    · exact Fits.mono (fun _ => And.left) part (fits_viewsOnColumns parts fits _ (shown part member))
    · exact holds_viewsOnColumns_all parts fits holds _ (shown part member)
  | any parts, fits, holds, found, given => by
    rw [Fits] at fits
    rw [Holds] at holds
    rw [onColumns?] at given
    obtain ⟨views, listed, given⟩ := Option.bind_eq_some_iff.1 given
    have shape := mapM_id_eq_some_iff.1 listed
    refine (holds_any? ordered there (fun part member => ?_) given).2 ?_
    · have among : some part ∈ viewsOnColumns set parts := shape ▸ List.mem_map_of_mem member
      exact Fits.mono (fun _ => And.left) part (fits_viewsOnColumns parts fits _ among)
    · exact holds_viewsOnColumns_any parts fits holds views shape

theorem holds_viewsOnColumns_all : (parts : List Constraint) → AllFit values columns parts →
    AllHold row parts → ∀ found, some found ∈ viewsOnColumns set parts → found.Holds row
  | [], _, _, _, member => by
    rw [viewsOnColumns] at member
    exact absurd member List.not_mem_nil
  | part :: rest, fits, holds, found, member => by
    rw [viewsOnColumns] at member
    rcases List.mem_cons.1 member with same | member
    · exact holds_onColumns? part fits.1 holds.1 same.symm
    · exact holds_viewsOnColumns_all rest fits.2 holds.2 found member

theorem holds_viewsOnColumns_any : (parts : List Constraint) → AllFit values columns parts →
    AnyHolds row parts → ∀ views : List Constraint, viewsOnColumns set parts = views.map some →
      ∃ found ∈ views, found.Holds row
  | [], _, holds, _, _ => holds.elim
  | part :: rest, fits, holds, views, shape => by
    rw [viewsOnColumns] at shape
    cases views with
    | nil => cases shape
    | cons view views =>
      obtain ⟨first, others⟩ := List.cons.inj shape
      rcases holds with held | held
      · exact ⟨view, List.mem_cons_self, holds_onColumns? part fits.1 held first⟩
      · obtain ⟨found, member, held⟩ := holds_viewsOnColumns_any rest fits.2 held views others
        exact ⟨found, List.mem_cons_of_mem view member, held⟩

end

/-! ### Contradictions -/

mutual

/-- What a constraint that holds says about one column allows the value of that column. -/
theorem allows_onColumn? : (constraint : Constraint) → constraint.Fits values columns →
    constraint.Holds row → ∀ {view}, onColumn? column constraint = some view →
      view.Allows (row column)
  | interval value, fits, holds, view, given => by
    rw [onColumn?] at given
    split at given
    · rename_i same
      cases given
      subst same
      exact holds_interval.1 holds
    · cases given
  | all parts, fits, holds, view, given => by
    rw [Fits] at fits
    rw [Holds] at holds
    rw [onColumn?, meetAll] at given
    split at given
    · cases given
    · rename_i first rest shape
      cases given
      have each := fun view member =>
        fits_viewsOnColumn parts fits view ((mem_present shape).1 member)
      have allowed := fun view member =>
        allows_viewsOnColumn_all parts fits holds view ((mem_present shape).1 member)
      have here := each first List.mem_cons_self
      have known : values (row column) := here.1 ▸ there _ here.2.1
      exact (Interval.allows_foldl_meet ordered here.2 (fun next member =>
        (each next (List.mem_cons_of_mem first member)).2) known).2 allowed
  | any parts, fits, holds, view, given => by
    rw [Fits] at fits
    rw [Holds] at holds
    rw [onColumn?, joinAll] at given
    split at given
    · cases given
    · rename_i first rest shape
      have each := fun view member =>
        fits_viewsOnColumn parts fits view ((mem_present shape).1 member)
      have here := each first List.mem_cons_self
      have others := fun view member => each view (List.mem_cons_of_mem first member)
      have known : values (row column) := here.1 ▸ there _ here.2.1
      split at given
      · cases given
        exact Interval.allows_unbounded ordered known
      · rename_i bounded
        cases given
        refine (Interval.allows_foldl_join ordered here.2
          (fun next member => (others next member).2) known).2 ?_
        have full : none ∉ viewsOnColumn column parts := by
          intro missing
          refine bounded (Bool.or_eq_true_iff.2 (.inl (List.any_eq_true.2 ⟨none, missing, rfl⟩)))
        obtain ⟨view, member, allows⟩ := allows_viewsOnColumn_any parts fits holds full
        exact ⟨view, (mem_present shape).2 member, allows⟩

theorem allows_viewsOnColumn_all : (parts : List Constraint) → AllFit values columns parts →
    AllHold row parts → ∀ view, some view ∈ viewsOnColumn column parts →
      view.Allows (row column)
  | [], _, _, _, member => by
    rw [viewsOnColumn] at member
    exact absurd member List.not_mem_nil
  | part :: rest, fits, holds, view, member => by
    rw [viewsOnColumn] at member
    rcases List.mem_cons.1 member with same | member
    · exact allows_onColumn? part fits.1 holds.1 same.symm
    · exact allows_viewsOnColumn_all rest fits.2 holds.2 view member

theorem allows_viewsOnColumn_any : (parts : List Constraint) → AllFit values columns parts →
    AnyHolds row parts → none ∉ viewsOnColumn column parts →
      ∃ view, some view ∈ viewsOnColumn column parts ∧ view.Allows (row column)
  | [], _, holds, _ => holds.elim
  | part :: rest, fits, holds, full => by
    rw [viewsOnColumn] at full ⊢
    rw [List.mem_cons, not_or] at full
    rcases holds with held | held
    · cases shown : onColumn? column part with
      | none => exact absurd shown.symm full.1
      | some view =>
        exact ⟨view, List.mem_cons_self, allows_onColumn? part fits.1 held shown⟩
    · obtain ⟨view, member, allows⟩ := allows_viewsOnColumn_any rest fits.2 held full.2
      exact ⟨view, List.mem_cons_of_mem _ member, allows⟩

end

mutual

/-- **A constraint that holds for a row is no contradiction.** -/
theorem isContradiction_eq_false : (constraint : Constraint) → constraint.Fits values columns →
    constraint.Holds row → constraint.isContradiction = false
  | interval value, _, holds => by
    rw [isContradiction]
    exact Interval.isContradiction_eq_false (holds_interval.1 holds)
  | all parts, fits, holds => by
    have views : ∀ column view, onColumn? column (all parts) = some view →
        view.Allows (row column) := fun column view =>
      allows_onColumn? ordered there (all parts) fits holds
    rw [Fits] at fits
    rw [Holds] at holds
    rw [isContradiction, anyContradiction_eq_false parts fits holds, Bool.false_or,
      List.any_eq_false]
    intro column _
    cases shown : meetAll (viewsOnColumn column parts) with
    | none => simp
    | some view =>
      have allows := views column view (by rw [onColumn?, shown])
      simp [Interval.isContradiction_eq_false allows]
  | any parts, fits, holds => by
    rw [Fits] at fits
    rw [Holds] at holds
    rw [isContradiction]
    exact allContradictions_eq_false parts fits holds

theorem anyContradiction_eq_false : (parts : List Constraint) → AllFit values columns parts →
    AllHold row parts → anyContradiction parts = false
  | [], _, _ => rfl
  | part :: rest, fits, holds => by
    rw [anyContradiction, isContradiction_eq_false part fits.1 holds.1,
      anyContradiction_eq_false rest fits.2 holds.2, Bool.or_self]

theorem allContradictions_eq_false : (parts : List Constraint) → AllFit values columns parts →
    AnyHolds row parts → allContradictions parts = false
  | [], _, holds => holds.elim
  | part :: rest, fits, holds => by
    rw [allContradictions, Bool.and_eq_false_iff]
    exact holds.imp (isContradiction_eq_false part fits.1)
      (allContradictions_eq_false rest fits.2)

end

end Ordered

end Constraint

end Cascades
