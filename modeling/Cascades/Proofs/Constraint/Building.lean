/-
**Building a constraint keeps its meaning.**

A constraint that is built from parts holds for exactly the rows for which all of them hold, or one of
them: parts of the same kind are flattened, a single part stands for itself, and intervals are met column
by column, or joined on one column, but no row is won or lost. What was built stays as it is: building a
constraint from it alone gives it back.

* `Interval.Ascending`: intervals on different columns, in order; `ascending_metByColumn`: what is met
  column by column is such; `metByColumn_of_ascending`: and is met no further;
* `Built`: constraints that are built from intervals; `Settled`: those that need no building;
* `settled_of_all?`, `settled_of_any?`: what is built from settled parts is settled;
* `building_exact`: building keeps the meaning, and builds nothing anew from what was built.
-/

import Cascades.Proofs.Constraint.View
import Mathlib.Data.List.Nodup

namespace Cascades

/-- **Intervals on different columns**, by ascending column. -/
def Interval.Ascending (intervals : List Interval) : Prop :=
  intervals.Pairwise fun first second => first.column < second.column

namespace Constraint

open Cascades.Interval (Ascending)

variable {parts : List Constraint} {tree found : Constraint} {intervals merged : List Interval}
  {next : Interval}

/-! ### Columns in order -/

theorem ascending_meetInto (sorted : Ascending merged) : Ascending (meetInto next merged) := by
  induction merged with
  | nil => exact List.pairwise_singleton _ next
  | cons head tail ih =>
    obtain ⟨ahead, rest⟩ := List.pairwise_cons.1 sorted
    unfold meetInto
    split
    · rename_i before
      exact List.pairwise_cons.2 ⟨List.forall_mem_cons.2 ⟨before, fun other member =>
        Nat.lt_trans before (ahead other member)⟩, sorted⟩
    · split
      · exact List.pairwise_cons.2 ⟨ahead, rest⟩
      · rename_i notBefore notSame
        have after : head.column < next.column :=
          Nat.lt_of_le_of_ne (Nat.le_of_not_lt notBefore) (Ne.symm notSame)
        exact List.pairwise_cons.2 ⟨mem_meetInto (fun other => head.column < other.column)
          (fun _ one _ => one) after ahead, ih rest⟩

/-- Intervals on different columns are known by their columns. -/
theorem eq_of_ascending (sorted : Ascending intervals) {first second : Interval}
    (one : first ∈ intervals) (two : second ∈ intervals) (same : first.column = second.column) :
    first = second := by
  have distinct : (intervals.map Interval.column).Nodup :=
    List.pairwise_map.2 (sorted.imp Nat.ne_of_lt)
  exact List.inj_on_of_nodup_map distinct one two same

theorem ascending_foldl_meetInto : ∀ {merged : List Interval}, Ascending merged →
    Ascending (intervals.foldl (fun merged next => meetInto next merged) merged) := by
  induction intervals with
  | nil => exact fun sorted => sorted
  | cons next rest ih => exact fun sorted => ih (ascending_meetInto sorted)

theorem ascending_metByColumn : Ascending (metByColumn intervals) :=
  ascending_foldl_meetInto .nil

/-- An interval on a later column is added at the end. -/
theorem meetInto_of_later (later : ∀ interval ∈ merged, interval.column < next.column) :
    meetInto next merged = merged ++ [next] := by
  induction merged with
  | nil => rfl
  | cons head tail ih =>
    have before := later head List.mem_cons_self
    rw [meetInto, if_neg (Nat.lt_asymm before), if_neg (Nat.ne_of_gt before),
      ih fun other member => later other (List.mem_cons_of_mem head member), List.cons_append]

theorem foldl_meetInto_of_ascending : ∀ {merged : List Interval}, Ascending (merged ++ intervals) →
    intervals.foldl (fun merged next => meetInto next merged) merged = merged ++ intervals := by
  induction intervals with
  | nil => simp
  | cons next rest ih =>
    intro merged sorted
    have later : ∀ interval ∈ merged, interval.column < next.column := fun interval member =>
      (List.pairwise_append.1 sorted).2.2 interval member next List.mem_cons_self
    rw [List.append_cons] at sorted ⊢
    rw [List.foldl_cons, meetInto_of_later later, ih sorted]

/-- Intervals on different columns in order are met no further. -/
theorem metByColumn_of_ascending (sorted : Ascending intervals) :
    metByColumn intervals = intervals := by
  show intervals.foldl _ [] = [] ++ intervals
  exact foldl_meetInto_of_ascending sorted

theorem metByColumn_eq_nil_iff : metByColumn intervals = [] ↔ intervals = [] := by
  have nothing : (∀ interval ∈ metByColumn intervals, False) ↔ ∀ interval ∈ intervals, False :=
    forall_mem_metByColumn (fun _ => True) _ (fun _ _ _ => trivial) (fun _ _ _ => by simp)
      (fun _ _ => trivial)
  rw [List.eq_nil_iff_forall_not_mem, List.eq_nil_iff_forall_not_mem]
  exact nothing

/-! ### Constraints that need no building -/

/-- **Constraints that are built from intervals.** -/
inductive Built : Constraint → Prop
  | interval (value : Interval) : Built (interval value)
  | all {parts : List Constraint} {found : Constraint} (each : ∀ part ∈ parts, Built part)
      (given : all? parts = some found) : Built found
  | any {parts : List Constraint} {found : Constraint} (each : ∀ part ∈ parts, Built part)
      (given : any? parts = some found) : Built found

/-- **Whether building leaves a constraint as it is**: its parts are several, and if they are intervals,
those of a conjunction are on different columns in order, those of a disjunction not all on one. -/
def Settled : Constraint → Prop
  | interval _ => True
  | all parts => 2 ≤ parts.length ∧
      ∀ intervals : List Interval, parts = intervals.map interval → Ascending intervals
  | any parts => 2 ≤ parts.length ∧
      ∀ first rest, parts = (first :: rest).map interval → ∃ next ∈ rest, next.column ≠ first.column

theorem map_interval_injective : Function.Injective (List.map interval) :=
  List.map_injective_iff.2 fun _ _ => interval.inj

/-- Where parts are flattened to one only, it is one of them, unless it was the only part of one. -/
theorem mem_of_flatMap_eq_singleton {split : Constraint → List Constraint}
    (several : ∀ part ∈ parts, split part = [part] ∨ 2 ≤ (split part).length)
    (shape : parts.flatMap split = [found]) : found ∈ parts := by
  obtain ⟨owner, inside, member⟩ := List.mem_flatMap.1 (shape ▸ List.mem_singleton_self found)
  rcases several owner inside with only | many
  · rw [only, List.mem_singleton] at member
    exact member ▸ inside
  · obtain ⟨before, after, rfl⟩ := List.append_of_mem inside
    have count := congrArg List.length shape
    rw [List.flatMap_append, List.flatMap_cons, List.length_append, List.length_append,
      List.length_singleton] at count
    omega

theorem Settled.conjuncts (settled : tree.Settled) :
    tree.conjuncts = [tree] ∨ 2 ≤ tree.conjuncts.length := by
  cases tree with
  | all parts => exact .inr settled.1
  | _ => exact .inl rfl

theorem Settled.disjuncts (settled : tree.Settled) :
    tree.disjuncts = [tree] ∨ 2 ≤ tree.disjuncts.length := by
  cases tree with
  | any parts => exact .inr settled.1
  | _ => exact .inl rfl

/-- A conjunction of settled parts is settled. -/
theorem settled_of_all? (each : ∀ part ∈ parts, part.Settled) (given : all? parts = some found) :
    found.Settled := by
  rcases all?_cases given with shape | ⟨several, mixed, rfl⟩ | ⟨intervals, shape, built⟩
  · exact each found (mem_of_flatMap_eq_singleton (fun part member => (each part member).conjuncts)
      shape)
  · refine ⟨several, fun intervals shape => ?_⟩
    rw [mapM_interval?_eq_some_iff.2 shape] at mixed
    cases mixed
  · rcases built with ⟨single, _, rfl⟩ | ⟨notOne, rfl⟩
    · trivial
    have some : metByColumn intervals ≠ [] := by
      rw [Ne, metByColumn_eq_nil_iff]
      rintro rfl
      rw [all?_eq_none_iff.2 shape] at given
      cases given
    refine ⟨?_, fun others same => map_interval_injective same ▸ ascending_metByColumn⟩
    have := List.length_pos_iff.2 some
    rw [List.length_map]
    omega

/-- A disjunction of settled parts is settled. -/
theorem settled_of_any? (each : ∀ part ∈ parts, part.Settled) (given : any? parts = some found) :
    found.Settled := by
  rcases any?_cases given with shape | ⟨several, mixed, rfl⟩ | ⟨first, rest, shape, _, rfl⟩
  · exact each found (mem_of_flatMap_eq_singleton (fun part member => (each part member).disjuncts)
      shape)
  · exact ⟨several, mixed⟩
  · trivial

theorem Built.settled (built : Built tree) : tree.Settled := by
  induction built with
  | interval value => trivial
  | all _ given ih => exact settled_of_all? ih given
  | any _ given ih => exact settled_of_any? ih given

/-- A settled constraint is the conjunction of itself. -/
theorem Settled.all?_singleton (settled : tree.Settled) : all? [tree] = some tree := by
  cases tree with
  | interval value => rfl
  | any parts => rfl
  | all parts =>
    obtain ⟨several, sorted⟩ := settled
    have flat : [all parts].flatMap Constraint.conjuncts = parts := List.flatMap_singleton ..
    cases given : all? [all parts] with
    | none =>
      rw [all?_eq_none_iff, flat] at given
      simp [given] at several
    | some found =>
      rcases all?_cases given with shape | ⟨_, _, rfl⟩ | ⟨intervals, shape, built⟩
      · rw [← flat, shape] at several
        simp at several
      · rw [flat]
      · rw [flat] at shape
        rw [metByColumn_of_ascending (sorted intervals shape)] at built
        rcases built with ⟨single, only, _⟩ | ⟨_, rfl⟩
        · rw [shape, only] at several
          simp at several
        · rw [shape]

/-- A settled constraint is the disjunction of itself. -/
theorem Settled.any?_singleton (settled : tree.Settled) : any? [tree] = some tree := by
  cases tree with
  | interval value => rfl
  | all parts => rfl
  | any parts =>
    obtain ⟨several, mixed⟩ := settled
    have flat : [any parts].flatMap Constraint.disjuncts = parts := List.flatMap_singleton ..
    cases given : any? [any parts] with
    | none =>
      rw [any?_eq_none_iff, flat] at given
      simp [given] at several
    | some found =>
      rcases any?_cases given with shape | ⟨_, _, rfl⟩ | ⟨first, rest, shape, same, _⟩
      · rw [← flat, shape] at several
        simp at several
      · rw [flat]
      · obtain ⟨next, member, differs⟩ := mixed first rest (flat ▸ shape)
        exact absurd (same next member) differs

/-! ### Meaning -/

/-- All parts hold where their conjunction does, or where there is none. -/
theorem forall_mem_holds_iff {values : Value → Prop} {columns : ColumnId → Prop}
    {row : ColumnId → Value} (ordered : Value.Ordered values)
    (there : ∀ column, columns column → values (row column))
    (each : ∀ part ∈ parts, part.Fits values columns) :
    (∀ part ∈ parts, part.Holds row) ↔ ∀ found, all? parts = some found → found.Holds row := by
  cases given : all? parts with
  | none =>
    rw [← forall_mem_conjuncts, all?_eq_none_iff.1 given]
    simp
  | some found =>
    rw [← holds_all? ordered there each given]
    simp

/-- **Building keeps the meaning of the parts.** Over values in an order, for every row with null for some
columns: all parts hold exactly where their conjunction holds, or where there is none; and where flattening
leaves some part, there is a disjunction, and one of the parts holds exactly where it does. What is built
from intervals is the conjunction and the disjunction of itself. -/
theorem building_exact {values : Value → Prop} (ordered : Value.Ordered values) :
    (∀ (parts : List Constraint) (row : ColumnId → Value),
      (∀ part ∈ parts, part.Fits (fun value => value.isNull = true ∨ values value) fun _ => True) →
      (∀ part ∈ parts, ∀ column ∈ part.columns,
        (row column).isNull = true ∨ values (row column)) →
        ((∀ part ∈ parts, part.Holds row) ↔
          all? parts = none ∨ ∃ found, all? parts = some found ∧ found.Holds row) ∧
        (parts.flatMap disjuncts ≠ [] →
          ∃ found, any? parts = some found ∧
            ((∃ part ∈ parts, part.Holds row) ↔ found.Holds row))) ∧
    ∀ tree, Built tree → all? [tree] = some tree ∧ any? [tree] = some tree := by
  refine ⟨fun parts row bounds known => ?_, fun tree built =>
    ⟨built.settled.all?_singleton, built.settled.any?_singleton⟩⟩
  have fits : ∀ part ∈ parts, part.Fits (fun value => value.isNull = true ∨ values value)
      fun column => ∃ part ∈ parts, column ∈ part.columns := fun part member =>
    Fits.mono (fun _ mentioned => ⟨part, member, mentioned⟩) part
      (Fits.mentioned part (bounds part member))
  have there : ∀ column, (∃ part ∈ parts, column ∈ part.columns) →
      (row column).isNull = true ∨ values (row column) := fun column ⟨part, member, mentioned⟩ =>
    known part member column mentioned
  constructor
  · rw [forall_mem_holds_iff ordered.orNull there fits]
    cases all? parts <;> simp
  · intro some
    cases given : any? parts with
    | none => exact absurd (any?_eq_none_iff.1 given) some
    | some found => exact ⟨found, rfl, (holds_any? ordered.orNull there fits given).symm⟩

/-- A price below ten, and beside it a price above five with a stock of three or unknown. -/
def cheapStock : List Constraint :=
  [interval ⟨1, [⟨.unbounded, .excluded (.int 10)⟩], false⟩,
    all [interval ⟨1, [⟨.excluded (.int 5), .unbounded⟩], false⟩, interval ⟨2, [.point (.int 3)], true⟩]]

/-- The prices are met, the stock stays beside them, and a row at seven with unknown stock is left. -/
theorem building_exact_cheapStock :
    ∃ found other, ∃ row : ColumnId → Value, row 1 = .int 7 ∧ row 2 = .null ∧
      found = all [interval ⟨1, [⟨.excluded (.int 5), .excluded (.int 10)⟩], false⟩,
        interval ⟨2, [.point (.int 3)], true⟩] ∧
      all? cheapStock = some found ∧ found.Holds row ∧ any? cheapStock = some other ∧ other.Holds row ∧
      all? [found] = some found ∧ any? [found] = some found := by
  let row (column : ColumnId) : Value := if column = 1 then .int 7 else .null
  have bounds : ∀ part ∈ cheapStock,
      part.Fits (fun value => value.isNull = true ∨ value.isExact = true) fun _ => True := by
    simp [cheapStock, fits_all, fits_interval, Interval.Fits, Range.In, Bound.In, Range.point,
      Value.isExact]
  have there : ∀ part ∈ cheapStock, ∀ column ∈ part.columns,
      (row column).isNull = true ∨ (row column).isExact = true := by
    intro _ _ column _
    by_cases first : column = 1
    · simp [row, first, Value.isExact]
    · simp [row, first, Value.isNull]
  have below : Value.order (.int 7) (.int 10) = .lt := by decide
  have above : Value.order (.int 5) (.int 7) = .lt := by decide
  have holds : ∀ part ∈ cheapStock, part.Holds row := by
    simp [cheapStock, holds_all, holds_interval, Interval.Allows, Range.Holds, Bound.Lower,
      Bound.Upper, row, Value.isNull, below, above]
  obtain ⟨meaning, fixed⟩ := building_exact Value.ordered_exact
  obtain ⟨conjunction, disjunction⟩ := meaning cheapStock row bounds there
  have built : ∀ part ∈ cheapStock, Built part := by
    refine List.forall_mem_cons.2 ⟨.interval _, List.forall_mem_singleton.2 ?_⟩
    have given : all? [interval ⟨1, [⟨.excluded (.int 5), .unbounded⟩], false⟩,
        interval ⟨2, [.point (.int 3)], true⟩] = some (all [interval _, interval _]) := rfl
    exact .all (List.forall_mem_cons.2 ⟨.interval _, List.forall_mem_singleton.2 (.interval _)⟩) given
  obtain none | ⟨found, given, held⟩ := conjunction.1 holds
  · cases none
  obtain ⟨other, joined, either⟩ := disjunction (List.cons_ne_nil _ _)
  have heldToo := either.1 ⟨_, List.mem_cons_self, holds _ List.mem_cons_self⟩
  obtain ⟨same, sameToo⟩ := fixed found (.all built given)
  cases given
  exact ⟨_, other, row, rfl, rfl, rfl, rfl, held, joined, heldToo, same, sameToo⟩

end Constraint

end Cascades
