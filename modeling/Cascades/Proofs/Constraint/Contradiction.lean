/-
**Contradictions are true, and are not lost.**

No row satisfies a constraint that is seen to be a contradiction. And what is seen of a part is seen of
what is built from it: a conjunction with a contradiction for a part is one, however its parts are
flattened and met, and so is a disjunction of contradictions. What carries this is that a conjunction is
seen to be empty column by column, and that a column is left nothing only where nothing is admitted
there; a contradiction in what is said about one column is one of the whole constraint.

* `Interval.Formed`: intervals as they are built from ranges; `Constraint.Formed`: constraints with such;
* `admits_onColumn?_all`, `isContradiction_onColumn?_any`: what is said about one column is exact for places;
* `isContradiction_of_onColumn?`: contradictions in what is said about one column;
* `isContradiction_all?`, `isContradiction_any?`: contradictions among the parts;
* `contradiction_kept`: contradictions hold for no row, and building keeps them.
-/

import Cascades.Proofs.Constraint.Building

set_option linter.unusedSectionVars false

namespace Cascades

/-! ### Formed intervals -/

namespace Interval

variable {values : Value → Prop} {first second interval : Interval} {column : ColumnId}
  {ranges : List Range} {allowsNull : Bool}

/-- **An interval as it is built from ranges**: with bounds among some values, and no range empty. -/
def Formed (values : Value → Prop) (interval : Interval) : Prop :=
  (interval.Fits values fun _ => True) ∧ interval.Filled

/-- A join of contradictions is one. -/
theorem isContradiction_join (one : first.isContradiction = true)
    (two : second.isContradiction = true) : (first.join second).isContradiction = true := by
  simp only [isContradiction, Bool.and_eq_true, List.isEmpty_iff, Bool.not_eq_true'] at one two
  unfold join
  rw [one.1, two.1, one.2, two.2]
  rfl

variable (ordered : Value.Ordered values)
include ordered

theorem formed_ofRanges (each : ∀ range ∈ ranges, range.In values) :
    (ofRanges column ranges allowsNull).Formed values :=
  ⟨fits_ofRanges trivial each, filled_ofRanges ordered each⟩

theorem formed_unbounded : (unbounded column).Formed values :=
  formed_ofRanges ordered (by simp [Range.in_unbounded])

theorem Formed.meet (one : first.Formed values) (two : second.Formed values) :
    (first.meet second).Formed values :=
  formed_ofRanges ordered (in_intersections one.1 two.1)

theorem Formed.join (one : first.Formed values) (two : second.Formed values) :
    (first.join second).Formed values :=
  formed_ofRanges ordered (in_append one.1 two.1)

/-- An interval that is no contradiction admits a place, or null. -/
theorem Formed.isContradiction_iff (formed : interval.Formed values) :
    interval.isContradiction = true ↔ ∀ spot : Option (Place values), ¬ interval.Admits spot :=
  Interval.isContradiction_iff ordered formed.1 formed.2

end Interval

namespace Constraint

variable {values : Value → Prop} {parts more : List Constraint} {part tree found : Constraint}
  {column : ColumnId} {view : Interval} {spot : Option (Place values)}

/-! ### Formed constraints -/

theorem mem_intervalsOfParts {interval : Interval} :
    interval ∈ intervalsOfParts parts ↔ ∃ part ∈ parts, interval ∈ part.intervals := by
  induction parts with
  | nil => simp [intervalsOfParts]
  | cons part rest ih => simp [intervalsOfParts, ih]

/-- **A constraint of formed intervals.** -/
def Formed (values : Value → Prop) (constraint : Constraint) : Prop :=
  ∀ interval ∈ constraint.intervals, interval.Formed values

theorem formed_interval {value : Interval} :
    (interval value).Formed values ↔ value.Formed values := by
  simp [Formed, intervals]

theorem formed_all : (all parts).Formed values ↔ ∀ part ∈ parts, part.Formed values := by
  simp only [Formed, intervals, mem_intervalsOfParts]
  exact ⟨fun each part member value inside => each value ⟨part, member, inside⟩,
    fun each value ⟨part, member, inside⟩ => each part member value inside⟩

theorem formed_conjuncts (formed : tree.Formed values) :
    ∀ part ∈ tree.conjuncts, part.Formed values := by
  cases tree with
  | all parts => exact formed_all.1 formed
  | _ => simpa [conjuncts] using formed

/-! ### What is seen -/

theorem viewsOnColumn_eq_map : viewsOnColumn column parts = parts.map (onColumn? column) := by
  induction parts with
  | nil => rfl
  | cons part rest ih => rw [viewsOnColumn, ih, List.map_cons]

theorem anyContradiction_iff :
    anyContradiction parts = true ↔ ∃ part ∈ parts, part.isContradiction = true := by
  induction parts with
  | nil => simp [anyContradiction]
  | cons part rest ih => simp [anyContradiction, ih]

theorem allContradictions_iff :
    allContradictions parts = true ↔ ∀ part ∈ parts, part.isContradiction = true := by
  induction parts with
  | nil => simp [allContradictions]
  | cons part rest ih => simp [allContradictions, ih]

/-- A conjunction is seen to be a contradiction in one of its parts, or in what they say about one
column. -/
theorem isContradiction_all_iff : (all parts).isContradiction = true ↔
    (∃ part ∈ parts, part.isContradiction = true) ∨
      ∃ column view, onColumn? column (all parts) = some view ∧ view.isContradiction = true := by
  rw [isContradiction, Bool.or_eq_true, anyContradiction_iff, List.any_eq_true]
  refine or_congr_right (exists_congr fun column => ?_)
  rw [onColumn?]
  cases said : meetAll (viewsOnColumn column parts) with
  | none => simp
  | some view =>
    have mentioned : column ∈ columnsOfParts parts := by
      by_contra silent
      rw [← viewsOnColumn_eq_nil_iff, ← meetAll_eq_none_iff, said] at silent
      cases silent
    exact ⟨fun seen => ⟨view, rfl, seen.2⟩, fun ⟨_, same, one⟩ =>
      ⟨mentioned, Option.some.inj same ▸ one⟩⟩

/-- A conjunction of one part says what the part says. -/
theorem onColumn?_all_singleton : onColumn? column (all [tree]) = onColumn? column tree := by
  rw [onColumn?, viewsOnColumn, viewsOnColumn]
  cases onColumn? column tree <;> rfl

section Ordered

variable (ordered : Value.Ordered values)
include ordered

/-- What is said about one column is a formed interval. -/
theorem formed_onColumn? (formed : tree.Formed values) (given : onColumn? column tree = some view) :
    view.Formed values :=
  (keeps_onColumn? (.meet ordered) (.join ordered)
    (fun _ _ => Interval.formed_unbounded ordered) tree formed given).2

theorem formed_of_mem_views (each : ∀ part ∈ parts, part.Formed values)
    (member : some view ∈ viewsOnColumn column parts) : view.Formed values := by
  rw [viewsOnColumn_eq_map] at member
  obtain ⟨part, inside, given⟩ := List.mem_map.1 member
  exact formed_onColumn? ordered (each part inside) given

/-- A conjunction admits a place of one column where all that its parts say about the column admits
it. -/
theorem admits_onColumn?_all (each : ∀ part ∈ parts, part.Formed values)
    (given : onColumn? column (all parts) = some view) :
    view.Admits spot ↔
      ∀ part ∈ parts, ∀ said, onColumn? column part = some said → said.Admits spot := by
  rw [onColumn?, meetAll] at given
  split at given
  · cases given
  · rename_i first rest shape
    cases given
    have fits : ∀ said ∈ first :: rest, said.Fits values fun _ => True := fun said member =>
      (formed_of_mem_views ordered each ((mem_present shape).1 member)).1
    rw [Interval.admits_foldl_meet ordered (fits first List.mem_cons_self)
      fun next member => fits next (List.mem_cons_of_mem first member)]
    simp only [mem_present shape, viewsOnColumn_eq_map, List.mem_map]
    constructor
    · exact fun admits part member said given => admits said ⟨part, member, given⟩
    · rintro admits said ⟨part, member, given⟩
      exact admits part member said given

/-- A disjunction leaves a column nothing only where each part says something about the column, and
leaves it nothing. -/
theorem isContradiction_onColumn?_any (each : ∀ part ∈ parts, part.Formed values)
    (given : onColumn? column (any parts) = some view) (contradiction : view.isContradiction = true) :
    ∀ part ∈ parts, ∃ said, onColumn? column part = some said ∧ said.isContradiction = true := by
  have whole : (any parts).Formed values := formed_all.2 each
  have formed := formed_onColumn? ordered whole given
  rw [onColumn?, joinAll] at given
  split at given
  · cases given
  · rename_i first rest shape
    split at given
    · cases given
      cases contradiction
    · rename_i bounded
      cases given
      have known : ∀ said ∈ first :: rest, said.Formed values := fun said member =>
        formed_of_mem_views ordered each ((mem_present shape).1 member)
      rw [formed.isContradiction_iff ordered] at contradiction
      intro part member
      have listed : onColumn? column part ∈ viewsOnColumn column parts := by
        rw [viewsOnColumn_eq_map]
        exact List.mem_map_of_mem member
      cases said : onColumn? column part with
      | none =>
        rw [said] at listed
        exact absurd (Bool.or_eq_true_iff.2 (.inl (List.any_eq_true.2 ⟨none, listed, rfl⟩))) bounded
      | some view =>
        rw [said] at listed
        have inside := (mem_present shape).2 listed
        refine ⟨view, rfl, ((known view inside).isContradiction_iff ordered).2 fun spot admits => ?_⟩
        exact contradiction spot ((Interval.admits_foldl_join ordered
          (known first List.mem_cons_self).1 fun next later =>
            (known next (List.mem_cons_of_mem first later)).1).2 ⟨view, inside, admits⟩)

mutual

/-- **A contradiction in what is said about one column is one of the constraint.** -/
theorem isContradiction_of_onColumn? : (constraint : Constraint) → constraint.Formed values →
    ∀ {view}, onColumn? column constraint = some view → view.isContradiction = true →
      constraint.isContradiction = true
  | interval value, _, view, given, contradiction => by
    rw [onColumn?] at given
    split at given
    · cases given
      rwa [isContradiction]
    · cases given
  | all parts, _, view, given, contradiction =>
    isContradiction_all_iff.2 (.inr ⟨column, view, given, contradiction⟩)
  | any parts, formed, view, given, contradiction => by
    rw [isContradiction]
    exact allContradictions_of_onColumn? parts formed
      (isContradiction_onColumn?_any ordered (formed_all.1 formed) given contradiction)

theorem allContradictions_of_onColumn? : (parts : List Constraint) →
    (∀ interval ∈ intervalsOfParts parts, interval.Formed values) →
      (∀ part ∈ parts, ∃ said, onColumn? column part = some said ∧ said.isContradiction = true) →
        allContradictions parts = true
  | [], _, _ => rfl
  | part :: rest, formed, each => by
    rw [intervalsOfParts, List.forall_mem_append] at formed
    obtain ⟨said, given, contradiction⟩ := each part List.mem_cons_self
    rw [allContradictions, isContradiction_of_onColumn? part formed.1 given contradiction,
      allContradictions_of_onColumn? rest formed.2 fun other member =>
        each other (List.mem_cons_of_mem part member), Bool.and_self]

end

/-! ### Conjunctions -/

/-- A conjunction with more parts stays a contradiction. -/
theorem isContradiction_all_mono (each : ∀ part ∈ more, part.Formed values)
    (among : ∀ part ∈ parts, part ∈ more) (contradiction : (all parts).isContradiction = true) :
    (all more).isContradiction = true := by
  rw [isContradiction_all_iff] at contradiction ⊢
  refine contradiction.imp (fun ⟨part, member, one⟩ => ⟨part, among part member, one⟩) ?_
  rintro ⟨column, view, given, nothing⟩
  have eachToo := fun part member => each part (among part member)
  have mentioned : column ∈ (all parts).columns := by
    by_contra silent
    rw [(onColumn?_eq_none_iff _).2 silent] at given
    cases given
  cases said : onColumn? column (all more) with
  | none =>
    rw [onColumn?_eq_none_iff, mem_columns_all] at said
    obtain ⟨part, member, inside⟩ := mem_columns_all.1 mentioned
    exact absurd ⟨part, among part member, inside⟩ said
  | some wider =>
    refine ⟨column, wider, said, ?_⟩
    have formed := formed_onColumn? ordered (formed_all.2 eachToo) given
    rw [formed.isContradiction_iff ordered] at nothing
    rw [(formed_onColumn? ordered (formed_all.2 each) said).isContradiction_iff ordered]
    intro spot admits
    rw [admits_onColumn?_all ordered each said] at admits
    exact nothing spot ((admits_onColumn?_all ordered eachToo given).2 fun part member =>
      admits part (among part member))

section Intervals

variable {intervals : List Interval} (each : ∀ interval ∈ intervals, interval.Formed values)
include each

/-- Where a conjunction of intervals is a contradiction, there is a column on which nothing is admitted by
all of them. -/
theorem exists_column_of_contradiction
    (contradiction : (all (intervals.map interval)).isContradiction = true) :
    ∃ column, (∃ one ∈ intervals, one.column = column) ∧ ∀ spot : Option (Place values),
      ¬ ∀ other ∈ intervals, other.column = column → other.Admits spot := by
  have parts : ∀ part ∈ intervals.map interval, part.Formed values :=
    List.forall_mem_map.2 fun one member => formed_interval.2 (each one member)
  rcases isContradiction_all_iff.1 contradiction with ⟨part, member, one⟩ | ⟨column, view, given, one⟩
  · obtain ⟨value, inside, rfl⟩ := List.mem_map.1 member
    rw [isContradiction] at one
    exact ⟨value.column, ⟨value, inside, rfl⟩, fun spot admits =>
      ((each value inside).isContradiction_iff ordered).1 one spot (admits value inside rfl)⟩
  rw [(formed_onColumn? ordered (formed_all.2 parts) given).isContradiction_iff ordered] at one
  refine ⟨column, ?_, fun spot admits => one spot ((admits_onColumn?_all ordered parts given).2
    fun part member said shown => ?_)⟩
  · by_contra nowhere
    have silent : column ∉ (all (intervals.map interval)).columns := by
      rw [mem_columns_all]
      rintro ⟨_, listed, mentioned⟩
      obtain ⟨value, inside, rfl⟩ := List.mem_map.1 listed
      exact nowhere ⟨value, inside, (mem_columns_interval.1 mentioned).symm⟩
    rw [(onColumn?_eq_none_iff _).2 silent] at given
    cases given
  · obtain ⟨value, inside, rfl⟩ := List.mem_map.1 member
    rw [onColumn?] at shown
    split at shown
    · rename_i same
      cases shown
      exact admits _ inside same
    · cases shown

/-- Where a conjunction of intervals is a contradiction, one of those that they are met to is. -/
theorem exists_isContradiction_metByColumn
    (contradiction : (all (intervals.map interval)).isContradiction = true) :
    ∃ single ∈ metByColumn intervals, single.isContradiction = true := by
  obtain ⟨column, ⟨one, member, here⟩, nothing⟩ :=
    exists_column_of_contradiction ordered each contradiction
  have meets : ∀ {first second : Interval}, second.column = first.column → first.Formed values →
      second.Formed values → (first.meet second).Formed values := fun _ => .meet ordered
  -- The intervals on the column were met to a single one.
  obtain ⟨single, inside, same⟩ : ∃ single ∈ metByColumn intervals, single.column = column := by
    by_contra nowhere
    refine (forall_mem_metByColumn _ (fun other => other.column ≠ column) meets
      (fun {first second} same _ _ => ?_) each).1
        (fun single inside same => nowhere ⟨single, inside, same⟩) one member here
    rw [same]
    exact (and_self_iff).symm
  refine ⟨single, inside,
    ((mem_metByColumn _ meets each single inside).isContradiction_iff ordered).2 fun spot admits => ?_⟩
  refine nothing spot ((forall_mem_metByColumn _ _ meets (fun {first second} same one two => ?_) each).1
    fun other insideToo sameToo => ?_)
  · rw [Interval.admits_meet ordered one.1 two.1, same]
    exact imp_and
  · exact eq_of_ascending ascending_metByColumn inside insideToo (same.trans sameToo.symm) ▸ admits

end Intervals

/-- **A conjunction with a contradiction for a part is one.** -/
theorem isContradiction_all? (each : ∀ part ∈ parts, part.Formed values) (member : part ∈ parts)
    (contradiction : part.isContradiction = true) :
    ∃ found, all? parts = some found ∧ found.isContradiction = true := by
  have flat : ∀ part ∈ parts.flatMap conjuncts, part.Formed values :=
    List.forall_mem_flatMap.2 fun owner inside => formed_conjuncts (each owner inside)
  -- The flattened parts are a contradiction before they are met.
  have whole : (all (parts.flatMap conjuncts)).isContradiction = true := by
    have inside : ∀ piece ∈ part.conjuncts, piece ∈ parts.flatMap conjuncts := fun piece listed =>
      List.mem_flatMap.2 ⟨part, member, listed⟩
    cases part with
    | all pieces => exact isContradiction_all_mono ordered flat inside contradiction
    | _ => exact isContradiction_all_iff.2 (.inl ⟨_, inside _ (List.mem_singleton_self _),
        contradiction⟩)
  cases given : all? parts with
  | none =>
    rw [all?_eq_none_iff.1 given] at whole
    cases whole
  | some found =>
    refine ⟨found, rfl, ?_⟩
    rcases all?_cases given with shape | ⟨_, _, rfl⟩ | ⟨intervals, shape, built⟩
    · rw [shape, isContradiction_all_iff] at whole
      rcases whole with ⟨only, listed, one⟩ | ⟨column, view, shown, one⟩
      · exact List.mem_singleton.1 listed ▸ one
      · rw [onColumn?_all_singleton] at shown
        exact isContradiction_of_onColumn? ordered found
          (flat found (shape ▸ List.mem_singleton_self found)) shown one
    · exact whole
    · rw [shape] at whole flat
      obtain ⟨single, inside, one⟩ := exists_isContradiction_metByColumn ordered
        (fun value inside => formed_interval.1 (flat _ (List.mem_map_of_mem inside))) whole
      have seen : (interval single).isContradiction = true := by rwa [isContradiction]
      rcases built with ⟨only, sole, rfl⟩ | ⟨_, rfl⟩
      · rw [sole, List.mem_singleton] at inside
        exact inside ▸ seen
      · exact isContradiction_all_iff.2 (.inl ⟨_, List.mem_map_of_mem inside, seen⟩)

end Ordered

/-! ### Disjunctions -/

/-- **A disjunction of contradictions is one**, unless flattening leaves nothing of it. -/
theorem isContradiction_any? (nonempty : parts ≠ []) (full : ∀ part ∈ parts, part ≠ any [])
    (each : ∀ part ∈ parts, part.isContradiction = true) :
    ∃ found, any? parts = some found ∧ found.isContradiction = true := by
  have flat : ∀ part ∈ parts.flatMap disjuncts, part.isContradiction = true := by
    refine List.forall_mem_flatMap.2 fun owner inside => ?_
    have contradiction := each owner inside
    cases owner with
    | any pieces =>
      rw [isContradiction] at contradiction
      exact allContradictions_iff.1 contradiction
    | _ => exact List.forall_mem_singleton.2 contradiction
  cases given : any? parts with
  | none =>
    rw [any?_eq_none_iff, List.flatMap_eq_nil_iff] at given
    obtain ⟨part, member⟩ := List.exists_mem_of_ne_nil parts nonempty
    have nothing := given part member
    cases part with
    | any pieces => exact absurd (congrArg any nothing) (full _ member)
    | _ => cases nothing
  | some found =>
    refine ⟨found, rfl, ?_⟩
    rcases any?_cases given with shape | ⟨_, _, rfl⟩ | ⟨first, rest, shape, _, rfl⟩
    · exact flat found (shape ▸ List.mem_singleton_self found)
    · rw [isContradiction]
      exact allContradictions_iff.2 flat
    · have nothing : ∀ next ∈ first :: rest, next.isContradiction = true := by
        intro next member
        have seen := flat (interval next) (shape ▸ List.mem_map_of_mem member)
        rwa [isContradiction] at seen
      rw [isContradiction]
      exact Interval.keeps_foldl Interval.isContradiction_join (nothing first List.mem_cons_self)
        fun next member => nothing next (List.mem_cons_of_mem first member)

/-! ### Contradictions -/

/-- **Contradictions hold for no row, and are not lost in building.** Over values in an order: no row,
with null for some columns, satisfies a constraint that is seen to be a contradiction. Of constraints whose
intervals are as they are built from ranges, a conjunction with a contradiction for a part is one; and so
is a disjunction of contradictions, if there is any and none of them is without parts. -/
theorem contradiction_kept {values : Value → Prop} (ordered : Value.Ordered values) :
    (∀ (tree : Constraint) (row : ColumnId → Value),
      (tree.Fits (fun value => value.isNull = true ∨ values value) fun _ => True) →
      (∀ column ∈ tree.columns, (row column).isNull = true ∨ values (row column)) →
        tree.isContradiction = true → ¬ tree.Holds row) ∧
    ∀ parts : List Constraint,
      (∀ part ∈ parts, part.Formed fun value => value.isNull = true ∨ values value) →
        ((∃ part ∈ parts, part.isContradiction = true) →
          ∃ found, all? parts = some found ∧ found.isContradiction = true) ∧
        (parts ≠ [] → (∀ part ∈ parts, part.isContradiction = true) →
          (∀ part ∈ parts, part ≠ any []) →
            ∃ found, any? parts = some found ∧ found.isContradiction = true) := by
  refine ⟨fun tree row bounds there contradiction holds => ?_, fun parts each =>
    ⟨fun ⟨part, member, one⟩ => isContradiction_all? ordered.orNull each member one,
      fun nonempty each full => isContradiction_any? nonempty full each⟩⟩
  have possible := isContradiction_eq_false ordered.orNull there tree (Fits.mentioned tree bounds) holds
  rw [contradiction] at possible
  cases possible

/-- A price below ten that is above twenty or thirty. -/
def unpriced : Constraint :=
  all [interval ⟨1, [⟨.unbounded, .excluded (.int 10)⟩], false⟩,
    any [interval ⟨1, [⟨.excluded (.int 20), .unbounded⟩], false⟩,
      interval ⟨1, [⟨.excluded (.int 30), .unbounded⟩], false⟩]]

/-- No part of it is a contradiction, yet it is one, beside a stock of three as well, and beside nothing
possible instead. -/
theorem contradiction_kept_unpriced :
    unpriced.isContradiction = true ∧ ¬ unpriced.Holds (fun _ => .int 7) ∧
    (∃ found, all? [interval ⟨2, [.point (.int 3)], false⟩, unpriced] = some found ∧
      found.isContradiction = true) ∧
    ∃ found, any? [unpriced, interval ⟨1, [], false⟩] = some found ∧ found.isContradiction = true := by
  have formed : ∀ part ∈ [interval ⟨2, [.point (.int 3)], false⟩, interval ⟨1, [], false⟩, unpriced],
      part.Formed fun value => value.isNull = true ∨ value.isExact = true := by
    simp [unpriced, Formed, intervals, intervalsOfParts, Interval.Formed, Interval.Fits,
      Interval.Filled, Range.In, Bound.In, Range.point, Range.isEmpty, Value.isExact]
    decide
  have bounds : unpriced.Fits (fun value => value.isNull = true ∨ value.isExact = true)
      fun _ => True := by
    simp [unpriced, fits_all, fits_any, fits_interval, Interval.Fits, Range.In, Bound.In, Value.isExact]
  obtain ⟨sound, kept⟩ := contradiction_kept Value.ordered_exact
  refine ⟨rfl, sound unpriced _ bounds (fun _ _ => .inr rfl) rfl, ?_, ?_⟩
  · exact (kept _ fun part member => formed part (by
      simp only [List.mem_cons, List.not_mem_nil, or_false] at member ⊢
      exact member.imp_right .inr)).1 ⟨unpriced, by simp, rfl⟩
  · exact (kept _ fun part member => formed part (by
      simp only [List.mem_cons, List.not_mem_nil, or_false] at member ⊢
      exact .inr member.symm)).2 (by simp)
        (List.forall_mem_cons.2 ⟨rfl, List.forall_mem_singleton.2 rfl⟩) (by simp [unpriced])

end Constraint

end Cascades
