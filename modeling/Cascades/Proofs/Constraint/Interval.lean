/-
**Intervals allow values.**

An interval allows the values in its ranges, and null where it says so. Its ranges are compared by the
places that they cover, so an interval admits places, or null, and on these meet and join are exact: the
meet admits what both intervals admit, the join what either one admits. A value is one of the places, so
the same goes for values; and an interval that is no contradiction admits something, even where no value
stands.

* `Interval.Allows`: the values that an interval allows; `Interval.Admits`: the places, and null;
* `admits_foldl_meet`, `admits_foldl_join`: meets and joins of several intervals;
* `isContradiction_iff`: a contradiction admits nothing;
* `Value.Meets`, `allows_ofComparison?`: the interval of a comparison;
* `algebra_exact`: normal form, meet and join hold the values that they should, and are normal.
-/

import Cascades.Constraint.Interval
import Cascades.Proofs.Constraint.Place

namespace Cascades

/-! ### Comparisons -/

/-- Whether a comparison is true of values in an order. -/
def BinaryOp.accepts : BinaryOp → Ordering → Bool
  | eq, found => found == .eq
  | notEq, found => found != .eq
  | lt, found => found == .lt
  | ltEq, found => found != .gt
  | gt, found => found == .gt
  | gtEq, found => found != .lt
  | add, _ | sub, _ | mul, _ | div, _ => false

namespace Value

variable {first second : Value} {found : Ordering}

theorem order_of_compare? (compared : compare? first second = some found) :
    order first second = found := by
  rw [order, compared, Option.getD_some]

theorem isNull_of_compare? (compared : compare? first second = some found) :
    first.isNull = false ∧ second.isNull = false := by
  cases first <;> cases second <;> first | exact ⟨rfl, rfl⟩ | cases compared

/-- **Whether a value can be compared with a constant**, unless one of them is null. -/
def Meets (value constant : Value) : Prop :=
  value.isNull = true ∨ constant.isNull = true ∨ ∃ found, compare? value constant = some found

end Value

namespace Interval

/-! ### Values and places -/

/-- **Whether an interval allows a value.** -/
def Allows (interval : Interval) (value : Value) : Prop :=
  if value.isNull then interval.allowsNull = true else ∃ range ∈ interval.ranges, range.Holds value

/-- An interval on one of some columns, with bounds among some values. -/
def Fits (values : Value → Prop) (columns : ColumnId → Prop) (interval : Interval) : Prop :=
  columns interval.column ∧ ∀ range ∈ interval.ranges, range.In values

variable {values : Value → Prop}

/-- **Whether an interval admits a place among values**, or null. -/
def Admits (interval : Interval) : Option (Place values) → Prop
  | none => interval.allowsNull = true
  | some place => ∃ range ∈ interval.ranges, range.Covers place

/-- Whether no range of an interval is empty, as normal form has it. -/
def Filled (interval : Interval) : Prop :=
  ∀ range ∈ interval.ranges, range.isEmpty = false

variable {columns : ColumnId → Prop} {first second interval : Interval} {column : ColumnId}
  {ranges : List Range} {allowsNull : Bool} {value : Value} {spot : Option (Place values)}

theorem fits_ofRanges (there : columns column) (each : ∀ range ∈ ranges, range.In values) :
    (ofRanges column ranges allowsNull).Fits values columns :=
  ⟨there, Range.in_of_mem_normalize each⟩

theorem fits_unbounded (there : columns column) : (unbounded column).Fits values columns :=
  fits_ofRanges there (by simp [Range.in_unbounded])

theorem in_intersections (one : first.Fits values columns) (two : second.Fits values columns) :
    ∀ range ∈ first.ranges.flatMap fun range => second.ranges.filterMap range.intersect?,
      range.In values := by
  intro range member
  obtain ⟨here, inside, member⟩ := List.mem_flatMap.1 member
  obtain ⟨other, insideToo, met⟩ := List.mem_filterMap.1 member
  exact Range.in_of_intersect? (one.2 here inside) (two.2 other insideToo) met

theorem in_append (one : first.Fits values columns) (two : second.Fits values columns) :
    ∀ range ∈ first.ranges ++ second.ranges, range.In values :=
  fun range member => (List.mem_append.1 member).elim (one.2 range) (two.2 range)

theorem fits_meet (one : first.Fits values columns) (two : second.Fits values columns) :
    (first.meet second).Fits values columns :=
  fits_ofRanges one.1 (in_intersections one two)

theorem fits_join (one : first.Fits values columns) (two : second.Fits values columns) :
    (first.join second).Fits values columns :=
  fits_ofRanges one.1 (in_append one two)

/-- A fold of intervals keeps what each step keeps. -/
theorem keeps_foldl {keeps : Interval → Prop} {step : Interval → Interval → Interval}
    {rest : List Interval} (steps : ∀ {first second : Interval}, keeps first → keeps second →
      keeps (step first second)) :
    ∀ {first : Interval}, keeps first → (∀ next ∈ rest, keeps next) →
      keeps (rest.foldl step first) := by
  induction rest with
  | nil => exact fun here _ => here
  | cons next rest ih =>
    exact fun here each => ih (steps here (each next List.mem_cons_self)) fun other member =>
      each other (List.mem_cons_of_mem next member)

/-- An interval that is a contradiction allows nothing. -/
theorem isContradiction_eq_false (allows : interval.Allows value) :
    interval.isContradiction = false := by
  unfold Allows at allows
  unfold isContradiction
  split at allows
  · simp [allows]
  · obtain ⟨range, member, _⟩ := allows
    simp [List.ne_nil_of_mem member]

section Ordered

variable (ordered : Value.Ordered values)
include ordered

/-! ### Meet and join of places -/

theorem filled_ofRanges (each : ∀ range ∈ ranges, range.In values) :
    (ofRanges column ranges allowsNull).Filled :=
  (Range.normal_normalize ordered each).filled

theorem admits_ofRanges (each : ∀ range ∈ ranges, range.In values) :
    (ofRanges column ranges allowsNull).Admits spot ↔
      (⟨column, ranges, allowsNull⟩ : Interval).Admits spot := by
  cases spot with
  | none => exact Iff.rfl
  | some place => exact Range.exists_covers_normalize ordered each

/-- **The meet of two intervals admits what both admit.** -/
theorem admits_meet (one : first.Fits values columns) (two : second.Fits values columns) :
    (first.meet second).Admits spot ↔ first.Admits spot ∧ second.Admits spot := by
  unfold meet
  rw [admits_ofRanges ordered (in_intersections one two)]
  cases spot with
  | none => exact Bool.and_eq_true_iff
  | some place =>
    constructor
    · rintro ⟨range, member, covers⟩
      obtain ⟨here, inside, member⟩ := List.mem_flatMap.1 member
      obtain ⟨other, insideToo, met⟩ := List.mem_filterMap.1 member
      have both := (Range.exists_covers_intersect? ordered (one.2 here inside)
        (two.2 other insideToo)).1 ⟨range, met, covers⟩
      exact ⟨⟨here, inside, both.1⟩, other, insideToo, both.2⟩
    · rintro ⟨⟨here, inside, covers⟩, other, insideToo, coversToo⟩
      obtain ⟨range, met, both⟩ := (Range.exists_covers_intersect? ordered (one.2 here inside)
        (two.2 other insideToo)).2 ⟨covers, coversToo⟩
      exact ⟨range, List.mem_flatMap.2 ⟨here, inside, List.mem_filterMap.2 ⟨other, insideToo, met⟩⟩,
        both⟩

/-- **The join of two intervals admits what either one admits.** -/
theorem admits_join (one : first.Fits values columns) (two : second.Fits values columns) :
    (first.join second).Admits spot ↔ first.Admits spot ∨ second.Admits spot := by
  unfold join
  rw [admits_ofRanges ordered (in_append one two)]
  cases spot with
  | none => exact Bool.or_eq_true_iff
  | some place =>
    show (∃ range ∈ first.ranges ++ second.ranges, range.Covers place) ↔ _
    simp only [List.mem_append, or_and_right, exists_or]
    exact Iff.rfl

theorem admits_foldl_meet {rest : List Interval} : ∀ {first : Interval},
    first.Fits values columns → (∀ next ∈ rest, next.Fits values columns) →
      ((rest.foldl meet first).Admits spot ↔ ∀ interval ∈ first :: rest, interval.Admits spot) := by
  induction rest with
  | nil => simp
  | cons next rest ih =>
    intro first fits each
    have following := each next List.mem_cons_self
    have others := fun other member => each other (List.mem_cons_of_mem next member)
    rw [List.foldl_cons, ih (fits_meet fits following) others, List.forall_mem_cons,
      admits_meet ordered fits following, List.forall_mem_cons, List.forall_mem_cons, and_assoc]

theorem admits_foldl_join {rest : List Interval} : ∀ {first : Interval},
    first.Fits values columns → (∀ next ∈ rest, next.Fits values columns) →
      ((rest.foldl join first).Admits spot ↔ ∃ interval ∈ first :: rest, interval.Admits spot) := by
  induction rest with
  | nil => simp
  | cons next rest ih =>
    intro first fits each
    have following := each next List.mem_cons_self
    have others := fun other member => each other (List.mem_cons_of_mem next member)
    have both : (first.join next).Admits spot ↔ first.Admits spot ∨ next.Admits spot :=
      admits_join ordered fits following
    rw [List.foldl_cons, ih (fits_join fits following) others]
    simp only [List.mem_cons, exists_eq_or_imp, both, or_assoc]

/-- **A contradiction is an interval that admits nothing**: no place, and not null, either. -/
theorem isContradiction_iff (fits : interval.Fits values columns) (filled : interval.Filled) :
    interval.isContradiction = true ↔ ∀ spot : Option (Place values), ¬ interval.Admits spot := by
  rw [isContradiction, Bool.and_eq_true_iff, List.isEmpty_iff, Bool.not_eq_true']
  constructor
  · rintro ⟨empty, null⟩ (_ | place) admits
    · rw [Admits, null] at admits
      cases admits
    · obtain ⟨range, member, _⟩ := admits
      rw [empty] at member
      exact List.not_mem_nil member
  · intro nothing
    refine ⟨List.eq_nil_iff_forall_not_mem.2 fun range member => ?_,
      Bool.eq_false_iff.2 (nothing none)⟩
    obtain ⟨place, covers⟩ :=
      (Range.isEmpty_eq_false_iff ordered (fits.2 range member)).1 (filled range member)
    exact nothing (some place) ⟨range, member, covers⟩

/-! ### Values as places -/

omit ordered in
/-- Where a value stands: on its place, or null nowhere. -/
theorem exists_spot (ordered : Value.Ordered values) (there : values value) :
    ∃ spot : Option (Place values), ∀ {columns : ColumnId → Prop} {interval : Interval},
      interval.Fits values columns → (interval.Allows value ↔ interval.Admits spot) := by
  by_cases null : value.isNull = true
  · exact ⟨none, fun _ => by rw [Allows, if_pos null, Admits]⟩
  · refine ⟨some (.on ordered there), fun fits => ?_⟩
    rw [Allows, if_neg null]
    exact exists_congr fun range => and_congr_right fun member =>
      (Range.covers_on ordered there (fits.2 range member)).symm

theorem allows_meet (one : first.Fits values columns) (two : second.Fits values columns)
    (there : values value) :
    (first.meet second).Allows value ↔ first.Allows value ∧ second.Allows value := by
  obtain ⟨spot, stands⟩ := exists_spot ordered there
  rw [stands (fits_meet one two), stands one, stands two]
  exact admits_meet ordered one two

theorem allows_join (one : first.Fits values columns) (two : second.Fits values columns)
    (there : values value) :
    (first.join second).Allows value ↔ first.Allows value ∨ second.Allows value := by
  obtain ⟨spot, stands⟩ := exists_spot ordered there
  rw [stands (fits_join one two), stands one, stands two]
  exact admits_join ordered one two

/-- The meet of several intervals allows what each of them allows. -/
theorem allows_foldl_meet {rest : List Interval} (fits : first.Fits values columns)
    (each : ∀ next ∈ rest, next.Fits values columns) (there : values value) :
    (rest.foldl meet first).Allows value ↔ ∀ interval ∈ first :: rest, interval.Allows value := by
  obtain ⟨spot, stands⟩ := exists_spot ordered there
  rw [stands (keeps_foldl fits_meet fits each), admits_foldl_meet ordered fits each]
  exact forall₂_congr fun interval member =>
    (stands (List.forall_mem_cons.2 ⟨fits, each⟩ interval member)).symm

/-- The join of several intervals allows what one of them allows. -/
theorem allows_foldl_join {rest : List Interval} (fits : first.Fits values columns)
    (each : ∀ next ∈ rest, next.Fits values columns) (there : values value) :
    (rest.foldl join first).Allows value ↔ ∃ interval ∈ first :: rest, interval.Allows value := by
  obtain ⟨spot, stands⟩ := exists_spot ordered there
  rw [stands (keeps_foldl fits_join fits each), admits_foldl_join ordered fits each]
  exact exists_congr fun interval => and_congr_right fun member =>
    (stands (List.forall_mem_cons.2 ⟨fits, each⟩ interval member)).symm

theorem allows_ofRanges (each : ∀ range ∈ ranges, range.In values) (there : values value) :
    (ofRanges column ranges allowsNull).Allows value ↔
      (⟨column, ranges, allowsNull⟩ : Interval).Allows value := by
  obtain ⟨spot, stands⟩ := exists_spot ordered there
  have fits : (⟨column, ranges, allowsNull⟩ : Interval).Fits values fun _ => True := ⟨trivial, each⟩
  have formed : (ofRanges column ranges allowsNull).Fits values fun _ => True :=
    fits_ofRanges trivial each
  rw [stands formed, stands fits, admits_ofRanges ordered each]

theorem allows_unbounded (there : values value) : (unbounded column).Allows value := by
  rw [unbounded, allows_ofRanges ordered (by simp [Range.in_unbounded]) there, Allows]
  split
  · rfl
  · exact ⟨_, List.mem_singleton_self _, Range.holds_unbounded⟩

theorem allows_notNull (there : values value) :
    (notNull column).Allows value ↔ value.isNull = false := by
  rw [notNull, allows_ofRanges ordered (by simp [Range.in_unbounded]) there, Allows]
  split
  · rename_i null
    simp [null]
  · rename_i some
    simp [some, Range.holds_unbounded]

theorem allows_nullOnly (there : values value) :
    (nullOnly column).Allows value ↔ value.isNull = true := by
  rw [nullOnly, allows_ofRanges ordered (by simp) there, Allows]
  split <;> simp [*]

/-! ### Comparisons with constants -/

variable {operator : BinaryOp} {constant : Value} {found : Ordering}

omit ordered in
/-- The interval of a comparison never allows null, and nothing at all if the constant is null. -/
theorem ofComparison?_cases (bound : values constant)
    (given : ofComparison? column operator constant = some interval) :
    ∃ ranges, interval = ofRanges column ranges false ∧ (∀ range ∈ ranges, range.In values) ∧
      (constant.isNull = true → ranges = []) := by
  unfold ofComparison? at given
  split at given
  · cases given
    exact ⟨[], rfl, List.forall_mem_nil _, fun _ => rfl⟩
  · rename_i some
    obtain ⟨ranges, shape, rfl⟩ := Option.map_eq_some_iff.1 given
    refine ⟨ranges, rfl, ?_, fun null => absurd null some⟩
    cases operator <;> cases shape <;> simp [Range.In, Range.point, Bound.In, bound]

omit ordered in
theorem fits_ofComparison? (there : columns column) (bound : values constant)
    (given : ofComparison? column operator constant = some interval) :
    interval.Fits values columns := by
  obtain ⟨ranges, rfl, bounds, _⟩ := ofComparison?_cases bound given
  exact fits_ofRanges there bounds

omit ordered in
theorem column_ofComparison? (given : ofComparison? column operator constant = some interval) :
    interval.column = column :=
  have fits : interval.Fits (fun _ => True) (· = column) := fits_ofComparison? rfl trivial given
  fits.1

omit ordered in
theorem exists_ofComparison? (column : ColumnId) (constant : Value)
    (comparing : operator.isComparison = true) :
    ∃ interval, ofComparison? column operator constant = some interval := by
  unfold ofComparison?
  split
  · exact ⟨_, rfl⟩
  · cases operator <;> cases comparing <;> exact ⟨_, rfl⟩

/-- The interval of a comparison allows a value that compares with the constant if the comparison
accepts the result. -/
theorem allows_ofComparison?_iff (there : values value) (bound : values constant)
    (compared : Value.compare? value constant = some found)
    (given : ofComparison? column operator constant = some interval) :
    interval.Allows value ↔ operator.accepts found = true := by
  obtain ⟨present, notNull⟩ := Value.isNull_of_compare? compared
  have order := Value.order_of_compare? compared
  have back := ordered.swap there bound
  rw [order] at back
  unfold ofComparison? at given
  rw [notNull] at given
  obtain ⟨ranges, shape, rfl⟩ := Option.map_eq_some_iff.1 given
  have bounds : ∀ range ∈ ranges, range.In values := by
    cases operator <;> cases shape <;> simp [Range.In, Range.point, Bound.In, bound]
  rw [allows_ofRanges ordered bounds there, Allows, present]
  cases operator <;> cases shape <;> cases found <;>
    simp [BinaryOp.accepts, Range.Holds, Range.point, Bound.Lower, Bound.Upper, order, back]

theorem present_of_allows (there : values value) (bound : values constant)
    (given : ofComparison? column operator constant = some interval)
    (allows : interval.Allows value) : value.isNull = false ∧ constant.isNull = false := by
  obtain ⟨ranges, rfl, bounds, empty⟩ := ofComparison?_cases bound given
  rw [allows_ofRanges ordered bounds there, Allows] at allows
  split at allows
  · cases allows
  · rename_i present
    refine ⟨Bool.eq_false_iff.2 present, Bool.eq_false_iff.2 fun null => ?_⟩
    obtain ⟨range, member, _⟩ := allows
    rw [empty null] at member
    exact List.not_mem_nil member

/-- **The interval of a comparison allows the values of which it is true**, and, of those that meet the
constant, no others. -/
theorem allows_ofComparison? (there : values value) (bound : values constant)
    (given : ofComparison? column operator constant = some interval) :
    ((∃ found, Value.compare? value constant = some found ∧ operator.accepts found = true) →
      interval.Allows value) ∧
    (value.Meets constant → interval.Allows value →
      ∃ found, Value.compare? value constant = some found ∧ operator.accepts found = true) := by
  constructor
  · rintro ⟨found, compared, accepted⟩
    exact (allows_ofComparison?_iff ordered there bound compared given).2 accepted
  · intro meets allows
    obtain ⟨present, some⟩ := present_of_allows ordered there bound given allows
    rcases meets with null | null | ⟨found, compared⟩
    · rw [present] at null
      cases null
    · rw [some] at null
      cases null
    · exact ⟨found, compared, (allows_ofComparison?_iff ordered there bound compared given).1 allows⟩

end Ordered

/-! ### Exactness -/

/-- **Normal form is normal, and set algebra is exact.** Over values in an order, the ranges of an
interval are not empty, in strictly ascending order and apart from each other, whatever ranges it is
built from, and hold the values that those hold. Two intervals on one column have a meet and a join, both
in normal form: the meet allows the values that both allow, the join those that either one allows, and
so for null. -/
theorem algebra_exact (ordered : Value.Ordered values) :
    (∀ (column : ColumnId) (ranges : List Range) (allowsNull : Bool),
      (∀ range ∈ ranges, range.In values) →
        Range.Normal (ofRanges column ranges allowsNull).ranges ∧
        ((ofRanges column ranges allowsNull).ranges.Pairwise fun first second =>
          ∀ value, values value → ¬ (first.Holds value ∧ second.Holds value)) ∧
        ∀ value, values value →
          ((∃ range ∈ (ofRanges column ranges allowsNull).ranges, range.Holds value) ↔
            ∃ range ∈ ranges, range.Holds value)) ∧
    ∀ first second : Interval, first.column = second.column →
      (∀ range ∈ first.ranges, range.In values) → (∀ range ∈ second.ranges, range.In values) →
        ∃ met joined, first.intersect second = .ok met ∧ first.union second = .ok joined ∧
          met.column = first.column ∧ joined.column = first.column ∧
          Range.Normal met.ranges ∧ Range.Normal joined.ranges ∧
          ∀ value, value.isNull = true ∨ values value →
            (met.Allows value ↔ first.Allows value ∧ second.Allows value) ∧
            (joined.Allows value ↔ first.Allows value ∨ second.Allows value) := by
  constructor
  · intro column ranges allowsNull each
    have normal := Range.normal_normalize ordered each
    exact ⟨normal, normal.disjoint ordered (Range.in_of_mem_normalize each),
      fun value there => Range.exists_holds_normalize ordered there each⟩
  · intro first second same inFirst inSecond
    have one : first.Fits values fun _ => True := ⟨trivial, inFirst⟩
    have two : second.Fits values fun _ => True := ⟨trivial, inSecond⟩
    refine ⟨first.meet second, first.join second, if_pos same, if_pos same, rfl, rfl,
      Range.normal_normalize ordered (in_intersections one two),
      Range.normal_normalize ordered (in_append one two), ?_⟩
    rintro value (null | there)
    · simp only [Allows, if_pos null]
      exact ⟨Bool.and_eq_true_iff, Bool.or_eq_true_iff⟩
    · exact ⟨allows_meet ordered one two there, allows_join ordered one two there⟩

/-- Ranges that touch, an empty one and one inside another one. -/
def touching : List Range :=
  [⟨.included (.int 5), .excluded (.int 9)⟩, ⟨.unbounded, .included (.int 5)⟩,
    ⟨.excluded (.int 20), .excluded (.int 20)⟩, ⟨.excluded (.int 7), .included (.int 8)⟩]

/-- The touching ranges are one. Nine is not in it, so with nine or null it has no value in common, and
together they reach nine. -/
theorem algebra_exact_touching :
    (ofRanges 1 touching false).ranges = [⟨.unbounded, .excluded (.int 9)⟩] ∧
    Range.Normal (ofRanges 1 touching false).ranges ∧
    ∃ met joined, (ofRanges 1 touching false).intersect ⟨1, [.point (.int 9)], true⟩ = .ok met ∧
      (ofRanges 1 touching false).union ⟨1, [.point (.int 9)], true⟩ = .ok joined ∧
      met.isContradiction = true ∧ joined.ranges = [⟨.unbounded, .included (.int 9)⟩] ∧
      Range.Normal joined.ranges ∧ joined.Allows .null ∧ joined.Allows (.int 9) := by
  have inside : ∀ range ∈ touching, range.In fun value => value.isExact = true := by
    simp [touching, Range.In, Bound.In, Value.isExact]
  have point : ∀ range ∈ [Range.point (.int 9)], range.In fun value => value.isExact = true := by
    simp [Range.point, Range.In, Bound.In, Value.isExact]
  obtain ⟨formed, algebra⟩ := algebra_exact Value.ordered_exact
  obtain ⟨met, joined, isMet, isJoined, _, _, _, normal, exact⟩ :=
    algebra (ofRanges 1 touching false) ⟨1, [.point (.int 9)], true⟩ rfl
      (Range.in_of_mem_normalize inside) point
  have null : joined.Allows .null := (exact .null (.inl rfl)).2.2 (.inr rfl)
  have same : Value.order (.int 9) (.int 9) ≠ .gt := by decide
  have nine : joined.Allows (.int 9) := (exact (.int 9) (.inr rfl)).2.2
    (.inr ⟨_, List.mem_singleton_self _, same, same⟩)
  cases isMet
  cases isJoined
  exact ⟨rfl, (formed 1 touching false inside).1, _, _, rfl, rfl, rfl, rfl, normal, null, nine⟩

end Interval

end Cascades
