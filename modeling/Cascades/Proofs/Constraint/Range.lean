/-
**Ranges hold values.**

A range holds the values between its bounds. The values are those on which the order is a total
preorder; null may always stand among them.

* `Value.Ordered`: the values on which the order is a total preorder; `Value.ordered_exact`: values
  without doubles are such;
* `Range.Holds`: the values of a range;
* `in_of_intersect?`, `in_of_mem_normalize`: intersection and normal form take their bounds from the
  ranges that they are made from.
-/

import Cascades.Constraint.Range
import Mathlib.Order.Compare

namespace Cascades

/-! ### The order of values -/

namespace Value

/-- **Values on which the order is a total preorder.** -/
structure Ordered (values : Value → Prop) : Prop where
  swap : ∀ {first second : Value}, values first → values second →
    order second first = (order first second).swap
  trans : ∀ {first second third : Value}, values first → values second → values third →
    order first second ≠ .gt → order second third ≠ .gt → order first third ≠ .gt

variable {values : Value → Prop} (ordered : Ordered values) {first second third : Value}

namespace Ordered

include ordered

theorem gt_iff (one : values first) (two : values second) :
    order first second = .gt ↔ order second first = .lt := by
  rw [ordered.swap one two]
  cases order first second <;> simp

theorem not_lt_iff (one : values first) (two : values second) :
    order first second ≠ .lt ↔ order second first ≠ .gt := by
  rw [ordered.swap one two]
  cases order first second <;> simp

theorem lt_trans (one : values first) (two : values second) (three : values third)
    (below : order first second = .lt) (atMost : order second third ≠ .gt) :
    order first third = .lt := by
  by_contra reaches
  have back := (ordered.not_lt_iff one three).1 reaches
  have again := ordered.trans two three one atMost back
  exact (ordered.not_lt_iff one two).2 again below

theorem trans_lt (one : values first) (two : values second) (three : values third)
    (atMost : order first second ≠ .gt) (below : order second third = .lt) :
    order first third = .lt := by
  by_contra reaches
  have back := (ordered.not_lt_iff one three).1 reaches
  have again := ordered.trans three one two back atMost
  exact (ordered.not_lt_iff two three).2 again below

/-- What is not below a value stands above everything that is not above the value, or as it stands to
the value. -/
theorem gt_or_eq (one : values first) (two : values second) (three : values third)
    (atMost : order second third ≠ .gt) (reaches : order first third ≠ .lt) :
    order first second = .gt ∨ order first second = order first third := by
  have further := ordered.trans two three one atMost ((ordered.not_lt_iff one three).1 reaches)
  cases found : order first second with
  | gt => exact .inl rfl
  | lt => exact absurd found ((ordered.not_lt_iff one two).2 further)
  | eq =>
    cases same : order first third with
    | lt => exact absurd same reaches
    | eq => exact .inr rfl
    | gt =>
      have under := ordered.trans_lt two three one atMost ((ordered.gt_iff one three).1 same)
      rw [(ordered.gt_iff one two).2 under] at found
      cases found

end Ordered

theorem order_null : order null second = if second.isNull then .eq else .lt := by
  cases second <;> rfl

theorem order_null_right : order first null = if first.isNull then .eq else .gt := by
  cases first <;> rfl

/-- **Null is in order with all values**: it comes first. -/
theorem Ordered.orNull (ordered : Ordered values) :
    Ordered fun value => value.isNull = true ∨ values value := by
  have nothing : ∀ {value : Value}, value.isNull = true → value = null := by
    intro value isNull
    cases value <;> first | rfl | cases isNull
  constructor
  · rintro first second (one | one) (two | two)
    · rw [nothing one, nothing two]
      rfl
    · rw [nothing one, order_null, order_null_right]
      cases second.isNull <;> rfl
    · rw [nothing two, order_null, order_null_right]
      cases first.isNull <;> rfl
    · exact ordered.swap one two
  · intro first second third one two three below above
    by_cases lowest : first.isNull = true
    · rw [nothing lowest, order_null]
      cases third.isNull <;> simp
    -- A value above one that is not null is not null.
    have rises : ∀ {low high : Value}, low.isNull ≠ true → order low high ≠ .gt →
        high.isNull ≠ true := by
      intro low high some atMost isNull
      rw [nothing isNull, order_null_right, if_neg some] at atMost
      exact atMost rfl
    have middle := rises lowest below
    exact ordered.trans (one.resolve_left lowest) (two.resolve_left middle)
      (three.resolve_left (rises middle above)) below above

/-- Whether a value is something else than a double. -/
def isExact : Value → Bool
  | float _ => false
  | _ => true

/-- **Values without doubles are ordered.** -/
theorem ordered_exact : Ordered fun value => value.isExact = true where
  swap {first second} one two := by
    cases first <;> cases second <;> cases one <;> cases two <;>
      simp only [order, compare?, Option.getD_some, Option.getD_none] <;>
      exact Std.OrientedCmp.eq_swap
  trans {first second third} one two three below above := by
    have atMost : ∀ {α : Type} [Ord α] [Std.TransOrd α] {first second third : α},
        compare first second ≠ .gt → compare second third ≠ .gt → compare first third ≠ .gt := by
      intro α _ _ first second third low high
      exact Ordering.ne_gt_iff_isLE.2 (Std.TransCmp.isLE_trans (Ordering.ne_gt_iff_isLE.1 low)
        (Ordering.ne_gt_iff_isLE.1 high))
    cases first <;> cases second <;> cases third <;> cases one <;> cases two <;> cases three <;>
      simp only [order, compare?, Option.getD_some, Option.getD_none] at below above ⊢ <;>
      first
      | exact atMost below above
      | exact below
      | exact above
      | exact absurd rfl below
      | exact absurd rfl above

end Value

/-! ### Values between bounds -/

namespace Bound

/-- Whether a value is not below a lower bound. -/
def Lower : Bound → Value → Prop
  | unbounded, _ => True
  | included bound, value => Value.order bound value ≠ .gt
  | excluded bound, value => Value.order bound value = .lt

/-- Whether a value is not above an upper bound. -/
def Upper : Bound → Value → Prop
  | unbounded, _ => True
  | included bound, value => Value.order value bound ≠ .gt
  | excluded bound, value => Value.order value bound = .lt

/-- Whether the value of a bound, if there is one, is among some values. -/
def In (values : Value → Prop) : Bound → Prop
  | unbounded => True
  | included value | excluded value => values value

end Bound

namespace Range

/-- **Whether a value lies between the bounds of a range.** -/
def Holds (range : Range) (value : Value) : Prop :=
  range.lower.Lower value ∧ range.upper.Upper value

/-- Whether the bounds of a range are among some values. -/
def In (values : Value → Prop) (range : Range) : Prop :=
  range.lower.In values ∧ range.upper.In values

theorem holds_unbounded {value : Value} : unbounded.Holds value := ⟨trivial, trivial⟩

theorem in_unbounded {values : Value → Prop} : unbounded.In values := ⟨trivial, trivial⟩

variable {values : Value → Prop} {range first second : Range} {value : Value}

/-- The range from the later start of two ranges to the earlier end. -/
def overlap (first second : Range) : Range :=
  ⟨if Bound.orderLower first.lower second.lower == .lt then second.lower else first.lower,
    if Bound.orderUpper first.upper second.upper == .gt then second.upper else first.upper⟩

theorem intersect?_eq :
    first.intersect? second =
      if (first.overlap second).isEmpty then none else some (first.overlap second) := rfl

theorem in_overlap (one : first.In values) (two : second.In values) :
    (first.overlap second).In values :=
  ⟨by unfold overlap; dsimp only; split; exacts [two.1, one.1],
    by unfold overlap; dsimp only; split; exacts [two.2, one.2]⟩

theorem in_of_intersect? (one : first.In values) (two : second.In values)
    (met : first.intersect? second = some range) : range.In values := by
  rw [intersect?_eq] at met
  obtain ⟨_, met⟩ := Option.ite_none_left_eq_some.1 met
  exact Option.some.inj met ▸ in_overlap one two

/-! ### Normal form -/

theorem mem_insertByLower {ranges : List Range} :
    range ∈ insertByLower first ranges ↔ range = first ∨ range ∈ ranges := by
  induction ranges with
  | nil => simp [insertByLower]
  | cons head tail ih =>
    unfold insertByLower
    split
    · rw [List.mem_cons, ih, List.mem_cons, or_left_comm]
    · rw [List.mem_cons]

theorem mem_sortByLower {ranges : List Range} : range ∈ sortByLower ranges ↔ range ∈ ranges := by
  induction ranges with
  | nil => rfl
  | cons head tail ih => rw [sortByLower, List.foldr_cons, mem_insertByLower, List.mem_cons, ← ih,
      sortByLower]

/-- The ranges that are joined to a normal form. -/
theorem mem_sortByLower_filter {ranges : List Range} :
    range ∈ sortByLower (ranges.filter fun range => !range.isEmpty) ↔
      range ∈ ranges ∧ range.isEmpty = false := by
  rw [mem_sortByLower, List.mem_filter, Bool.not_eq_true']

/-- The range from the start of one range to the later end of two. -/
def stretch (current next : Range) : Range :=
  ⟨current.lower,
    if Bound.orderUpper next.upper current.upper == .gt then next.upper else current.upper⟩

theorem mergeFrom_cons {current next : Range} {rest : List Range} :
    mergeFrom current (next :: rest) =
      if current.connects next then mergeFrom (current.stretch next) rest
      else current :: mergeFrom next rest := rfl

theorem in_stretch {current next : Range} (one : current.In values) (two : next.In values) :
    (current.stretch next).In values :=
  ⟨one.1, by unfold stretch; dsimp only; split; exacts [two.2, one.2]⟩

theorem in_of_mem_mergeFrom {ranges : List Range} : ∀ {current : Range}, current.In values →
    (∀ range ∈ ranges, range.In values) → ∀ range ∈ mergeFrom current ranges, range.In values := by
  induction ranges with
  | nil =>
    intro current inside _ range member
    rw [mergeFrom, List.mem_singleton] at member
    exact member ▸ inside
  | cons next rest ih =>
    intro current inside each
    have following := each next List.mem_cons_self
    have others := fun range member => each range (List.mem_cons_of_mem next member)
    rw [mergeFrom_cons]
    split
    · exact ih (in_stretch inside following) others
    · intro range member
      rcases List.mem_cons.1 member with rfl | member
      · exact inside
      · exact ih following others range member

/-- The bounds of a normal form are bounds of the ranges that it is made from. -/
theorem in_of_mem_normalize {ranges : List Range} (each : ∀ range ∈ ranges, range.In values) :
    ∀ range ∈ normalize ranges, range.In values := by
  have sorted : ∀ range ∈ sortByLower (ranges.filter fun range => !range.isEmpty),
      range.In values := fun range member => each range (mem_sortByLower_filter.1 member).1
  unfold normalize merge
  split
  · simp
  · rename_i first rest shape
    rw [shape] at sorted
    exact in_of_mem_mergeFrom (sorted first List.mem_cons_self)
      fun range member => sorted range (List.mem_cons_of_mem first member)

end Range

end Cascades
