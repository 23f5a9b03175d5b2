/-
**Values are in order but for clashes.**

Two whole numbers are compared exactly, but a whole number and a double are compared as doubles. So two
different whole numbers with the same nearest double are both equal to that double, and the order is not
transitive on the three. Nothing else stands against it: the order of other values is that of their
levels, in which whole numbers are doubles, and whole numbers keep their order when they become doubles.

* `level`: a value with the place of a double for every number; `order_level`, `level_mono`;
* `Clash`: two whole numbers and a double between them; `order_ne_gt_of_not_clash`: where there is none
  the order is transitive; `order_not_transitive`: where there is one;
* `order_exact`: the order is a total preorder, and bounds are sorted and ranges joined, exactly where
  no clash is.
-/

import Cascades.Proofs.Constraint.Place
import Cascades.Proofs.Double.Rounding

namespace Cascades.Value

open Double

variable {values : Value → Prop} {first second third : Value}

/-! ### Levels -/

/-- A value with the place of the nearest double for a whole number, and that of the double for a double. -/
def level : Value → Value
  | int value => int (rank (ofInt value))
  | float value => int (rank value)
  | value => value

/-- Whether a value is a whole number. -/
def isInt : Value → Bool
  | int _ => true
  | _ => false

theorem isExact_level : first.level.isExact = true := by
  cases first <;> rfl

/-- **Values are compared as their levels are**, but for two whole numbers. -/
theorem order_level (apart : ¬ (first.isInt = true ∧ second.isInt = true)) :
    order first second = order first.level second.level := by
  cases first <;> cases second <;> first | rfl | exact absurd ⟨rfl, rfl⟩ apart

/-- Levels keep the order. -/
theorem level_mono (atMost : order first second ≠ .gt) : order first.level second.level ≠ .gt := by
  by_cases whole : first.isInt = true ∧ second.isInt = true
  · cases first <;> cases whole.1
    cases second <;> cases whole.2
    exact Int.compare_ne_gt.2 (rank_ofInt_mono (Int.compare_ne_gt.1 atMost))
  · rwa [← order_level whole]

/-- **The order turns around** with its values. -/
theorem order_swap (first second : Value) : order second first = (order first second).swap := by
  by_cases whole : first.isInt = true ∧ second.isInt = true
  · cases first <;> cases whole.1
    cases second <;> cases whole.2
    exact Std.OrientedOrd.eq_swap (α := Int)
  · rw [order_level whole, order_level fun both => whole both.symm]
    exact ordered_exact.swap isExact_level isExact_level

/-! ### Clashes -/

/-- **A clash**: a whole number, a double and a lesser whole number, where the double is the nearest one to
both. -/
inductive Clash : Value → Value → Value → Prop
  | numbers {high low : Int} {double : Float} (below : low < high) (upper : rank (ofInt high) = rank double)
      (lower : rank double = rank (ofInt low)) : Clash (.int high) (.float double) (.int low)

/-- The order is not transitive where values clash. -/
theorem Clash.order_eq (clash : Clash first second third) :
    order first second = .eq ∧ order second third = .eq ∧ order first third = .gt := by
  obtain ⟨below, upper, lower⟩ := clash
  exact ⟨Int.compare_eq_eq.2 upper, Int.compare_eq_eq.2 lower, Int.compare_eq_gt.2 below⟩

/-- **Where values do not clash the order is transitive**: their levels are in order, and only for two whole
numbers this does not tell how they compare. -/
theorem order_ne_gt_of_not_clash (apart : ¬ Clash first second third) (below : order first second ≠ .gt)
    (above : order second third ≠ .gt) : order first third ≠ .gt := by
  have levels : order first.level third.level ≠ .gt :=
    ordered_exact.trans isExact_level isExact_level isExact_level (level_mono below) (level_mono above)
  by_cases whole : first.isInt = true ∧ third.isInt = true
  · cases first <;> cases whole.1
    cases third <;> cases whole.2
    rename_i first third
    refine Int.compare_ne_gt.2 (Int.not_lt.1 fun turned => ?_)
    have back := rank_ofInt_mono (Int.le_of_lt turned)
    cases second with
    | int second =>
      exact Int.not_le.2 turned (Int.le_trans (Int.compare_ne_gt.1 below) (Int.compare_ne_gt.1 above))
    | float second =>
      have one : rank (ofInt first) ≤ rank second := Int.compare_ne_gt.1 below
      have two : rank second ≤ rank (ofInt third) := Int.compare_ne_gt.1 above
      exact apart (.numbers turned (by omega) (by omega))
    | null => exact below rfl
    | bool => exact below rfl
    | text => exact above rfl
    | date => exact above rfl
  · rwa [order_level whole]

/-- **Values are in order exactly where none of them clash.** -/
theorem ordered_iff : Ordered values ↔
    ∀ first second third, values first → values second → values third → ¬ Clash first second third := by
  constructor
  · intro ordered first second third one two three clash
    obtain ⟨below, above, turned⟩ := clash.order_eq
    exact ordered.trans one two three (by simp [below]) (by simp [above]) turned
  · intro apart
    exact ⟨fun _ _ => order_swap _ _,
      fun one two three => order_ne_gt_of_not_clash (apart _ _ _ one two three)⟩

/-- Only whole numbers with more than fifty-three bits clash. -/
theorem Clash.large {high low : Int} (clash : Clash (.int high) second (.int low)) :
    2 ^ 53 < max high.natAbs low.natAbs := by
  obtain ⟨below, upper, lower⟩ := clash
  refine Nat.lt_of_not_le fun small => ?_
  have apart := rank_ofInt_strictMono below (Nat.le_trans (Nat.le_max_right _ _) small)
    (Nat.le_trans (Nat.le_max_left _ _) small)
  omega

/-! ### The order -/

/-- **The order of values is a total preorder but for clashes.** -/
theorem order_exact (values : Value → Prop) :
    -- It turns around with its values, and it is not transitive just where values clash.
    ((∀ first second : Value, order second first = (order first second).swap) ∧
      ∀ first second third : Value,
        (order first second ≠ .gt ∧ order second third ≠ .gt ∧ order first third = .gt) ↔
          Clash first second third) ∧
    -- Whole numbers that clash have more than fifty-three bits.
    (∀ (high low : Int) (double : Value), Clash (.int high) double (.int low) →
      2 ^ 53 < max high.natAbs low.natAbs) ∧
    -- Values are in order just where none of them clash; then ranges with such bounds are sorted, and joined
    -- without a loss.
    (Ordered values ↔
      ∀ first second third, values first → values second → values third → ¬ Clash first second third) ∧
    (Ordered values → ∀ ranges : List Range, (∀ range ∈ ranges, range.In values) →
      Range.Ascending (Range.sortByLower ranges) ∧ Range.Normal (Range.normalize ranges) ∧
        ∀ value, values value → ((∃ range ∈ Range.normalize ranges, range.Holds value) ↔
          ∃ range ∈ ranges, range.Holds value)) := by
  refine ⟨⟨order_swap, fun first second third => ⟨?_, ?_⟩⟩, fun _ _ _ => Clash.large, ordered_iff,
    fun ordered ranges each => ?_⟩
  · rintro ⟨below, above, turned⟩
    by_contra apart
    exact order_ne_gt_of_not_clash apart below above turned
  · intro clash
    obtain ⟨below, above, turned⟩ := clash.order_eq
    exact ⟨by simp [below], by simp [above], turned⟩
  · exact ⟨Range.ascending_sortByLower ordered each, Range.normal_normalize ordered each,
      fun value there => Range.exists_holds_normalize ordered there each⟩

/-- Whether a value is a whole number of at most fifty-three bits, two to the power of fifty-three, or no whole
number. -/
def IsShort (value : Value) : Prop := ∀ number : Int, value = .int number → number.natAbs ≤ 2 ^ 53

/-- Short numbers, whole or not, do not clash, and two ranges of them that touch are one. -/
theorem order_exact_isShort :
    Ordered IsShort ∧
      Range.Normal (Range.normalize [⟨.included (.int 3), .excluded (.int 9007199254740992)⟩,
        ⟨.excluded (.float 2.5), .included (.int 3)⟩]) ∧
      Range.normalize [⟨.included (.int 3), .excluded (.int 9007199254740992)⟩,
        ⟨.excluded (.float 2.5), .included (.int 3)⟩] =
          [⟨.excluded (.float 2.5), .excluded (.int 9007199254740992)⟩] := by
  have short : Ordered IsShort := by
    refine (order_exact IsShort).2.2.1.2 fun first second third one _ three clash => ?_
    obtain ⟨below, upper, lower⟩ := clash
    have long := (order_exact IsShort).2.1 _ _ _ (.numbers below upper lower)
    have high := one _ rfl
    have low := three _ rfl
    omega
  have whole : ∀ {number : Int}, number.natAbs ≤ 2 ^ 53 → IsShort (.int number) := by
    intro number few _ same
    cases same
    exact few
  refine ⟨short, ((order_exact IsShort).2.2.2 short _ fun range member => ?_).2.1, rfl⟩
  rcases List.mem_cons.1 member with rfl | member
  · exact ⟨whole (by decide), whole (by decide)⟩
  · obtain rfl := List.mem_singleton.1 member
    exact ⟨nofun, whole (by decide)⟩

/-- **The order is not transitive** on two whole numbers and the double that is the nearest one to both. The
range from the greater one to the double and the range up to the lesser one meet or not as they are put, and a
range from the double to the lesser number loses it when it is joined to the greater one. -/
theorem order_not_transitive :
    (¬ ∀ first second third : Value,
      order first second ≠ .gt → order second third ≠ .gt → order first third ≠ .gt) ∧
    (((⟨.included (.int 9007199254740993), .included (.float 9007199254740992)⟩ : Range).intersect?
        ⟨.unbounded, .included (.int 9007199254740992)⟩).isSome = true ∧
      ((⟨.unbounded, .included (.int 9007199254740992)⟩ : Range).intersect?
        ⟨.included (.int 9007199254740993), .included (.float 9007199254740992)⟩).isSome = false) ∧
    (⟨.included (.float 9007199254740992), .included (.int 9007199254740992)⟩ : Range).Holds
        (.int 9007199254740992) ∧
      ¬ ∃ range ∈ Range.normalize [⟨.included (.int 9007199254740993), .included (.int 9007199254740993)⟩,
          ⟨.included (.float 9007199254740992), .included (.int 9007199254740992)⟩],
        range.Holds (.int 9007199254740992) := by
  have below : order (.int 9007199254740993) (.float 9007199254740992) = .eq := by decide +kernel
  have above : order (.float 9007199254740992) (.int 9007199254740992) = .eq := by decide +kernel
  have turned : order (.int 9007199254740993) (.int 9007199254740992) = .gt := rfl
  refine ⟨fun trans => ?_, ⟨by decide +kernel, by decide +kernel⟩, ⟨?_, nofun⟩, ?_⟩
  · exact trans (.int 9007199254740993) (.float 9007199254740992) (.int 9007199254740992) (by simp [below])
      (by simp [above]) turned
  · show order _ _ ≠ .gt
    simp [above]
  · have joined : Range.normalize [⟨.included (.int 9007199254740993), .included (.int 9007199254740993)⟩,
        ⟨.included (.float 9007199254740992), .included (.int 9007199254740992)⟩] =
        [⟨.included (.int 9007199254740993), .included (.int 9007199254740993)⟩] := rfl
    rw [joined]
    rintro ⟨range, member, held, _⟩
    obtain rfl := List.mem_singleton.1 member
    exact held turned

end Cascades.Value
