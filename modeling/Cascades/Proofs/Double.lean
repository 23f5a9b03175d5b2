/-
**Doubles that are numbers are in a total preorder.**

A double that is not NaN has a place: the class of its sign and size, its exponent and its mantissa.
Numbers are compared as their places are, so the comparisons of doubles have the laws of a total
preorder, in which both zeros are in one place.

* `placeOf`: where a number is; `compare_eq`: numbers are compared by their places;
* `le_total`, `le_trans`, `lt_iff_not_le`, `lt_of_lt_of_le`: the laws of the order;
* `isNaN_larger`: the larger of two doubles is a number where one of them is.
-/

import Cascades.Double

namespace Cascades.Double

open Float.Model

/-! ### Places -/

/-- The place of a number: its class, from the negative infinity upwards, and inside the class what
grows with the number. -/
def placeOf : UnpackedFloat → Int × Int × Int
  | .infinity .negative => (-2, 0, 0)
  | .finite .negative mantissa exponent _ => (-1, -exponent, -mantissa)
  | .zero _ => (0, 0, 0)
  | .finite .positive mantissa exponent _ => (1, exponent, mantissa)
  | .infinity .positive => (2, 0, 0)
  | .notANumber => (0, 0, 0)

/-- The order of places. -/
def comparePlaces : Int × Int × Int → Int × Int × Int → Ordering :=
  compareLex (compareOn (·.1)) (compareLex (compareOn (·.2.1)) (compareOn (·.2.2)))

instance : Std.TransCmp comparePlaces :=
  inferInstanceAs (Std.TransCmp (compareLex _ (compareLex _ _)))

theorem compare_neg (first second : Int) : compare (-first) (-second) = (compare first second).swap := by
  show compareOfLessAndEq _ _ = (compareOfLessAndEq _ _).swap
  unfold compareOfLessAndEq
  rcases Int.lt_trichotomy first second with below | rfl | above
  · rw [if_neg (by omega), if_neg (by omega), if_pos below]
    rfl
  · simp
  · rw [if_pos (by omega), if_neg (by omega), if_neg (by omega)]
    rfl

theorem compare_cast (first second : Nat) : compare (first : Int) second = compare first second := by
  show compareOfLessAndEq _ _ = compareOfLessAndEq _ _
  simp only [compareOfLessAndEq, Int.ofNat_lt, Int.natCast_inj]

/-- **Numbers are compared by their places.** -/
theorem compare_eq {first second : UnpackedFloat} (one : first.isNaN = false)
    (other : second.isNaN = false) :
    first.compare second = some (comparePlaces (placeOf first) (placeOf second)) := by
  cases first with
  | notANumber => cases one
  | infinity sign =>
    cases second with
    | notANumber => cases other
    | infinity sign' => cases sign <;> cases sign' <;> rfl
    | zero sign' => cases sign <;> rfl
    | finite sign' mantissa exponent => cases sign <;> cases sign' <;> rfl
  | zero sign =>
    cases second with
    | notANumber => cases other
    | infinity sign' => cases sign' <;> rfl
    | zero sign' => rfl
    | finite sign' mantissa exponent => cases sign' <;> rfl
  | finite sign mantissa exponent =>
    cases second with
    | notANumber => cases other
    | infinity sign' => cases sign <;> cases sign' <;> rfl
    | zero sign' => cases sign <;> rfl
    | finite sign' mantissa' exponent' =>
      cases sign <;> cases sign'
      case negative.positive | positive.negative => rfl
      case negative.negative =>
        show some _ = some ((compare (-exponent) (-exponent')).then
          (compare (-(mantissa : Int)) (-(mantissa' : Int))))
        rw [compare_neg, compare_neg, compare_cast, ← Ordering.swap_then]
      case positive.positive =>
        show some _ = some ((compare exponent exponent').then
          (compare (mantissa : Int) (mantissa' : Int)))
        rw [compare_cast]

/-! ### The order -/

variable {first second third : Float}

theorem le_iff (one : first.isNaN = false) (other : second.isNaN = false) :
    first ≤ second ↔
      (comparePlaces (placeOf first.toModel.unpack) (placeOf second.toModel.unpack)).isLE := by
  show decide ((first.toModel.unpack.compare second.toModel.unpack).any (·.isLE) = true) = true ↔ _
  rw [compare_eq one other, decide_eq_true_iff, Option.any_some]

theorem lt_iff (one : first.isNaN = false) (other : second.isNaN = false) :
    first < second ↔
      comparePlaces (placeOf first.toModel.unpack) (placeOf second.toModel.unpack) = .lt := by
  show decide ((first.toModel.unpack.compare second.toModel.unpack == some .lt) = true) = true ↔ _
  rw [compare_eq one other, decide_eq_true_iff, beq_iff_eq, Option.some_inj]

/-- **Two numbers** are in one order or the other. -/
theorem le_total (one : first.isNaN = false) (other : second.isNaN = false) :
    first ≤ second ∨ second ≤ first := by
  rw [le_iff one other, le_iff other one, ← Std.OrientedCmp.isGE_iff_isLE]
  cases comparePlaces (placeOf second.toModel.unpack) (placeOf first.toModel.unpack) <;> simp

theorem le_trans (one : first.isNaN = false) (other : second.isNaN = false)
    (last : third.isNaN = false) (below : first ≤ second) (above : second ≤ third) :
    first ≤ third := by
  rw [le_iff one other] at below
  rw [le_iff other last] at above
  rw [le_iff one last]
  exact Std.TransCmp.isLE_trans below above

/-- A number is below another one where it is not at or above it. -/
theorem lt_iff_not_le (one : first.isNaN = false) (other : second.isNaN = false) :
    first < second ↔ ¬ second ≤ first := by
  rw [lt_iff one other, le_iff other one, ← Std.OrientedCmp.isGE_iff_isLE]
  cases comparePlaces (placeOf first.toModel.unpack) (placeOf second.toModel.unpack) <;> simp

theorem le_refl (one : first.isNaN = false) : first ≤ first := (le_total one one).elim id id

theorem le_of_lt (one : first.isNaN = false) (other : second.isNaN = false) (below : first < second) :
    first ≤ second :=
  (le_total one other).resolve_right ((lt_iff_not_le one other).1 below)

theorem not_lt_iff (one : first.isNaN = false) (other : second.isNaN = false) :
    ¬ first < second ↔ second ≤ first := by
  rw [lt_iff_not_le one other, Classical.not_not]

section Three

variable (one : first.isNaN = false) (other : second.isNaN = false) (last : third.isNaN = false)
include one other last

theorem lt_of_lt_of_le (below : first < second) (above : second ≤ third) : first < third := by
  rw [lt_iff_not_le one last]
  intro back
  exact (lt_iff_not_le one other).1 below (le_trans other last one above back)

theorem lt_trans (below : first < second) (above : second < third) : first < third :=
  lt_of_lt_of_le one other last below (le_of_lt other last above)

end Three

/-! ### The larger of two -/

theorem isNaN_one : (1 : Float).isNaN = false := by decide

/-- **The larger of two doubles is a number** where the second is one. -/
theorem isNaN_larger (other : second.isNaN = false) : (larger first second).isNaN = false := by
  unfold larger
  rw [other]
  split
  · exact other
  · rename_i one
    rw [if_neg Bool.false_ne_true]
    split
    · exact other
    · exact Bool.eq_false_iff.2 one

end Cascades.Double
