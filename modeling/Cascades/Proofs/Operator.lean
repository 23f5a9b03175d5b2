/-
**Equality of operators.**

Operators are compared by `==`, under which two constants are equal where `Value.same` says so: the
two zeros are one double, and so are all NaNs. The comparison is an equivalence; between operators
that hold no constant it is equality.

* `ScalarOp.beq_iff`: what makes two scalar operators equal;
* `Operator.equivalence`: the comparison of operators is an equivalence;
* `Operator.eq_of_beq`: operators that are equal and hold no constant are the same.
-/

import Cascades.Operator.Basic
import Mathlib.Logic.Basic

namespace Cascades

/-! ### Values -/

namespace Value

theorem same_refl (value : Value) : same value value = true := by
  cases value <;> simp [same]

theorem same_symm {first second : Value} (equal : same first second = true) :
    same second first = true := by
  cases first <;> cases second <;> simp_all [same]

theorem same_trans {first second third : Value} (below : same first second = true)
    (above : same second third = true) : same first third = true := by
  cases first <;> cases second <;> cases third <;> simp_all [same]

end Value

/-! ### Scalar operators -/

namespace ScalarOp

/-- Whether an operator holds a constant. -/
def isConstant : ScalarOp → Bool
  | constant _ => true
  | _ => false

theorem beq_refl (operator : ScalarOp) : (operator == operator) = true := by
  cases operator with
  | constant value => exact Value.same_refl value
  | aggregate function distinct =>
    exact Bool.and_eq_true_iff.2 ⟨decide_eq_true rfl, decide_eq_true rfl⟩
  | arrayComparison operator quantifier =>
    exact Bool.and_eq_true_iff.2 ⟨decide_eq_true rfl, decide_eq_true rfl⟩
  | and | or | projectList | subqueryExists | array => rfl
  | _ => exact decide_eq_true rfl

/-- Operators of different kinds differ, and one kind compares what its operators hold. -/
theorem eq_of_beq {first second : ScalarOp} (equal : (first == second) = true)
    (exact : first.isConstant = false) : first = second := by
  cases first <;> cases second <;>
    first
    | exact absurd equal Bool.false_ne_true
    | exact absurd exact.symm Bool.false_ne_true
    | rfl
    | exact congrArg _ (of_decide_eq_true equal)
    | exact congrArg₂ _ (of_decide_eq_true (Bool.and_eq_true_iff.1 equal).1)
        (of_decide_eq_true (Bool.and_eq_true_iff.1 equal).2)

theorem constant_of_beq {value : Value} {second : ScalarOp}
    (equal : (constant value == second) = true) :
    ∃ other, second = constant other ∧ value.same other = true := by
  cases second with
  | constant other => exact ⟨other, rfl, equal⟩
  | _ => exact absurd equal Bool.false_ne_true

/-- **Equal scalar operators are the same, or two constants of equal value.** -/
theorem beq_iff {first second : ScalarOp} :
    (first == second) = true ↔
      first = second ∨ ∃ value other, first = constant value ∧ second = constant other ∧
        value.same other = true := by
  constructor
  · intro equal
    cases exact : first.isConstant with
    | false => exact Or.inl (eq_of_beq equal exact)
    | true =>
      cases first with
      | constant value =>
        obtain ⟨other, rfl, same⟩ := constant_of_beq equal
        exact Or.inr ⟨value, other, rfl, rfl, same⟩
      | _ => cases exact
  · rintro (rfl | ⟨value, other, rfl, rfl, same⟩)
    · exact beq_refl first
    · exact same

end ScalarOp

/-! ### Operators of all families -/

namespace Operator

/-- Whether an operator holds a constant. -/
def isConstant : Operator → Bool
  | scalar operator => operator.isConstant
  | _ => false

/-- **Equal operators are the same, or two constants of equal value.** -/
theorem beq_iff {first second : Operator} :
    (first == second) = true ↔
      first = second ∨ ∃ value other, first = scalar (.constant value) ∧
        second = scalar (.constant other) ∧ value.same other = true := by
  constructor
  · intro equal
    cases first with
    | logical operator =>
      cases second with
      | logical other => exact Or.inl (congrArg logical (LawfulBEq.eq_of_beq equal))
      | _ => exact absurd equal Bool.false_ne_true
    | physical operator =>
      cases second with
      | physical other => exact Or.inl (congrArg physical (LawfulBEq.eq_of_beq equal))
      | _ => exact absurd equal Bool.false_ne_true
    | scalar operator =>
      cases second with
      | scalar other =>
        rcases ScalarOp.beq_iff.1 equal with rfl | ⟨value, last, rfl, rfl, same⟩
        · exact Or.inl rfl
        · exact Or.inr ⟨value, last, rfl, rfl, same⟩
      | _ => exact absurd equal Bool.false_ne_true
  · rintro (rfl | ⟨value, other, rfl, rfl, same⟩)
    · cases first with
      | scalar operator => exact ScalarOp.beq_refl operator
      | _ => exact decide_eq_true rfl
    · exact same

instance equivalence : EquivBEq Operator where
  rfl := beq_iff.2 (Or.inl rfl)
  symm equal := by
    rcases beq_iff.1 equal with rfl | ⟨value, other, rfl, rfl, same⟩
    · exact equal
    · exact beq_iff.2 (Or.inr ⟨other, value, rfl, rfl, Value.same_symm same⟩)
  trans below above := by
    rcases beq_iff.1 below with rfl | ⟨value, other, rfl, rfl, same⟩
    · exact above
    · rcases beq_iff.1 above with rfl | ⟨middle, last, equal, rfl, next⟩
      · exact below
      · cases equal
        exact beq_iff.2 (Or.inr ⟨value, last, rfl, rfl, Value.same_trans same next⟩)

/-- Operators that are equal and hold no constant are the same. -/
theorem eq_of_beq {first second : Operator} (equal : (first == second) = true)
    (exact : second.isConstant = false) : first = second := by
  rcases beq_iff.1 equal with same | ⟨value, other, rfl, rfl, _⟩
  · exact same
  · cases exact

end Operator

end Cascades
