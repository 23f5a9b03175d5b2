/-
**Counts.**

A count is a number of things up to `greatestCount`. Arithmetic on counts is refused where its
result is no count.

* `add_eq_ok_iff`, `sub_eq_ok_iff`: when a sum and a difference are given, and what they are.
-/

import Cascades.Failure

namespace Cascades

/-- The greatest number that is a count. -/
def greatestCount : Nat := 0xffffffffffffffff

namespace Count

/-- The sum of two counts. -/
def add (first second : Nat) : Except Fault Nat :=
  if first + second ≤ greatestCount then .ok (first + second) else .error .sumTooGreat

/-- The difference of two counts. -/
def sub (first second : Nat) : Except Fault Nat :=
  if second ≤ first then .ok (first - second) else .error .differenceTooSmall

theorem add_eq_ok_iff {first second sum : Nat} :
    add first second = .ok sum ↔ sum = first + second ∧ sum ≤ greatestCount := by
  unfold add
  split <;> rename_i bound
  · constructor
    · intro equal
      cases equal
      exact ⟨rfl, bound⟩
    · intro ⟨equal, _⟩
      rw [equal]
  · constructor
    · exact nofun
    · intro ⟨equal, small⟩
      exact absurd (equal ▸ small) bound

theorem sub_eq_ok_iff {first second difference : Nat} :
    sub first second = .ok difference ↔ first = second + difference := by
  unfold sub
  split <;> rename_i bound
  · constructor
    · intro equal
      cases equal
      omega
    · intro equal
      exact congrArg Except.ok (by omega)
  · constructor
    · exact nofun
    · intro equal
      omega

end Count

end Cascades
