/-
**Cancellation and the depth of recursion.**

Every recursion over a memo asks a guard before each step. The levels that are left below the limit
are its `room`, so a guarded recursion ends by itself: `check_ok_iff` says when a guard lets a step
pass.
-/

import Cascades.Failure

namespace Cascades

/-- The limit on the depth of recursion, and whether the search was cancelled. -/
structure Guard where
  maxDepth : Nat := 512
  cancelled : Bool := false
  deriving DecidableEq, Repr, Inhabited

namespace Guard

/-- Why a guard refuses a step that is too deep; being cancelled comes first. -/
def refusal (guard : Guard) : Abort :=
  if guard.cancelled then .cancelled else .depthExceeded guard.maxDepth

/-- Lets a step at a depth pass unless the search was cancelled or the depth is above the limit. -/
def check (guard : Guard) (depth : Nat) : Except Abort Unit :=
  if guard.cancelled ∨ guard.maxDepth < depth then .error guard.refusal else .ok ()

/-- The number of levels from the top that pass. -/
def room (guard : Guard) : Nat := guard.maxDepth + 1

/-- The guard of a cancelled search. -/
def cancel (guard : Guard) : Guard := { guard with cancelled := true }

theorem check_ok_iff {guard : Guard} {depth : Nat} :
    guard.check depth = .ok () ↔ guard.cancelled = false ∧ depth ≤ guard.maxDepth := by
  unfold check
  split
  · rename_i refused
    constructor
    · exact nofun
    · intro ⟨running, shallow⟩
      rcases refused with cancelled | deep
      · simp [cancelled] at running
      · omega
  · rename_i passes
    simp only [not_or, Bool.not_eq_true, Nat.not_lt] at passes
    simpa using passes

end Guard

end Cascades
