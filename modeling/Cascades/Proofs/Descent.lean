/-
**Recursions that go down, and loops.**

A recursion over numbers asks at each level for the results of some others. If these are always smaller, the
recursion ends: it has one solution, and as many levels as a number says find its result, so it does not
matter what stands where the levels end. A loop ends where some round gives a result.

* `levels`: a recursion that is cut off after some levels;
* `Descends`: what one level asks for; `Descends.levels_agree`: what stands at the end is not met;
* `Terminates`: a recursion with its solution; `Descends.terminates`: there is one;
* `Terminates.eq_of_solves`: there is no other;
* `loop`, `loop_next`, `loop_last`: a loop round by round.
-/

import Mathlib.Data.PFun

namespace Cascades

variable {α : Type} {needs : Nat → Nat → Prop} {step : (Nat → α) → Nat → α} {last other whole : Nat → α}
  {count more id : Nat}

/-- What a recursion gives down to a number of levels, with something else in the place of those below. -/
def levels (step : (Nat → α) → Nat → α) (last : Nat → α) : (count : Nat) → Nat → α
  | 0 => last
  | count + 1 => step (levels step last count)

/-- One level of a recursion looks only at what a number needs, and that is smaller. -/
structure Descends (needs : Nat → Nat → Prop) (step : (Nat → α) → Nat → α) : Prop where
  smaller : ∀ {id child : Nat}, needs id child → child < id
  congr : ∀ {first second : Nat → α} {id : Nat}, (∀ child, needs id child → first child = second child) →
    step first id = step second id

/-- With more levels than the number says, what stands where they end is not met. -/
theorem Descends.levels_agree (descends : Descends needs step) (below : id < count) (belowToo : id < more) :
    levels step last count id = levels step other more id := by
  induction count generalizing more id with
  | zero => exact absurd below (Nat.not_lt_zero _)
  | succ count ih =>
    cases more with
    | zero => exact absurd belowToo (Nat.not_lt_zero _)
    | succ more =>
      refine descends.congr fun child needed => ?_
      have smaller := descends.smaller needed
      exact ih (Nat.lt_of_lt_of_le smaller (Nat.le_of_lt_succ below))
        (Nat.lt_of_lt_of_le smaller (Nat.le_of_lt_succ belowToo))

/-- A recursion ends at every number, with a result that the results of smaller numbers determine. One level
more than the number is enough. -/
structure Terminates (needs : Nat → Nat → Prop) (step : (Nat → α) → Nat → α) (whole : Nat → α) : Prop
    extends Descends needs step where
  solves : ∀ id, whole id = step whole id
  bounded : ∀ (last : Nat → α) {count id : Nat}, id < count → levels step last count id = whole id

/-- **A recursion that goes down ends.** -/
theorem Descends.terminates (descends : Descends needs step) :
    Terminates needs step fun id => levels step last (id + 1) id where
  toDescends := descends
  solves _ := descends.congr fun child needed =>
    descends.levels_agree (descends.smaller needed) (Nat.lt_succ_self child)
  bounded _ _ _ below := descends.levels_agree below (Nat.lt_succ_self _)

/-- **There is no other solution.** -/
theorem Terminates.eq_of_solves (terminates : Terminates needs step whole)
    (solves : ∀ id, other id = step other id) : other = whole := by
  funext id
  induction id using Nat.strongRecOn with
  | ind id ih =>
    rw [solves, terminates.solves]
    exact terminates.congr fun child needed => ih child (terminates.smaller needed)

/-! ### Loops -/

section Loop

variable {σ : Type} {round : σ → α ⊕ σ} {state next : σ} {result : α}

/-- A loop goes on from state to state until a round gives a result. It gives nothing where no round
does. -/
def loop (round : σ → α ⊕ σ) : σ → Part α := PFun.fix fun state => Part.some (round state)

theorem loop_last (last : round state = .inl result) : loop round state = Part.some result := by
  refine Part.eq_some_iff.2 (PFun.fix_stop ?_)
  rw [last]
  exact Part.mem_some _

theorem loop_next (goes : round state = .inr next) : loop round state = loop round next := by
  refine PFun.fix_fwd_eq ?_
  rw [goes]
  exact Part.mem_some _

end Loop

end Cascades
