/-
**The values of a cursor.**

A cursor has no state: the value that it gave last says where to go on. `Gives` says which values it
gives from a first result on, and the failure, if any, at which it ends.

* `Gives.take_eq`, `Gives.take_failure`: what the first calls return, each with the result of the
  one before;
* `Gives.orElse`: a cursor that goes on with another one when it has ended.
-/

import Cascades.Binding.Cursor
import Cascades.Proofs.Outcome

namespace Cascades.Cursor

variable {α β : Type}

/-- The values that a cursor gives from a result on, and the failure, if any, at which it ends. -/
def Gives (next : α → Except Failure (Option α)) :
    (start : Except Failure (Option α)) → List α → Option Failure → Prop
  | start, [], none => start = .ok none
  | start, [], some failure => start = .error failure
  | start, value :: rest, failure =>
    start = .ok (some value) ∧ Gives next (next value) rest failure

/-- The first of some values that may end in a failure. -/
def firstResult : List α → Option Failure → Except Failure (Option α)
  | [], none => .ok none
  | [], some failure => .error failure
  | value :: _, _ => .ok (some value)

section Start

variable {next : α → Except Failure (Option α)} {start : Except Failure (Option α)}
  {values : List α} {failure : Option Failure}

/-- A cursor starts with the first of its values. -/
theorem Gives.start_eq (gives : Gives next start values failure) :
    start = firstResult values failure := by
  cases values with
  | nil => cases failure <;> exact gives
  | cons value rest => exact gives.1

theorem firstResult_eq_some {value : α} (first : firstResult values failure = .ok (some value)) :
    ∃ rest, values = value :: rest := by
  cases values with
  | nil => cases failure <;> cases first
  | cons head rest =>
    cases first
    exact ⟨rest, rfl⟩

theorem firstResult_eq_none (first : firstResult values failure = .ok none) :
    values = [] ∧ failure = none := by
  cases values with
  | nil =>
    cases failure with
    | none => exact ⟨rfl, rfl⟩
    | some cause => cases first
  | cons head rest => cases first

theorem firstResult_eq_error {cause : Failure} (first : firstResult values failure = .error cause) :
    values = [] ∧ failure = some cause := by
  cases values with
  | nil =>
    cases failure with
    | none => cases first
    | some other =>
      cases first
      exact ⟨rfl, rfl⟩
  | cons head rest => cases first

end Start

/-! ### A run -/

section Take

variable {next : Option Binding → Except Failure (Option Binding)} {previous : Option Binding}
  {values : List Binding}

theorem take_zero : take next 0 previous = .ok [] := rfl

theorem take_succ_of_some {count : Nat} {value : Binding}
    (found : next previous = .ok (some value)) :
    take next (count + 1) previous =
      (take next count (some value)).map (value :: ·) := by
  rw [take, found]
  show (do let rest ← take next count (some value); pure (value :: rest)) = _
  cases take next count (some value) <;> rfl

/-- **The first calls of a cursor that ends without a failure give the first of its values.** -/
theorem Gives.take_eq (gives : Gives (fun value => next (some value)) (next previous) values none)
    (count : Nat) : take next count previous = .ok (values.take count) := by
  induction count generalizing previous values with
  | zero => rw [take_zero, List.take_zero]
  | succ count ih =>
    cases values with
    | nil =>
      rw [take, show next previous = .ok none from gives]
      rfl
    | cons value rest =>
      rw [take_succ_of_some gives.1, ih gives.2]
      rfl

/-- Enough calls of a cursor that ends in a failure run into it. -/
theorem Gives.take_failure {failure : Failure}
    (gives : Gives (fun value => next (some value)) (next previous) values (some failure)) :
    take next (values.length + 1) previous = .error failure := by
  induction values generalizing previous with
  | nil =>
    rw [take, show next previous = .error failure from gives]
    rfl
  | cons value rest ih =>
    rw [List.length_cons, take_succ_of_some gives.1, ih gives.2]
    rfl

end Take

/-! ### One cursor after another -/

/-- A result, or another one in its place where it is the end. -/
def orElse (result fallback : Except Failure (Option α)) : Except Failure (Option α) :=
  match result with
  | .ok none => fallback
  | other => other

/-- A cursor that gives the values of a first one and, when that ends, goes on as a second one. -/
theorem Gives.orElse {first next : α → Except Failure (Option α)}
    {start fallback : Except Failure (Option α)} {values others : List α}
    {failure : Option Failure}
    (gives : Gives first start values none)
    (step : ∀ value ∈ values, next value = Cursor.orElse (first value) fallback)
    (after : Gives next fallback others failure) :
    Gives next (Cursor.orElse start fallback) (values ++ others) failure := by
  induction values generalizing start with
  | nil =>
    rw [show start = .ok none from gives]
    exact after
  | cons value rest ih =>
    rw [gives.1]
    refine ⟨rfl, ?_⟩
    show Gives next (next value) (rest ++ others) failure
    rw [step value List.mem_cons_self]
    exact ih gives.2 fun other member => step other (List.mem_cons_of_mem _ member)

/-- A cursor that gives the values of a first one, and fails with it. -/
theorem Gives.orElse_failure {first next : α → Except Failure (Option α)}
    {start fallback : Except Failure (Option α)} {values : List α} {failure : Failure}
    (gives : Gives first start values (some failure))
    (step : ∀ value ∈ values, next value = Cursor.orElse (first value) fallback) :
    Gives next (Cursor.orElse start fallback) values (some failure) := by
  induction values generalizing start with
  | nil =>
    rw [show start = .error failure from gives]
    rfl
  | cons value rest ih =>
    rw [gives.1]
    refine ⟨rfl, ?_⟩
    rw [step value List.mem_cons_self]
    exact ih gives.2 fun other member => step other (List.mem_cons_of_mem _ member)

end Cascades.Cursor
