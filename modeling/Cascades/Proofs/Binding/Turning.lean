/-
**The children of a node turn through their product.**

The last child moves first; a child without a further value starts again when its left neighbour
moves. If the cursor of every child gives the values of a listing, turning the children goes through
the product of the listings, the last factor changing first, and after the last combination all
children have started again.

* `Turns`: the combinations that turning goes through;
* `turns_product`: they are the product.
-/

import Cascades.Binding.Listing
import Cascades.Proofs.Binding.Giving

namespace Cascades

/-! ### Equations of listings -/

namespace Listing

variable {α β : Type} {start : β → Except Failure (Option α)} {list : β → Listing α} {child : β}
  {rest : List β}

/-- The product with a factor that has a first value, given the product of the factors after it. -/
def times (head : α) (heads : Listing α) : (tails : Listing (List α)) → Listing (List α)
  | ⟨found, some failure⟩ => ⟨found.map (head :: ·), some failure⟩
  | ⟨[], none⟩ => nil
  | ⟨found, none⟩ => ⟨heads.found.flatMap fun head => found.map (head :: ·), heads.failure⟩

theorem product_cons_of_error {failure : Failure} (first : start child = .error failure) :
    product start list (child :: rest) = fail failure := by
  rw [product, first]

theorem product_cons_of_none (first : start child = .ok none) :
    product start list (child :: rest) = nil := by
  rw [product, first]

theorem product_cons_of_some {head : α} (first : start child = .ok (some head)) :
    product start list (child :: rest) = times head (list child) (product start list rest) := by
  rw [product, first]
  generalize product start list rest = tails
  obtain ⟨_ | ⟨_, _⟩, _ | _⟩ := tails <;> rfl

theorem concatMap_cons_of_none (part : β → Listing α) (ended : (part child).failure = none) :
    concatMap part (child :: rest) =
      ⟨(part child).found ++ (concatMap part rest).found, (concatMap part rest).failure⟩ := by
  rw [concatMap, ended]

theorem concatMap_cons_of_failure (part : β → Listing α) {failure : Failure}
    (failed : (part child).failure = some failure) :
    concatMap part (child :: rest) = part child := by
  rw [concatMap, failed]

/-- Every combination has one value for each factor. -/
theorem length_of_mem_product {children : List β} {combination : List α}
    (member : combination ∈ (product start list children).found) :
    combination.length = children.length := by
  induction children generalizing combination with
  | nil =>
    rw [List.mem_singleton.1 member]
    rfl
  | cons child rest ih =>
    have prepended : ∀ head : α, ∀ tail ∈ (product start list rest).found,
        (head :: tail).length = (child :: rest).length := fun head tail found =>
      congrArg Nat.succ (ih found)
    cases first : start child with
    | error failure =>
      rw [product_cons_of_error first] at member
      cases member
    | ok found =>
      cases found with
      | none =>
        rw [product_cons_of_none first] at member
        cases member
      | some head =>
        rw [product_cons_of_some first] at member
        generalize product start list rest = tails at member prepended
        obtain ⟨_ | ⟨_, _⟩, _ | _⟩ := tails
        · cases member
        · cases member
        · obtain ⟨value, _, found⟩ := List.mem_flatMap.1 member
          obtain ⟨tail, there, rfl⟩ := List.mem_map.1 found
          exact prepended value tail there
        · obtain ⟨tail, there, rfl⟩ := List.mem_map.1 member
          exact prepended head tail there

end Listing

namespace Cursor

/-! ### Combinations -/

/-- The combinations that turning goes through after a given one. It ends by starting again with
the first one, or in a failure. -/
def Cycles (turnOn : List Binding → Except Failure Turn) (first : List Binding) :
    (current : List Binding) → List (List Binding) → Option Failure → Prop
  | current, [], none => turnOn current = .ok (.restarted first)
  | current, [], some failure => turnOn current = .error failure
  | current, following :: rest, failure =>
    turnOn current = .ok (.moved following) ∧ Cycles turnOn first following rest failure

/-- The combinations that turning goes through, the first of which is given. -/
def Turns (begins : Except Failure (Option (List Binding)))
    (turnOn : List Binding → Except Failure Turn) :
    List (List Binding) → Option Failure → Prop
  | [], none => begins = .ok none
  | [], some failure => begins = .error failure
  | first :: rest, failure => begins = .ok (some first) ∧ Cycles turnOn first first rest failure

/-- A child of a node: its group and its place. -/
abbrev Wheel := GroupId × Nat

section Wheels

variable {next : Nat → GroupId → Option Binding → Except Failure (Option Binding)} {wheel : Wheel}
  {wheels : List Wheel}

/-- The first binding of a child. -/
def opening (next : Nat → GroupId → Option Binding → Except Failure (Option Binding))
    (wheel : Wheel) : Except Failure (Option Binding) := next wheel.2 wheel.1 none

/-- The first binding of every child. -/
def firsts (next : Nat → GroupId → Option Binding → Except Failure (Option Binding))
    (wheels : List Wheel) : Except Failure (Option (List Binding)) :=
  (wheels.mapM fun wheel => OptionT.mk (opening next wheel)).run

/-- Turns the children of a node from a binding for each. -/
def turnOn (next : Nat → GroupId → Option Binding → Except Failure (Option Binding))
    (wheels : List Wheel) (current : List Binding) : Except Failure Turn :=
  turn next (List.zipWith (fun wheel binding => (wheel.2, wheel.1, binding)) wheels current)

theorem firsts_cons_of_some {head : Binding} (first : opening next wheel = .ok (some head)) :
    firsts next (wheel :: wheels) =
      (firsts next wheels).map fun tail => tail.map (head :: ·) := by
  unfold firsts
  rw [List.mapM_cons, OptionT.run_bind, OptionT.run_mk, first]
  show OptionT.run (wheels.mapM (fun wheel => OptionT.mk (opening next wheel)) >>=
    fun tail => pure (head :: tail)) = _
  rw [OptionT.run_bind]
  cases OptionT.run (wheels.mapM fun wheel => OptionT.mk (opening next wheel)) with
  | error failure => rfl
  | ok tail => cases tail <;> rfl

theorem firsts_cons_of_none (first : opening next wheel = .ok none) :
    firsts next (wheel :: wheels) = .ok none := by
  unfold firsts
  rw [List.mapM_cons, OptionT.run_bind, OptionT.run_mk, first]
  rfl

theorem firsts_cons_of_error {failure : Failure} (first : opening next wheel = .error failure) :
    firsts next (wheel :: wheels) = .error failure := by
  unfold firsts
  rw [List.mapM_cons, OptionT.run_bind, OptionT.run_mk, first]
  rfl

/-! ### One turn -/

section Turn

variable {head : Binding} {tail : List Binding}

theorem turnOn_cons_of_moved {others : List Binding}
    (below : turnOn next wheels tail = .ok (.moved others)) :
    turnOn next (wheel :: wheels) (head :: tail) = .ok (.moved (head :: others)) := by
  show turn next (_ :: _) = _
  rw [turn, show turn next _ = _ from below]
  rfl

theorem turnOn_cons_of_error {failure : Failure}
    (below : turnOn next wheels tail = .error failure) :
    turnOn next (wheel :: wheels) (head :: tail) = .error failure := by
  show turn next (_ :: _) = _
  rw [turn, show turn next _ = _ from below]
  rfl

/-- The children to the right start again and the child moves. -/
theorem turnOn_cons_of_next {others : List Binding} {following : Binding}
    (below : turnOn next wheels tail = .ok (.restarted others))
    (moved : next wheel.2 wheel.1 (some head) = .ok (some following)) :
    turnOn next (wheel :: wheels) (head :: tail) = .ok (.moved (following :: others)) := by
  show turn next (_ :: _) = _
  rw [turn, show turn next _ = _ from below]
  show (next wheel.2 wheel.1 (some head) >>= _) = _
  rw [moved]
  rfl

/-- The child has no further binding and starts again, too. -/
theorem turnOn_cons_of_end {others : List Binding} {first : Binding}
    (below : turnOn next wheels tail = .ok (.restarted others))
    (ended : next wheel.2 wheel.1 (some head) = .ok none)
    (again : opening next wheel = .ok (some first)) :
    turnOn next (wheel :: wheels) (head :: tail) = .ok (.restarted (first :: others)) := by
  show turn next (_ :: _) = _
  rw [turn, show turn next _ = _ from below]
  show (next wheel.2 wheel.1 (some head) >>= _) = _
  rw [ended]
  show (opening next wheel >>= _) = _
  rw [again]
  rfl

theorem turnOn_cons_of_failure {others : List Binding} {failure : Failure}
    (below : turnOn next wheels tail = .ok (.restarted others))
    (failed : next wheel.2 wheel.1 (some head) = .error failure) :
    turnOn next (wheel :: wheels) (head :: tail) = .error failure := by
  show turn next (_ :: _) = _
  rw [turn, show turn next _ = _ from below]
  show (next wheel.2 wheel.1 (some head) >>= _) = _
  rw [failed]
  rfl

end Turn

/-! ### Whole cycles -/

section Cycle

variable {first start current : List Binding} {head : Binding} {rest others : List (List Binding)}
  {failure : Option Failure}

/-- While the children to the right turn, the child stays; what follows is up to their end. -/
theorem Cycles.prepend (cycles : Cycles (turnOn next wheels) start current rest none)
    (after : ∀ last, turnOn next wheels last = .ok (.restarted start) →
      Cycles (turnOn next (wheel :: wheels)) first (head :: last) others failure) :
    Cycles (turnOn next (wheel :: wheels)) first (head :: current)
      (rest.map (head :: ·) ++ others) failure := by
  induction rest generalizing current with
  | nil => exact after current cycles
  | cons following rest ih => exact ⟨turnOn_cons_of_moved cycles.1, ih cycles.2⟩

/-- A failure of the children to the right is one of all. -/
theorem Cycles.prepend_failure {cause : Failure}
    (cycles : Cycles (turnOn next wheels) start current rest (some cause)) :
    Cycles (turnOn next (wheel :: wheels)) first (head :: current)
      (rest.map (head :: ·)) (some cause) := by
  induction rest generalizing current with
  | nil => exact turnOn_cons_of_error cycles
  | cons following rest ih => exact ⟨turnOn_cons_of_moved cycles.1, ih cycles.2⟩

/-- From any value of a child on, turning goes through the products of its further values with all
combinations to the right. -/
theorem Cycles.product {initial : Binding} {heads : List Binding}
    (again : opening next wheel = .ok (some initial))
    (turns : Cycles (turnOn next wheels) start start rest none)
    (gives : Gives (fun value => next wheel.2 wheel.1 (some value))
      (next wheel.2 wheel.1 (some head)) heads failure) :
    Cycles (turnOn next (wheel :: wheels)) (initial :: start) (head :: start)
      (rest.map (head :: ·) ++ heads.flatMap fun value => (start :: rest).map (value :: ·))
      failure := by
  induction heads generalizing head with
  | nil =>
    refine turns.prepend fun last ended => ?_
    cases failure with
    | none => exact turnOn_cons_of_end ended gives again
    | some cause => exact turnOn_cons_of_failure ended gives
  | cons following heads ih =>
    refine turns.prepend fun last ended => ?_
    rw [List.flatMap_cons]
    exact ⟨turnOn_cons_of_next ended gives.1, ih gives.2⟩

end Cycle

variable {list : Wheel → Listing Binding}

/-- **Turning the children of a node goes through the product of their values**, if the cursor of
each child gives the values of its listing. -/
theorem turns_product
    (gives : ∀ wheel ∈ wheels, Gives (fun value => next wheel.2 wheel.1 (some value))
      (opening next wheel) (list wheel).found (list wheel).failure) :
    Turns (firsts next wheels) (turnOn next wheels)
      (Listing.product (opening next) list wheels).found
      (Listing.product (opening next) list wheels).failure := by
  induction wheels with
  | nil => exact ⟨rfl, rfl⟩
  | cons wheel wheels ih =>
    have turns := ih fun other member => gives other (List.mem_cons_of_mem _ member)
    have one := gives wheel List.mem_cons_self
    cases begun : opening next wheel with
    | error failure =>
      rw [Listing.product_cons_of_error begun]
      exact firsts_cons_of_error begun
    | ok found =>
      cases found with
      | none =>
        rw [Listing.product_cons_of_none begun]
        exact firsts_cons_of_none begun
      | some head =>
        obtain ⟨heads, values⟩ := firstResult_eq_some (one.start_eq.symm.trans begun)
        rw [values] at one
        rw [Listing.product_cons_of_some begun]
        generalize Listing.product (opening next) list wheels = tails
          at turns
        obtain ⟨_ | ⟨start, rest⟩, _ | cause⟩ := tails
        · show firsts next _ = _
          rw [firsts_cons_of_some begun, show firsts next wheels = _ from turns]
          rfl
        · show firsts next _ = _
          rw [firsts_cons_of_some begun, show firsts next wheels = _ from turns]
          rfl
        · show Turns _ _ ((list wheel).found.flatMap _) (list wheel).failure
          rw [values]
          refine ⟨by rw [firsts_cons_of_some begun, turns.1]; rfl, ?_⟩
          exact Cycles.product begun turns.2 one.2
        · refine ⟨by rw [firsts_cons_of_some begun, turns.1]; rfl, ?_⟩
          exact turns.2.prepend_failure

end Wheels

end Cursor

end Cascades
