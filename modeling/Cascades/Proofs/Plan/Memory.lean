/-
**What the search for plans remembers.**

A group that is met again on the path above it has no plan there, and what depends on that is
settled like any other result. So on a memo in which groups use themselves a group may be settled
without a plan although it has a tree, and the groups that use it are left without one.

* `Arises`: the memories that a search can have, with every visit of a group on some path;
* `visit_of_grounded`: where no group below uses itself, all visits give the same;
* `ofGroup?_of_grounded`: so the cheapest plan is found where there is a tree;
* `ofGroup?_misses_tree`: a group that has a tree and is left without a plan.
-/

import Cascades.Proofs.Plan.Cheapest

namespace Cascades.Plan

open Relation

variable {setting : Setting} {id : GroupId} {found other : Option Plan}

/-- The memories that a search can have: visits of groups one after another, each on a path of
groups that use the next one. -/
inductive Arises (setting : Setting) : Settled → Prop
  | empty : Arises setting {}
  | visit {settled after : Settled} {room : Nat} {path : List GroupId} {id : GroupId}
      {found : Option Plan} : Arises setting settled → setting.memo.Relational id →
      (∀ above ∈ path, TransGen setting.memo.Uses above id) →
      cheapestWithin setting room path id settled = .ok (found, after) → Arises setting after

/-- A visit gives a right result and leaves right ones behind. -/
theorem AllRight.visit (linked : setting.memo.Linked) {settled after : Settled} {room : Nat}
    {path : List GroupId} (known : AllRight setting settled)
    (relational : setting.memo.Relational id)
    (above : ∀ upper ∈ path, TransGen setting.memo.Uses upper id)
    (done : cheapestWithin setting room path id settled = .ok (found, after)) :
    AllRight setting after ∧ Right setting id found := by
  have runs := cheapestWithin_runs linked room path id relational above settled known
  rw [done] at runs
  exact runs

theorem Arises.allRight (linked : setting.memo.Linked) {settled : Settled}
    (arises : Arises setting settled) : AllRight setting settled := by
  induction arises with
  | empty => exact empty_allRight
  | visit _ relational above done ih => exact (ih.visit linked relational above done).1

/-- **Visits of one group** give the same result, whatever their paths and whatever was settled
before, where no group below uses itself. -/
theorem visit_of_grounded (linked : setting.memo.Linked) (relational : setting.memo.Relational id)
    (grounded : setting.memo.Grounded id) {settled after : Settled} {room : Nat}
    {path : List GroupId} (arises : Arises setting settled)
    (above : ∀ upper ∈ path, TransGen setting.memo.Uses upper id)
    (done : cheapestWithin setting room path id settled = .ok (found, after))
    (chosen : Chosen setting id other) : found = other :=
  (((arises.allRight linked).visit linked relational above done).2.chosen grounded).unique chosen

/-- **The search remembers rightly what does not lead back to itself.** Whatever the memo and the
cost model, a plan that a search gives is a tree of its group. Where no group below uses itself,
there is a plan if and only if there is a tree, and every visit of the group in a search, on any
path and with any memory, gives the same result. -/
theorem ofGroup?_of_grounded {memo : Memo} {catalog : Catalog} {guard : Guard} {model : CostModel}
    (valid : memo.Valid) (headed : memo.LogicalFirst) (relational : memo.Relational id)
    (unstopped : ∀ abort, ofGroup? memo catalog guard model id ≠ .error (.abort abort)) :
    (∃ found, ofGroup? memo catalog guard model id = .ok found ∧
      (∀ plan, found = some plan → Tree (Setting.ofMemo memo catalog guard model) id plan) ∧
      (memo.Grounded id → (found.isSome = true ↔ memo.Planned id) ∧
        ∀ (settled after : Settled) (room : Nat) (path : List GroupId) (other : Option Plan),
          Arises (Setting.ofMemo memo catalog guard model) settled →
          (∀ above ∈ path, TransGen memo.Uses above id) →
          cheapestWithin (Setting.ofMemo memo catalog guard model) room path id settled =
            .ok (other, after) → other = found)) ∨
    (¬ memo.Laid ∧ ∃ cause, ofGroup? memo catalog guard model id = .error (.fault cause)) := by
  have linked := valid.toLinked
  rcases ofGroup?_cases linked headed relational unstopped with ⟨found, done, right⟩ | malformed
  · refine Or.inl ⟨found, done, right.tree, fun grounded => ?_⟩
    have chosen := right.chosen grounded
    refine ⟨chosen.isSome_iff linked, fun settled after room path other arises above visited => ?_⟩
    exact visit_of_grounded linked relational grounded arises above visited chosen
  · exact Or.inr malformed

/-- Every search of two rival joins gives the plan of the join by hashing. -/
theorem ofGroup?_of_grounded_rivalJoins :
    ∃ memo plan, Memo.empty.performAll rivalJoins = .ok memo ∧
      ofGroup? memo {} {} byOperator 3 = .ok (some plan) ∧
      Tree (Setting.ofMemo memo {} {} byOperator) 3 plan ∧
      ∀ (settled after : Settled) (room : Nat) (other : Option Plan),
        Arises (Setting.ofMemo memo {} {} byOperator) settled →
        cheapestWithin (Setting.ofMemo memo {} {} byOperator) room [] 3 settled =
          .ok (other, after) → other = some plan := by
  have shown : (Memo.empty.performAll rivalJoins).toOption.map (fun memo =>
      (memo.isLogicalFirst, isOrdered memo, memo.groups[3]?.map Group.isScalar,
        (ofGroup? memo {} {} byOperator 3).toOption.map Option.isSome)) =
      some (true, true, some false, some true) := by
    decide +kernel
  obtain ⟨memo, history, shown⟩ := Option.map_eq_some_iff.1 shown
  have history := toOption_eq_some_iff.1 history
  simp only [Prod.mk.injEq] at shown
  obtain ⟨headed, ordered, family, planned⟩ := shown
  obtain ⟨found, done, given⟩ := Option.map_eq_some_iff.1 planned
  have done := toOption_eq_some_iff.1 done
  obtain ⟨plan, rfl⟩ := Option.isSome_iff_exists.1 given
  have valid : memo.Valid := (Memo.performAll_keeps history Memo.empty_valid).1
  have settles := ofGroup?_of_grounded valid (Memo.logicalFirst_of_isLogicalFirst headed)
    (Option.map_eq_some_iff.1 family) fun abort stopped => by
      rw [done] at stopped
      cases stopped
  rcases settles with ⟨_, again, trees, grounded⟩ | ⟨_, _, failed⟩
  · rw [done] at again
    cases again
    have same := (grounded fun below _ => acyclic_of_isOrdered ordered below).2
    refine ⟨memo, plan, history, done, trees plan rfl, fun settled after room other arises => ?_⟩
    exact same settled after room [] other arises fun _ none => absurd none List.not_mem_nil
  · rw [done] at failed
    cases failed

/-! ### Groups that use each other -/

/-- Two tables, each with a filter of the other one, and the join of both. Only one has a scan. -/
def mutualFilters : List Memo.Request :=
  [.insert (.logical (.get ⟨"shop", "orders"⟩ [])) [],
    .insert (.logical (.get ⟨"shop", "items"⟩ [])) [],
    .insert .truth [],
    .insert (.logical (.join .inner)) [0, 1, 2],
    .insertInto 0 (.physical .filter) [1, 2],
    .insertInto 0 (.physical (.tableScan ⟨"shop", "orders"⟩ [])) [],
    .insertInto 1 (.physical .filter) [0, 2],
    .insertInto 3 (.physical (.nestedLoopJoin .inner)) [0, 1, 2]]

/-- **A search settles a group without a plan although it has a tree.** The items are reached first
below the orders, which they use themselves, and are settled without a plan. The join of both has a
tree as well and is given no plan, while a search from the items finds theirs. -/
theorem ofGroup?_misses_tree :
    ∃ memo, Memo.empty.performAll mutualFilters = .ok memo ∧ memo.LogicalFirst ∧
      memo.Relational 3 ∧ memo.Planned 3 ∧
      ofGroup? memo {} {} (CardinalityModel.cost {}) 3 = .ok none ∧
      ∃ plan, ofGroup? memo {} {} (CardinalityModel.cost {}) 1 = .ok (some plan) := by
  have shown : (Memo.empty.performAll mutualFilters).toOption.map (fun memo =>
      (memo.isLogicalFirst, memo.groups[3]?.map Group.isScalar, isPlannedWithin memo 3 3,
        (ofGroup? memo {} {} (CardinalityModel.cost {}) 3).toOption.map Option.isSome,
        (ofGroup? memo {} {} (CardinalityModel.cost {}) 1).toOption.map Option.isSome)) =
      some (true, some false, true, some false, some true) := by
    decide +kernel
  obtain ⟨memo, history, shown⟩ := Option.map_eq_some_iff.1 shown
  have history := toOption_eq_some_iff.1 history
  simp only [Prod.mk.injEq] at shown
  obtain ⟨headed, family, planned, first, second⟩ := shown
  have valid : memo.Valid := (Memo.performAll_keeps history Memo.empty_valid).1
  obtain ⟨nothing, done, missing⟩ := Option.map_eq_some_iff.1 first
  obtain ⟨something, found, given⟩ := Option.map_eq_some_iff.1 second
  refine ⟨memo, history, Memo.logicalFirst_of_isLogicalFirst headed,
    Option.map_eq_some_iff.1 family, planned_of_isPlannedWithin valid.toLinked planned, ?_, ?_⟩
  · rw [toOption_eq_some_iff.1 done, Option.not_isSome_iff_eq_none.1 (Bool.eq_false_iff.1 missing)]
  · obtain ⟨plan, rfl⟩ := Option.isSome_iff_exists.1 given
    exact ⟨plan, toOption_eq_some_iff.1 found⟩

end Cascades.Plan
