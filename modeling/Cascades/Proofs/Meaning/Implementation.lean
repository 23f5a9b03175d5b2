/-
**Rules that implement keep the meaning.**

A physical operator means what the logical one does that it implements, over the same groups.

* `Binding.Drawn.implements`: a physical form of a bound expression;
* `implementing_implements`: what the standard rules that implement propose;
* `standard_faithful`: every rule keeps the meaning.
-/

import Cascades.Proofs.Meaning.Expansion
import Cascades.Rule.Implementation

namespace Cascades

open Memo Interpretation

variable {V : Type} {I : Interpretation V} {memo : Memo} {binding : Binding} {pattern : Pattern}

/-- **A physical form** of a bound expression means what the group of the expression means. -/
theorem Binding.Drawn.implements (drawn : binding.Drawn memo pattern)
    (inner : pattern.isLeaf = false) (sound : memo.Sound I) {operator : PhysicalOp}
    (implemented : binding.operator = .logical operator.logical) :
    Means I memo (.overGroups (.physical operator) binding.childGroups)
      (memo.sense I binding.group) := by
  obtain ⟨id, expr, stored, shown, named, groups, _⟩ := drawn.inner inner
  rw [shown] at implemented
  have same : I.sense (.physical operator) (expr.children.map (memo.sense I)) =
      memo.sense I expr.group := by
    rw [← sound.same stored, exprSense, implemented]
    rfl
  have computes : (Operator.physical operator).logical? = some operator.logical := rfl
  have computed : expr.operator.logical? = some operator.logical := by
    rw [implemented]
    rfl
  rw [named, groups, ← same]
  refine Means.overGroups (fun child => sound.childExists stored) ?_
  exact .of_logical computes ((sound.admits stored).joins operator.logical computed)

namespace Rule

/-- The groups at all positions below a binding are its child groups. -/
theorem childGroups_of_mapM {groups : List GroupId} {positions : List Nat}
    (all : positions = List.range binding.childGroups.length)
    (done : positions.mapM binding.childGroup = .ok groups) : groups = binding.childGroups := by
  obtain ⟨count, each⟩ := List.forall₂_iff_get.1 (mapM_eq_ok_iff.1 done)
  subst all
  rw [List.length_range] at count
  refine List.ext_getElem count.symm fun place here there => ?_
  have given := Binding.childGroup_ok_iff.1 (each place (by simpa using there) here)
  simpa [there] using given.symm

/-- A binding of a pattern over leaves has as many children as the pattern. -/
theorem length_childGroups {kind : LogicalKind} {arity : Nat}
    (drawn : binding.Drawn memo (.overLeaves kind arity)) :
    binding.childGroups.length = arity := by
  obtain ⟨id, expr, stored, shown, named, groups, root, _⟩ := drawn.inner rfl
  have single : Pattern.repeatedFirst? (List.replicate arity .leaf) = none := by
    cases arity <;> rfl
  have counts := (Pattern.matchesRoot_logical single root).2
  rw [List.length_replicate] at counts
  rw [groups]
  exact counts

/-! ### Rules that implement -/

/-- What such a rule proposes for a binding is a physical form over all its child groups. -/
def Implements (rule : Rule) : Prop :=
  ∀ {context : Context} {binding : Binding} {proposals : List Proposal},
    binding.Drawn context.memo rule.pattern → rule.transform context binding = .ok proposals →
      ∀ proposal ∈ proposals, ∃ operator : PhysicalOp,
        binding.operator = .logical operator.logical ∧
          proposal = .overGroups (.physical operator) binding.childGroups

theorem Implements.faithful {rule : Rule} (implements : rule.Implements)
    (inner : rule.pattern.isLeaf = false) : rule.Faithful I := by
  intro context binding proposals coherent drawn done proposal member
  obtain ⟨operator, implemented, rfl⟩ := implements drawn done proposal member
  exact drawn.implements inner coherent.sound implemented

/-- One physical form over the groups at all positions. -/
theorem of_substitute {operator : PhysicalOp} {positions : List Nat} {proposals : List Proposal}
    {proposal : Proposal} (all : positions = List.range binding.childGroups.length)
    (done : (liftM (substitute operator binding positions) : Except Failure (List Proposal)) =
      .ok proposals) (member : proposal ∈ proposals) :
    proposal = .overGroups (.physical operator) binding.childGroups := by
  obtain ⟨groups, given, done⟩ := bind_eq_ok_iff.1 (lift_fault_eq_ok_iff.1 done)
  have same := pure_eq_ok_iff.1 done
  subst same
  rw [List.mem_singleton.1 member, childGroups_of_mapM all given]

theorem getToTableScan_implements : getToTableScan.Implements := by
  intro context binding proposals drawn done proposal member
  have none : binding.childGroups = [] := List.length_eq_zero_iff.1 (length_childGroups drawn)
  unfold getToTableScan at done
  simp only at done
  split at done
  · rename_i table columns operator
    have same := pure_eq_ok_iff.1 done
    subst same
    exact ⟨.tableScan table columns, operator, none ▸ List.mem_singleton.1 member⟩
  · cases pure_eq_ok_iff.1 done
    cases member

theorem selectToFilter_implements : selectToFilter.Implements := by
  intro context binding proposals drawn done proposal member
  unfold selectToFilter at done
  simp only at done
  split at done
  · rename_i operator
    have same := pure_eq_ok_iff.1 done
    subst same
    exact ⟨.filter, operator, List.mem_singleton.1 member⟩
  · cases pure_eq_ok_iff.1 done
    cases member

theorem projectToComputeScalar_implements : projectToComputeScalar.Implements := by
  intro context binding proposals drawn done proposal member
  unfold projectToComputeScalar at done
  simp only at done
  split at done
  · rename_i operator
    have same := pure_eq_ok_iff.1 done
    subst same
    exact ⟨.computeScalar, operator, List.mem_singleton.1 member⟩
  · cases pure_eq_ok_iff.1 done
    cases member

theorem limitToLimit_implements : limitToLimit.Implements := by
  intro context binding proposals drawn done proposal member
  unfold limitToLimit at done
  simp only at done
  split at done
  · rename_i offset count operator
    have same := pure_eq_ok_iff.1 done
    subst same
    exact ⟨.limit offset count, operator, List.mem_singleton.1 member⟩
  · cases pure_eq_ok_iff.1 done
    cases member

theorem aggregateToHashAggregate_implements : aggregateToHashAggregate.Implements := by
  intro context binding proposals drawn done proposal member
  have all : [0, 1] = List.range binding.childGroups.length := by
    rw [length_childGroups drawn]
    rfl
  unfold aggregateToHashAggregate at done
  simp only at done
  split at done
  · rename_i keys operator
    exact ⟨.hashAggregate keys, operator, of_substitute all done member⟩
  · cases pure_eq_ok_iff.1 done
    cases member

theorem joinToHashJoin_implements : joinToHashJoin.Implements := by
  intro context binding proposals drawn done proposal member
  have all : [0, 1, 2] = List.range binding.childGroups.length := by
    rw [length_childGroups drawn]
    rfl
  unfold joinToHashJoin at done
  simp only at done
  split at done
  · rename_i type operator
    exact ⟨.hashJoin type, joinType?_eq_some_iff.1 operator, of_substitute all done member⟩
  · cases pure_eq_ok_iff.1 done
    cases member

theorem joinToNestedLoop_implements : joinToNestedLoop.Implements := by
  intro context binding proposals drawn done proposal member
  have all : [0, 1, 2] = List.range binding.childGroups.length := by
    rw [length_childGroups drawn]
    rfl
  unfold joinToNestedLoop at done
  simp only at done
  split at done
  · rename_i type operator
    exact ⟨.nestedLoopJoin type, joinType?_eq_some_iff.1 operator, of_substitute all done member⟩
  · cases pure_eq_ok_iff.1 done
    cases member

/-! ### The standard rules -/

/-- The standard rules that implement. -/
def implementing : List Rule :=
  [getToTableScan, selectToFilter, projectToComputeScalar, limitToLimit, joinToHashJoin,
    joinToNestedLoop, aggregateToHashAggregate]

/-- **The standard rules** are four that explore and those that implement. -/
theorem forall_standard {holds : Rule → Prop} (commutes : holds joinCommutativity)
    (associates : holds joinAssociativity) (expands : holds expandNaryJoin)
    (pushes : holds pushSelectIntoJoin) (implement : ∀ rule ∈ implementing, holds rule) :
    ∀ rule ∈ standard, holds rule := by
  unfold standard
  iterate 4 rw [List.forall_mem_cons]
  exact ⟨commutes, associates, expands, pushes, implement⟩

theorem mem_implementing :
    ∀ rule ∈ standard, rule.kind = .implementation → rule ∈ implementing := by
  refine forall_standard ?_ ?_ ?_ ?_ fun rule listed _ => listed
  all_goals exact fun implements => absurd implements (by decide)

theorem implementing_kind : ∀ rule ∈ implementing, rule.kind = .implementation := by decide

/-- No standard rule is for a leaf. -/
theorem standard_inner : ∀ rule ∈ standard, rule.pattern.isLeaf = false := by decide

theorem implementing_inner : ∀ rule ∈ implementing, rule.pattern.isLeaf = false := by decide

/-- **The standard rules that implement** propose physical forms over all inputs. -/
theorem implementing_implements : ∀ rule ∈ implementing, rule.Implements := by
  simp only [implementing, List.forall_mem_cons]
  exact ⟨getToTableScan_implements, selectToFilter_implements, projectToComputeScalar_implements,
    limitToLimit_implements, joinToHashJoin_implements, joinToNestedLoop_implements,
    aggregateToHashAggregate_implements, fun _ none => absurd none List.not_mem_nil⟩

/-- **Every rule keeps the meaning.** -/
theorem standard_faithful : ∀ rule ∈ standard, rule.Faithful I := by
  refine forall_standard joinCommutativity_faithful joinAssociativity_faithful
    expandNaryJoin_faithful pushSelectIntoJoin_faithful fun rule listed => ?_
  have implements : rule.Implements := implementing_implements rule listed
  show rule.Faithful I
  exact implements.faithful (implementing_inner rule listed)

end Rule

end Cascades
