/-
**Connected components need no cross product.**

Where components have no column in common and are connected by predicates on two of them, a greedy order
takes no join without a predicate, whatever other predicates there are: as long as a component remains,
one of those that remain is tied to one that the order has.

* `Joint`: linear trees in which every join has a predicate;
* `Connects.exists_across`: a predicate of a join uses columns of either side;
* `exists_connects`: a component that remains has a predicate with those that are there;
* `Reached.joint`, `greedyOrder_joint`: a greedy order is such a tree.
-/

import Cascades.Proofs.Greedy.Crossing
import Cascades.Proofs.Order.Connected

namespace Cascades.JoinGraph

variable {graph : JoinGraph} {current left right : Joined} {number : Nat}

/-- **A linear tree in which every join has a predicate.** -/
inductive Joint (graph : JoinGraph) : Joined → Prop where
  | single {number : Nat} (inside : number < graph.components.length) :
    Joint graph (graph.single number)
  | join {left : Joined} {number : Nat} (first : Joint graph left)
      (inside : number < graph.components.length)
      (connects : graph.Connects left (graph.single number)) :
    Joint graph (graph.join left (graph.single number))

/-- A join that has a predicate applies one that uses columns of either side. -/
theorem Connects.exists_across (connects : graph.Connects left right) :
    ∃ number ∈ graph.appliedAt left right, ∃ predicate, graph.predicates[number]? = some predicate ∧
      (∃ column ∈ predicate.columns, column ∈ left.columns) ∧
        ∃ column ∈ predicate.columns, column ∈ right.columns := by
  obtain ⟨predicate, member, covers, notLeft, notRight⟩ := connects
  obtain ⟨number, there⟩ := List.getElem?_of_mem member
  refine ⟨number, mem_appliedAt_iff.2 ⟨predicate, there, covers, notLeft, notRight⟩, predicate, there,
    ?_, ?_⟩
  · obtain ⟨column, used, missing⟩ := not_forall₂.1 notRight
    exact ⟨column, used, (SortedSet.mem_union.1 (covers column used)).resolve_right missing⟩
  · obtain ⟨column, used, missing⟩ := not_forall₂.1 notLeft
    exact ⟨column, used, (SortedSet.mem_union.1 (covers column used)).resolve_left missing⟩

section Connected

variable (separate : graph.Separate (List.range graph.components.length))
  (connected : Connected graph.Ties (Finset.range graph.components.length))
include separate connected

/-- **As long as components remain**, one of them has a predicate with those that are there. -/
theorem exists_connects (built : graph.Built current) (remains : number ∈ graph.others current) :
    ∃ other ∈ graph.others current, graph.Connects current (graph.single other) := by
  obtain ⟨leaf, there⟩ := built.exists_leaf
  obtain ⟨inside, new⟩ := mem_others_iff.1 remains
  obtain ⟨first, _, second, bound, listed, outside, ties⟩ :=
    connected.across (· ∈ current.tree.leaves)
      ⟨leaf, Finset.mem_range.2 (built.leaves_lt leaf there), there⟩
      ⟨number, Finset.mem_range.2 inside, new⟩
  have bound := Finset.mem_range.1 bound
  exact ⟨second, mem_others_iff.2 ⟨bound, outside⟩,
    connects_of_ties separate built bound outside listed ties⟩

/-- **Whatever is reached** has a predicate at every join. -/
theorem Reached.joint (reached : graph.Reached current) : graph.Joint current := by
  -- What is chosen crosses only where all that could be chosen do.
  have joins : ∀ {tree : Joined} {number : Nat}, graph.Built tree → number ∈ graph.others tree →
      ((graph.join tree (graph.single number)).tree.isCross = true →
        ∀ other ∈ graph.others tree, (graph.join tree (graph.single other)).tree.isCross = true) →
      graph.Connects tree (graph.single number) := by
    intro tree number built remains all
    by_contra apart
    obtain ⟨other, among, connects⟩ := exists_connects separate connected built remains
    exact isCross_join_iff.1 (all (isCross_join_iff.2 apart) other among) connects
  induction reached with
  | @seed left right before inside chosen =>
    have first := before.trans inside
    have remains : right ∈ graph.others (graph.single left) :=
      mem_others_iff.2 ⟨inside, fun listed => before.ne' (List.mem_singleton.1 listed)⟩
    exact .join (.single first) inside
      (joins (.single first) remains (others_cross_of_seed? before inside chosen))
  | extension earlier remains chosen ih =>
    exact .join ih (mem_others_iff.1 remains).1
      (joins earlier.linear.built remains (extension?_crosses chosen))

/-- **A greedy order of connected components** is a join that has a predicate, and so are all below. -/
theorem greedyOrder_joint {guard : Guard} {tree : JoinTree} (several : 2 ≤ graph.components.length)
    (done : graph.greedyOrder guard = .ok tree) :
    ∃ left number, graph.Joint left ∧ number < graph.components.length ∧
      graph.Connects left (graph.single number) ∧ (graph.join left (graph.single number)).tree = tree := by
  have some : graph.components ≠ [] := List.ne_nil_of_length_pos (by omega)
  rcases greedyOrder_cases (unfired_of_greedyOrder several done) some with
    ⟨one, _⟩ | ⟨last, reached, nothing, ordered⟩
  · omega
  · have perm := reached.leaves_perm nothing
    obtain rfl : last.tree = tree := Except.ok.inj (ordered.symm.trans done)
    cases reached.joint separate connected with
    | @single number =>
      have one : [number].length = (List.range graph.components.length).length := perm.length_eq
      rw [List.length_range, List.length_singleton] at one
      omega
    | join first inside connects => exact ⟨_, _, first, inside, connects, rfl⟩

end Connected

end Cascades.JoinGraph
