/-
**All rules rearrange.**

What a rule proposes for a binding redistributes what the group of the binding holds. An exploring rule
divides the conjuncts of the bound joins anew; a greedy order applies every conjunct once or leaves it
for its topmost join, whatever columns the inputs share; a physical form holds what its logical one does.

* `Rule.Rearranging`: a rule that redistributes;
* `joinCommutativity_rearranging`, `joinAssociativity_rearranging`, `pushSelectIntoJoin_rearranging`,
  `expandNaryJoin_rearranging`, `Implements.rearranging`: the rules one by one;
* `standard_rearranging`, `Rearranging.proposals`: all rules, and all that they propose.
-/

import Cascades.Proofs.Gathering.Expansion
import Cascades.Proofs.Gathering.Rearranged
import Cascades.Proofs.Rule.Implementation

namespace Cascades

open Memo

variable {forms : Prop} {context : Context} {memo : Memo} {breadth : GroupId → Breadth}

/-- What a rule proposes for a binding redistributes what the group of the binding holds. -/
def Rule.Rearranging (rule : Rule) : Prop :=
  ∀ {context : Context} {breadth : GroupId → Breadth} {binding : Binding}
    {proposals : List Proposal}, context.memo.Formed breadth → context.memo.Holds →
      binding.Drawn context.memo rule.pattern → rule.transform context binding = .ok proposals →
        ∀ proposal ∈ proposals,
          context.memo.Redistributes (rule.kind = .implementation) binding.group proposal

/-! ### Bindings -/

/-- The expression that a binding shows holds what its group holds. -/
theorem Binding.Drawn.holds {binding : Binding} {pattern : Pattern}
    (drawn : binding.Drawn memo pattern) (inner : pattern.isLeaf = false) (holds : memo.Holds) :
    binding.operator.gather binding.group (binding.childGroups.map memo.contents) =
      memo.contents binding.group := by
  obtain ⟨id, expr, stored, shown, named, groups, _⟩ := drawn.inner inner
  rw [shown, named, groups]
  exact holds id expr stored

theorem Binding.Drawn.inside {binding : Binding} {pattern : Pattern}
    (drawn : binding.Drawn memo pattern) (inner : pattern.isLeaf = false) (valid : memo.Valid) :
    ∀ child ∈ binding.childGroups, child < memo.groups.size := by
  obtain ⟨id, expr, stored, _, _, groups, _⟩ := drawn.inner inner
  intro child member
  exact valid.childExists stored (groups ▸ member)

namespace Rule

/-- **An inner join that a binding shows** holds what its relations and its predicate hold. -/
theorem Spans.contents_eq {binding : Binding} {left right predicate : GroupId} {low high : Nat}
    (spans : Spans memo breadth binding left right predicate low high) {patterns : List Pattern}
    (drawn : binding.Drawn memo (.logical .join patterns)) (holds : memo.Holds) {type : JoinType}
    (operator : binding.operator = .logical (.join type)) (inner : type.isInner = true) :
    memo.contents binding.group =
      memo.contents left + memo.contents right + memo.contents predicate := by
  have whole := drawn.holds rfl holds
  have gathers : (Operator.logical (.join type)).gathers = true := inner
  rw [operator, Operator.gather_of_gathers gathers, spans.groups] at whole
  simp [← whole, add_assoc]

/-! ### Exchange of inputs -/

theorem joinCommutativity_rearranging : joinCommutativity.Rearranging := by
  intro context breadth binding proposals formed holds drawn done proposal member
  obtain ⟨type, left, right, predicate, operator, inner, leftGiven, rightGiven, predicateGiven, rfl⟩ :=
    joinCommutativity_cases done member
  obtain ⟨one, two, three, low, high, spans⟩ := exists_spans formed drawn operator
  obtain rfl := Except.ok.inj (spans.childGroup_left.symm.trans leftGiven)
  obtain rfl := Except.ok.inj (spans.childGroup_right.symm.trans rightGiven)
  obtain rfl := Except.ok.inj (spans.childGroup_predicate.symm.trans predicateGiven)
  have gathers : (Operator.logical (.join type)).gathers = true := inner
  refine .overGroups ?_ ?_ fun operator shape _ => .join inner operator shape
    (spans.rightIs.relational formed) (spans.leftIs.relational formed) spans.predicateIs
  · simp [spans.leftIs.inside, spans.rightIs.inside, spans.predicateIs.inside]
  · rw [Operator.gather_of_gathers gathers, spans.contents_eq drawn holds operator inner]
    simp only [List.map_cons, List.map_nil, List.sum_cons, List.sum_nil]
    abel

/-! ### Selections above joins -/

theorem pushSelectIntoJoin_rearranging : pushSelectIntoJoin.Rearranging := by
  intro context breadth binding proposals formed holds drawn done proposal member
  obtain ⟨below, type, inner, outer, left, right, select, belowGiven, operator, isInner, innerGiven,
    outerGiven, leftGiven, rightGiven, rfl⟩ := pushSelectIntoJoin_cases done member
  obtain ⟨_, expr, stored, shown, _, groups, _⟩ := drawn.inner rfl
  obtain ⟨drawnBelow, first⟩ := drawn_below drawn rfl belowGiven
  have valid := formed.toValid
  have laid : context.memo.Laid := formed.laid
  obtain ⟨one, two, three, low, high, spans⟩ := exists_spans formed drawnBelow operator
  obtain rfl := Except.ok.inj (spans.childGroup_left.symm.trans leftGiven)
  obtain rfl := Except.ok.inj (spans.childGroup_right.symm.trans rightGiven)
  obtain rfl := Except.ok.inj (spans.childGroup_predicate.symm.trans innerGiven)
  obtain ⟨source, predicate, shape, _, scalar⟩ :
      ∃ source predicate, expr.children = [source, predicate] ∧
        context.memo.Relational source ∧ context.memo.Scalar predicate :=
    laid.logical valid.toLinked stored (shown.symm.trans select)
  have second := Binding.childGroup_ok_iff.1 outerGiven
  rw [groups, shape] at first second
  obtain rfl : source = below.group := Option.some.inj first
  obtain rfl : predicate = outer := Option.some.inj second
  have whole := drawn.holds rfl holds
  rw [select, Operator.gather_of_gathers rfl, groups, shape] at whole
  refine .join (.group (spans.leftIs.relational formed)) (.group (spans.rightIs.relational formed))
    (List.forall_mem_append.2 ⟨laid.atomic_conjuncts valid spans.predicateIs,
      laid.atomic_conjuncts valid scalar⟩) ?_
  rw [← whole, ← Multiset.coe_add, laid.conjuncts_eq valid spans.predicateIs,
    laid.conjuncts_eq valid scalar]
  simp only [List.map_cons, List.map_nil, List.sum_cons, List.sum_nil,
    spans.contents_eq drawnBelow holds operator isInner]
  abel

/-! ### Regrouping -/

/-- **A regrouped join** redistributes what the three relations and all conjuncts hold. -/
theorem regroup_redistributes {outerConjuncts : List (GroupId × ColumnSet)}
    {innerConjuncts : List GroupId} {stay moved other target : GroupId}
    {movedColumns otherColumns : ColumnSet} {proposal : Proposal}
    (stays : memo.Relational stay) (moves : memo.Relational moved) (joins : memo.Relational other)
    (outer : ∀ conjunct ∈ outerConjuncts.map (·.1), memo.Atomic conjunct)
    (inner : ∀ conjunct ∈ innerConjuncts, memo.Atomic conjunct)
    (whole : memo.contents stay + memo.contents moved + memo.contents other +
      (innerConjuncts : Multiset GroupId) + (outerConjuncts.map (·.1) : List GroupId) =
        memo.contents target)
    (done : regroup? outerConjuncts innerConjuncts stay moved other movedColumns otherColumns =
      some proposal) : memo.Redistributes forms target proposal := by
  obtain ⟨pushed, kept, _, divided, _, _, rfl⟩ := regroup?_divides done
  have conjuncts : (pushed.map (·.1) ++ kept.map (·.1)).Perm (outerConjuncts.map (·.1)) := by
    rw [← List.map_append]
    exact divided.map _
  obtain ⟨pushedIs, keptIs⟩ := List.forall_mem_append.1 fun conjunct member =>
    outer conjunct (conjuncts.mem_iff.1 member)
  refine .join (.group stays) (.join (.group moves) (.group joins) pushedIs)
    (List.forall_mem_append.2 ⟨inner, keptIs⟩) ?_
  rw [← whole, ← Multiset.coe_eq_coe.2 conjuncts, ← Multiset.coe_add, ← Multiset.coe_add]
  abel

theorem joinAssociativity_rearranging : joinAssociativity.Rearranging := by
  intro context breadth binding proposals formed holds drawn done proposal member
  obtain ⟨below, left, right, other, predicate, condition, leftColumns, rightColumns, otherColumns,
    outer, belowGiven, operator, operatorBelow, leftGiven, rightGiven, otherGiven, predicateGiven,
    conditionGiven, _, _, _, outerRead, regrouped⟩ := joinAssociativity_cases done member
  have valid := formed.toValid
  have laid : context.memo.Laid := formed.laid
  obtain ⟨_, _, _, _, _, _, _, _, _, drawnBelow, spans, spansBelow⟩ :=
    exists_nested formed drawn belowGiven operator operatorBelow
  obtain rfl := Except.ok.inj (spansBelow.childGroup_left.symm.trans leftGiven)
  obtain rfl := Except.ok.inj (spansBelow.childGroup_right.symm.trans rightGiven)
  obtain rfl := Except.ok.inj (spansBelow.childGroup_predicate.symm.trans conditionGiven)
  obtain rfl := Except.ok.inj (spans.childGroup_right.symm.trans otherGiven)
  obtain rfl := Except.ok.inj (spans.childGroup_predicate.symm.trans predicateGiven)
  have listed := usedColumns_conjuncts outerRead
  have leftIs := spansBelow.leftIs.relational formed
  have rightIs := spansBelow.rightIs.relational formed
  have otherIs := spans.rightIs.relational formed
  have outerIs : ∀ conjunct ∈ outer.map (·.1), context.memo.Atomic conjunct :=
    listed ▸ laid.atomic_conjuncts valid spans.predicateIs
  have innerIs := laid.atomic_conjuncts valid spansBelow.predicateIs
  have whole := spans.contents_eq drawn holds operator rfl
  rw [spansBelow.contents_eq drawnBelow holds operatorBelow rfl] at whole
  rcases regrouped with one | one
  · refine regroup_redistributes leftIs rightIs otherIs outerIs innerIs ?_ one
    rw [whole, listed, laid.conjuncts_eq valid spans.predicateIs,
      laid.conjuncts_eq valid spansBelow.predicateIs]
    abel
  · refine regroup_redistributes rightIs leftIs otherIs outerIs innerIs ?_ one
    rw [whole, listed, laid.conjuncts_eq valid spans.predicateIs,
      laid.conjuncts_eq valid spansBelow.predicateIs]
    abel

/-! ### Expansion -/

/-- A graph has a component for every input. -/
theorem ofGroups_length {inputs : List GroupId} {predicate : GroupId} {graph : JoinGraph}
    (done : JoinGraph.ofGroups context inputs predicate = .ok graph) :
    graph.components.length = inputs.length :=
  (JoinGraph.ofGroups_reads done).components.length_eq.symm

section Tree

variable {graph : JoinGraph} {inputs : List GroupId}
  (relational : ∀ input ∈ inputs, memo.Relational input)
  (length : graph.components.length = inputs.length)
  (atomic : ∀ conjunct ∈ graph.predicates.filterMap JoinPredicate.group, memo.Atomic conjunct)

include atomic in
/-- The predicates that joins of a graph apply are atomic. -/
theorem atomic_groupsOf (numbers : List Nat) :
    ∀ conjunct ∈ graph.groupsOf numbers, memo.Atomic conjunct := by
  intro conjunct member
  obtain ⟨_, _, found, there, named⟩ := JoinGraph.mem_groupsOf_iff.1 member
  exact atomic conjunct (List.mem_filterMap.2 ⟨found, List.mem_of_getElem? there, named⟩)

include atomic in
/-- So are those that no join applies. -/
theorem atomic_leftover {tree : JoinTree} :
    ∀ conjunct ∈ leftover graph tree, memo.Atomic conjunct := by
  intro conjunct remains
  obtain ⟨_, _, found, there, named⟩ := mem_leftover_iff.1 remains
  exact atomic conjunct (List.mem_filterMap.2 ⟨found, List.mem_of_getElem? there, named⟩)

include relational length atomic

/-- **The joins for a tree** hold what its inputs hold, and the conjuncts that it applies. -/
theorem rearranges_joinsOf {joined : JoinGraph.Joined} (built : graph.Built joined) :
    memo.Rearranges (joinsOf graph inputs [] joined.tree)
      (heldBy memo graph inputs joined.tree) := by
  induction built with
  | @single number inside =>
    have held : heldBy memo graph inputs (graph.single number).tree =
        memo.contents (inputs.getD number 0) := by
      show ([memo.contents (inputs.getD number 0)].sum : Multiset GroupId) + 0 = _
      rw [List.sum_singleton, add_zero]
    rw [held]
    refine .group (relational _ ?_)
    simp [length ▸ inside]
  | @join left right _ _ ihLeft ihRight =>
    have applies : joinsOf graph inputs [] (graph.join left right).tree =
        .node innerJoin [joinsOf graph inputs [] left.tree, joinsOf graph inputs [] right.tree,
          .conjunction (graph.groupsOf (graph.appliedAt left right))] := by
      show Proposal.node innerJoin [_, _, .conjunction (graph.groupsOf _ ++ [])] = _
      rw [List.append_nil]
      rfl
    rw [heldBy_join, applies]
    exact .join ihLeft ihRight (atomic_groupsOf atomic _)

/-- **The joins for a greedy order** redistribute what all inputs and all conjuncts hold. -/
theorem greedyOrder_redistributes {target : GroupId} (several : 2 ≤ inputs.length)
    (whole : (inputs.map memo.contents).sum +
      (graph.predicates.filterMap JoinPredicate.group : List GroupId) = memo.contents target)
    {guard : Guard} {tree : JoinTree} (done : graph.greedyOrder guard = .ok tree) :
    memo.Redistributes forms target (joinsOf graph inputs (leftover graph tree) tree) := by
  obtain ⟨left, right, first, second, linear, rfl, perm⟩ :=
    JoinGraph.greedyOrder_join (length ▸ several) done
  rw [length] at perm
  have conjuncts := linear.conjuncts_perm
  have held : heldBy memo graph inputs (graph.join left right).tree +
      (leftover graph (graph.join left right).tree : List GroupId) = memo.contents target := by
    rw [← whole, ← Multiset.coe_eq_coe.2 conjuncts, ← Multiset.coe_add, ← add_assoc, heldBy,
      ((inputsAt_perm perm).map memo.contents).sum_eq]
  have joins : memo.Redistributes forms target (.node innerJoin [_, _,
      .conjunction (graph.groupsOf (graph.appliedAt left right) ++ _)]) := .join
    (rearranges_joinsOf relational length atomic first)
    (rearranges_joinsOf relational length atomic second)
    (List.forall_mem_append.2 ⟨atomic_groupsOf atomic _, atomic_leftover atomic⟩) <| by
      rw [← held, heldBy_join, ← Multiset.coe_add, add_assoc, add_assoc, add_assoc]
  exact joins

end Tree

theorem expandNaryJoin_rearranging : expandNaryJoin.Rearranging := by
  intro context breadth binding proposals formed holds drawn done proposal member
  obtain ⟨sources, predicate, operator, groups, proposed⟩ := expandNaryJoin_cases done member
  have valid := formed.toValid
  have laid : context.memo.Laid := formed.laid
  have whole := drawn.holds rfl holds
  rw [operator, Operator.gather_of_gathers rfl, groups] at whole
  obtain ⟨id, expr, stored, shown, _, children, _⟩ := drawn.inner rfl
  obtain ⟨head, tail, condition, shape, relational, scalar⟩ :
      ∃ head tail condition, expr.children = head :: tail ++ [condition] ∧
        (∀ input ∈ head :: tail, context.memo.Relational input) ∧ context.memo.Scalar condition :=
    laid.logical valid.toLinked stored (shown.symm.trans operator)
  obtain ⟨rfl, last⟩ := List.append_inj' (groups.symm.trans (children.trans shape)) rfl
  obtain rfl := List.singleton_inj.1 last
  rcases proposed with ⟨input, same, rfl⟩ | ⟨several, graph, tree, shown, ordered, rfl⟩
  · rw [same] at whole groups
    refine .overGroups ?_ ((Operator.gather_of_gathers rfl).trans whole)
      fun operator shape later => .select later operator shape
    exact fun child among => drawn.inside rfl valid child (groups ▸ among)
  · have listed := JoinGraph.ofGroups_conjuncts shown
    refine greedyOrder_redistributes relational (ofGroups_length shown)
      (listed ▸ laid.atomic_conjuncts valid scalar) several ?_ ordered
    rw [listed, laid.conjuncts_eq valid scalar, ← whole]
    simp [add_assoc]

/-! ### All rules -/

/-- A physical form holds what its logical one does. -/
theorem Implements.rearranging {rule : Rule} (implements : rule.Implements)
    (kind : rule.kind = .implementation) (inner : rule.pattern.isLeaf = false) :
    rule.Rearranging := by
  intro context breadth binding proposals formed holds drawn done proposal member
  obtain ⟨operator, implemented, rfl⟩ := implements drawn done proposal member
  have whole := drawn.holds inner holds
  rw [implemented] at whole
  refine .overGroups (drawn.inside inner formed.toValid) whole fun shown _ later => ?_
  exact .physical kind later (shown ▸ rfl)

/-- **All rules rearrange.** -/
theorem standard_rearranging : ∀ rule ∈ standard, rule.Rearranging := by
  refine forall_standard joinCommutativity_rearranging joinAssociativity_rearranging
    expandNaryJoin_rearranging pushSelectIntoJoin_rearranging fun rule listed => ?_
  have implements : rule.Implements := implementing_implements rule listed
  show rule.Rearranging
  exact implements.rearranging (implementing_kind rule listed) (implementing_inner rule listed)

/-- What a rule proposes for an expression redistributes what its group holds. -/
theorem Rearranging.proposals {rule : Rule} (rearranging : rule.Rearranging)
    (formed : context.memo.Formed breadth) (holds : context.memo.Holds) {id : ExprId} {expr : Expr}
    (stored : context.memo.exprs[id]? = some expr) {proposals : List Proposal}
    (done : rule.proposals context id = .ok proposals) :
    ∀ proposal ∈ proposals,
      context.memo.Redistributes (rule.kind = .implementation) expr.group proposal := by
  intro proposal member
  obtain ⟨binding, alternatives, drawn, same, transformed, inside⟩ :=
    exists_of_proposals formed.toValid stored done member
  exact same ▸ rearranging formed holds drawn transformed proposal inside

end Rule

end Cascades
