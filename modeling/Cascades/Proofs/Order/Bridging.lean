/-
**Rules propose no cross products.**

Where a memo has no cross product, what a rule proposes for it has none. An exchange of inputs and a
selection that joins take in keep a conjunct that uses columns of both inputs. Of a regrouped join the
new inner one has the conjuncts that moved to it, and the outer one keeps those of the old inner one: one
of these uses columns of the relations that were parted. A join of many inputs is put into an order in
which every join has a predicate.

* `Rule.Bridging`: a rule that proposes no cross products;
* `joinCommutativity_bridging`, `pushSelectIntoJoin_bridging`, `joinAssociativity_bridging`: the rules for
  binary joins;
* `Reads.connected`, `bridges_joinsOf`, `expandNaryJoin_bridging`: the rule for joins of many inputs;
* `standard_bridging`: all rules.
-/

import Cascades.Proofs.Greedy.Joint
import Cascades.Proofs.Order.Crossless

namespace Cascades

open Memo

variable {memo : Memo} {context : Context} {breadth : GroupId → Breadth}

/-- What a rule proposes for a memo without cross products has none. -/
def Rule.Bridging (rule : Rule) : Prop :=
  ∀ {context : Context} {breadth : GroupId → Breadth} {binding : Binding}
    {proposals : List Proposal}, context.memo.Formed breadth → context.Exact →
      context.memo.Crossless → binding.Drawn context.memo rule.pattern →
        rule.transform context binding = .ok proposals →
          ∀ proposal ∈ proposals, context.memo.Clear proposal

/-- The expression that a binding shows is no cross product. -/
theorem Binding.Drawn.uncrossed {binding : Binding} {pattern : Pattern}
    (drawn : binding.Drawn memo pattern) (inner : pattern.isLeaf = false)
    (crossless : memo.Crossless) : memo.Uncrossed binding.operator binding.childGroups := by
  obtain ⟨id, expr, stored, shown, _, groups, _⟩ := drawn.inner inner
  rw [shown, groups]
  exact crossless id expr stored

namespace Rule

/-- A join that a binding shows, if it may exchange its inputs, is an inner join and no cross product. -/
theorem Spans.crossFree {binding : Binding} {left right predicate : GroupId} {low high : Nat}
    (spans : Spans memo breadth binding left right predicate low high) {patterns : List Pattern}
    (drawn : binding.Drawn memo (.logical .join patterns)) (crossless : memo.Crossless)
    {type : JoinType} (operator : binding.operator = .logical (.join type))
    (inner : type.isInner = true) : type = .inner ∧ memo.CrossFree left right predicate := by
  have uncrossed := drawn.uncrossed rfl crossless
  cases type with
  | inner =>
    obtain ⟨_, _, _, groups, free⟩ := uncrossed.inner operator
    rw [spans.groups] at groups
    cases groups
    exact ⟨rfl, free⟩
  | cross => exact absurd operator uncrossed.cross
  | left | right | full | semi | anti => cases inner

/-- A join of two groups under conjuncts of which some use columns of both. -/
theorem bridges_groups {left right : GroupId} {conjuncts : List GroupId}
    (inLeft : left < memo.groups.size) (inRight : right < memo.groups.size)
    (each : ∀ conjunct ∈ conjuncts, memo.Atomic conjunct)
    (across : ∃ conjunct ∈ conjuncts,
      memo.Meets conjunct (· ∈ (memo.scope left).columns) (· ∈ (memo.scope right).columns)) :
    memo.Bridges (.node innerJoin [.group left, .group right, .conjunction conjuncts])
      fun column => column ∈ (memo.scope left).columns ∨ column ∈ (memo.scope right).columns :=
  .join (.group inLeft) (.group inRight) each across

/-! ### Binary joins -/

theorem joinCommutativity_bridging : joinCommutativity.Bridging := by
  intro context breadth binding proposals formed _ crossless drawn done proposal member
  obtain ⟨type, left, right, predicate, operator, inner, leftGiven, rightGiven, predicateGiven, rfl⟩ :=
    joinCommutativity_cases done member
  obtain ⟨one, two, three, low, high, spans⟩ := exists_spans formed drawn operator
  obtain rfl := Except.ok.inj (spans.childGroup_left.symm.trans leftGiven)
  obtain rfl := Except.ok.inj (spans.childGroup_right.symm.trans rightGiven)
  obtain rfl := Except.ok.inj (spans.childGroup_predicate.symm.trans predicateGiven)
  obtain ⟨rfl, free⟩ := spans.crossFree drawn crossless operator inner
  refine .overGroups ?_ (uncrossed_of_crossFree free.symm)
  simp [spans.leftIs.inside, spans.rightIs.inside, spans.predicateIs.inside]

theorem pushSelectIntoJoin_bridging : pushSelectIntoJoin.Bridging := by
  intro context breadth binding proposals formed _ crossless drawn done proposal member
  obtain ⟨below, type, inner, outer, left, right, select, belowGiven, operator, isInner, innerGiven,
    outerGiven, leftGiven, rightGiven, rfl⟩ := pushSelectIntoJoin_cases done member
  obtain ⟨drawnBelow, _⟩ := drawn_below drawn rfl belowGiven
  have valid := formed.toValid
  have laid : context.memo.Laid := formed.laid
  obtain ⟨one, two, three, low, high, spans⟩ := exists_spans formed drawnBelow operator
  obtain rfl := Except.ok.inj (spans.childGroup_left.symm.trans leftGiven)
  obtain rfl := Except.ok.inj (spans.childGroup_right.symm.trans rightGiven)
  obtain rfl := Except.ok.inj (spans.childGroup_predicate.symm.trans innerGiven)
  obtain ⟨_, expr, stored, shown, _, groups, _⟩ := drawn.inner rfl
  obtain ⟨source, predicate, shape, _, scalar⟩ :
      ∃ source predicate, expr.children = [source, predicate] ∧
        context.memo.Relational source ∧ context.memo.Scalar predicate :=
    laid.logical valid.toLinked stored (shown.symm.trans select)
  have second := Binding.childGroup_ok_iff.1 outerGiven
  rw [groups, shape] at second
  obtain rfl : predicate = outer := Option.some.inj second
  obtain ⟨_, conjunct, listed, meets⟩ := spans.crossFree drawnBelow crossless operator isInner
  exact .bridges (bridges_groups spans.leftIs.inside spans.rightIs.inside
    (List.forall_mem_append.2 ⟨laid.atomic_conjuncts valid spans.predicateIs,
      laid.atomic_conjuncts valid scalar⟩) ⟨conjunct, List.mem_append_left _ listed, meets⟩)

/-- **A regrouped join**: what moved is between the inputs of the new inner join, and what the old inner
join had is between the relation that stays and the moved one. -/
theorem regroup_clear {outerConjuncts : List (GroupId × ColumnSet)} {innerConjuncts : List GroupId}
    {stay moved other : GroupId} {proposal : Proposal} (stays : stay < memo.groups.size)
    (moves : moved < memo.groups.size) (joins : other < memo.groups.size)
    (outer : ∀ entry ∈ outerConjuncts, memo.Atomic entry.1 ∧ entry.2 = (memo.scope entry.1).free)
    (inner : ∀ conjunct ∈ innerConjuncts, memo.Atomic conjunct)
    (free : ∃ conjunct ∈ innerConjuncts,
      memo.Meets conjunct (· ∈ (memo.scope stay).columns) (· ∈ (memo.scope moved).columns))
    (done : regroup? outerConjuncts innerConjuncts stay moved other (memo.scope moved).columns
      (memo.scope other).columns = some proposal) : memo.Clear proposal := by
  obtain ⟨pushed, kept, some, divided, moving, _, rfl⟩ := regroup?_divides done
  have among : ∀ entry ∈ pushed ++ kept,
      memo.Atomic entry.1 ∧ entry.2 = (memo.scope entry.1).free := fun entry listed =>
    outer entry (divided.subset listed)
  obtain ⟨pushedIs, keptIs⟩ := List.forall_mem_append.1 among
  obtain ⟨entry, listed⟩ := List.exists_mem_of_ne_nil pushed some
  have moves' := moving entry listed
  rw [(pushedIs entry listed).2] at moves'
  obtain ⟨conjunct, kept, meets⟩ := free
  refine .bridges (.join (.group stays) (bridges_groups moves joins ?_ ?_) ?_ ?_)
  · exact List.forall_mem_map.2 fun entry listed => (pushedIs entry listed).1
  · exact ⟨entry.1, List.mem_map_of_mem listed, moves'.moved, moves'.other⟩
  · exact List.forall_mem_append.2
      ⟨inner, List.forall_mem_map.2 fun entry listed => (keptIs entry listed).1⟩
  · exact ⟨conjunct, List.mem_append_left _ kept, meets.mono (fun _ => id) fun _ => Or.inl⟩

theorem joinAssociativity_bridging : joinAssociativity.Bridging := by
  intro context breadth binding proposals formed exactly crossless drawn done proposal member
  obtain ⟨below, left, right, other, predicate, condition, leftColumns, rightColumns, otherColumns,
    outer, belowGiven, operator, operatorBelow, leftGiven, rightGiven, otherGiven, predicateGiven,
    conditionGiven, leftRead, rightRead, otherRead, outerRead, regrouped⟩ :=
    joinAssociativity_cases done member
  obtain ⟨_, _, _, _, _, _, _, _, _, drawnBelow, spans, spansBelow⟩ :=
    exists_nested formed drawn belowGiven operator operatorBelow
  obtain rfl := Except.ok.inj (spansBelow.childGroup_left.symm.trans leftGiven)
  obtain rfl := Except.ok.inj (spansBelow.childGroup_right.symm.trans rightGiven)
  obtain rfl := Except.ok.inj (spansBelow.childGroup_predicate.symm.trans conditionGiven)
  obtain rfl := Except.ok.inj (spans.childGroup_right.symm.trans otherGiven)
  obtain rfl := Except.ok.inj (spans.childGroup_predicate.symm.trans predicateGiven)
  have valid := formed.toValid
  have laid : context.memo.Laid := formed.laid
  have leftIs := spansBelow.leftIs.relational formed
  have rightIs := spansBelow.rightIs.relational formed
  have otherIs := spans.rightIs.relational formed
  obtain rfl := Except.ok.inj ((exactly.columns leftIs).symm.trans leftRead)
  obtain rfl := Except.ok.inj ((exactly.columns rightIs).symm.trans rightRead)
  obtain rfl := Except.ok.inj ((exactly.columns otherIs).symm.trans otherRead)
  have atomic := laid.atomic_conjuncts valid spans.predicateIs
  have outerIs : ∀ entry ∈ outer, context.memo.Atomic entry.1 ∧
      entry.2 = (context.memo.scope entry.1).free := by
    intro entry listed
    obtain ⟨conjunct, among, given⟩ := (mem_mapM_iff outerRead).1 listed
    obtain ⟨columns, read, given⟩ := bind_eq_ok_iff.1 given
    cases pure_eq_ok_iff.1 given
    have known := exactly.used (atomic conjunct among).scalar
    exact ⟨atomic conjunct among,
      Except.ok.inj ((lift_fault_eq_ok_iff.1 read).symm.trans known)⟩
  have innerIs := laid.atomic_conjuncts valid spansBelow.predicateIs
  obtain ⟨_, conjunct, listed, meets⟩ := spansBelow.crossFree drawnBelow crossless operatorBelow rfl
  rcases regrouped with one | one
  · exact regroup_clear leftIs.inside rightIs.inside otherIs.inside outerIs innerIs
      ⟨conjunct, listed, meets⟩ one
  · exact regroup_clear rightIs.inside leftIs.inside otherIs.inside outerIs innerIs
      ⟨conjunct, listed, meets.symm⟩ one

/-! ### Joins of many inputs -/

section Tree

variable {graph : JoinGraph} {inputs : List GroupId} {predicate : GroupId}
  (reads : graph.Reads context inputs predicate) (exactly : context.Exact)
  (relational : ∀ input ∈ inputs, context.memo.Relational input)
include reads exactly relational

/-- The columns of a component are those of its group. -/
theorem columnsOf_eq_scope {number : Nat} {input : GroupId} (there : inputs[number]? = some input) :
    graph.columnsOf number = (context.memo.scope input).columns := by
  obtain ⟨count, each⟩ := List.forall₂_iff_get.1 reads.components
  obtain ⟨inside, rfl⟩ := List.getElem?_eq_some_iff.1 there
  have read : outputColumns context inputs[number] = .ok _ := each number inside (count ▸ inside)
  rw [exactly.columns (relational _ (List.getElem_mem inside))] at read
  rw [JoinGraph.columnsOf, List.getD_eq_getElem?_getD, List.getElem?_eq_getElem (count ▸ inside)]
  exact (Except.ok.inj read).symm

theorem separate_of_apart (apart : inputs.Pairwise fun one other =>
    ∀ column ∈ (context.memo.scope one).columns, column ∉ (context.memo.scope other).columns) :
    graph.Separate (List.range graph.components.length) := by
  refine List.pairwise_iff_getElem.2 fun one other here there before column => ?_
  have count := reads.components.length_eq
  rw [List.length_range, ← count] at here there
  rw [List.getElem_range, List.getElem_range,
    columnsOf_eq_scope reads exactly relational (List.getElem?_eq_getElem here),
    columnsOf_eq_scope reads exactly relational (List.getElem?_eq_getElem there)]
  exact List.pairwise_iff_getElem.1 apart one other here there before column

variable (atomic : ∀ conjunct ∈ context.memo.conjuncts predicate, context.memo.Atomic conjunct)
include atomic

/-- Conjuncts that connect the inputs connect the components. -/
theorem connected_of_linkedAt
    (connected : Connected (context.memo.LinkedAt inputs predicate) (Finset.range inputs.length)) :
    Connected graph.Ties (Finset.range graph.components.length) := by
  rw [← reads.components.length_eq]
  refine connected.imp ?_
  rintro one two ⟨first, second, atOne, atTwo, conjunct, listed, links⟩
  obtain ⟨found, member, _, read⟩ := reads.conjuncts conjunct listed
  rw [exactly.used (atomic conjunct listed).scalar] at read
  have uses := Except.ok.inj read
  have here := columnsOf_eq_scope reads exactly relational atOne
  have there := columnsOf_eq_scope reads exactly relational atTwo
  unfold JoinGraph.Ties JoinGraph.Uses
  rw [here, there]
  refine ⟨found, member, ?_⟩
  rw [← uses]
  exact ⟨links.left, links.right, links.within⟩

omit exactly relational in
/-- The predicates of the graph are atomic. -/
theorem atomic_predicates :
    ∀ conjunct ∈ graph.predicates.filterMap JoinPredicate.group, context.memo.Atomic conjunct := by
  intro conjunct member
  obtain ⟨found, inside, named⟩ := List.mem_filterMap.1 member
  obtain ⟨other, listed, same, _⟩ := reads.predicates found inside
  obtain rfl := Option.some.inj (named.symm.trans same)
  exact atomic conjunct listed

omit relational in
/-- **A join of trees** with a predicate between them. -/
theorem bridges_join {left right : JoinGraph.Joined} {extra : List GroupId}
    (low : context.memo.Bridges (joinsOf graph inputs [] left.tree) (· ∈ left.columns))
    (high : context.memo.Bridges (joinsOf graph inputs [] right.tree) (· ∈ right.columns))
    (connects : graph.Connects left right)
    (extraIs : ∀ conjunct ∈ extra, context.memo.Atomic conjunct) :
    context.memo.Bridges (joinsOf graph inputs extra (graph.join left right).tree)
      (· ∈ (graph.join left right).columns) := by
  have columns : (fun column => column ∈ left.columns ∨ column ∈ right.columns) =
      (· ∈ (graph.join left right).columns) := funext fun _ => propext SortedSet.mem_union.symm
  obtain ⟨number, place, found, there, uses⟩ := connects.exists_across
  obtain ⟨conjunct, listed, named, read⟩ := reads.predicates found (List.mem_of_getElem? there)
  rw [exactly.used (atomic conjunct listed).scalar] at read
  rw [← Except.ok.inj read] at uses
  rw [← columns]
  show context.memo.Bridges (.node innerJoin [_, _,
    .conjunction (graph.groupsOf (graph.appliedAt left right) ++ extra)]) _
  exact .join low high
    (List.forall_mem_append.2 ⟨atomic_groupsOf (atomic_predicates reads atomic) _, extraIs⟩)
    ⟨conjunct, List.mem_append_left _
      (JoinGraph.mem_groupsOf_iff.2 ⟨number, place, found, there, named⟩), uses⟩

/-- **The joins for a tree** in which every join has a predicate. -/
theorem bridges_joinsOf {joined : JoinGraph.Joined} (joint : graph.Joint joined) :
    context.memo.Bridges (joinsOf graph inputs [] joined.tree) (· ∈ joined.columns) := by
  have single : ∀ {number : Nat}, number < graph.components.length →
      context.memo.Bridges (joinsOf graph inputs [] (graph.single number).tree)
        (· ∈ (graph.single number).columns) := by
    intro number inside
    rw [← reads.components.length_eq] at inside
    have there : inputs[number]? = some inputs[number] := List.getElem?_eq_getElem inside
    have columns : (graph.single number).columns = (context.memo.scope inputs[number]).columns :=
      columnsOf_eq_scope reads exactly relational there
    rw [columns]
    show context.memo.Bridges (.group (inputs.getD number 0)) _
    rw [List.getD_eq_getElem?_getD, there]
    exact .group (relational _ (List.getElem_mem inside)).inside
  induction joint with
  | single inside => exact single inside
  | join _ inside connects ih =>
    exact bridges_join reads exactly atomic ih (single inside) connects
      (List.forall_mem_nil _)

end Tree

theorem expandNaryJoin_bridging : expandNaryJoin.Bridging := by
  intro context breadth binding proposals formed exactly crossless drawn done proposal member
  obtain ⟨sources, predicate, operator, groups, proposed⟩ := expandNaryJoin_cases done member
  obtain ⟨inputs, condition, shape, tied⟩ := (drawn.uncrossed rfl crossless).naryJoin operator
  obtain ⟨rfl, last⟩ := List.append_inj' (groups.symm.trans shape) rfl
  obtain rfl := List.singleton_inj.1 last
  rcases proposed with ⟨input, rfl, _⟩ | ⟨several, graph, tree, shown, ordered, rfl⟩
  · exact absurd tied.several (by simp)
  have valid := formed.toValid
  have laid : context.memo.Laid := formed.laid
  obtain ⟨id, expr, stored, shownIs, _, children, _⟩ := drawn.inner rfl
  obtain ⟨head, tail, other, whole, relational, scalar⟩ :
      ∃ head tail condition, expr.children = head :: tail ++ [condition] ∧
        (∀ input ∈ head :: tail, context.memo.Relational input) ∧ context.memo.Scalar condition :=
    laid.logical valid.toLinked stored (shownIs.symm.trans operator)
  obtain ⟨rfl, last⟩ := List.append_inj' (groups.symm.trans (children.trans whole)) rfl
  obtain rfl := List.singleton_inj.1 last
  have reads := JoinGraph.ofGroups_reads shown
  have atomic := laid.atomic_conjuncts valid scalar
  obtain ⟨left, number, joint, inside, connects, rfl⟩ := JoinGraph.greedyOrder_joint
    (separate_of_apart reads exactly relational tied.apart)
    (connected_of_linkedAt reads exactly relational atomic tied.connected)
    (reads.components.length_eq ▸ several) ordered
  exact .bridges (bridges_join reads exactly atomic
    (bridges_joinsOf reads exactly relational atomic joint)
    (bridges_joinsOf reads exactly relational atomic (.single inside)) connects
    (atomic_leftover (atomic_predicates reads atomic)))

/-! ### All rules -/

/-- A physical form is no logical join. -/
theorem Implements.bridging {rule : Rule} (implements : rule.Implements)
    (inner : rule.pattern.isLeaf = false) : rule.Bridging := by
  intro context breadth binding proposals formed _ _ drawn done proposal member
  obtain ⟨operator, _, rfl⟩ := implements drawn done proposal member
  refine .overGroups (drawn.inside inner formed.toValid) ⟨?_, ?_, ?_⟩ <;> exact fun same => by cases same

/-- **No rule proposes a cross product.** -/
theorem standard_bridging : ∀ rule ∈ standard, rule.Bridging := by
  refine forall_standard joinCommutativity_bridging joinAssociativity_bridging
    expandNaryJoin_bridging pushSelectIntoJoin_bridging fun rule listed => ?_
  have implements : rule.Implements := implementing_implements rule listed
  show rule.Bridging
  exact implements.bridging (implementing_inner rule listed)

end Rule

end Cascades
