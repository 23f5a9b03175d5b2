/-
**A greedy order applies every predicate once, and as low as it can.**

A greedy order has every component once. Each of its joins applies the predicates whose columns its
components produce and those of no tree below it do, so none is applied twice; where no column is in two
components, every predicate is applied that uses columns of several of them and of nothing else. When a
join of many inputs is expanded, the conjuncts that are not applied go to the topmost join.

* `Produces`: components that have all columns that a predicate uses;
* `Built.lowest`, `AppliesLow`: the predicates that a tree applies, and the joins that do;
* `Proposal.carried`: the conjuncts that joins carry; `carried_joinsOf`: those of the joins for a tree;
* `Expands`: what a join of many inputs becomes; `expandNaryJoin_expands`: there is an expansion;
* `greedyOrder_applies_once`: orders and expansions.
-/

import Cascades.Proofs.Gathering.Expansion
import Cascades.Proofs.Greedy.Course
import Cascades.Proofs.Rule.Exploration
import Cascades.Proofs.Search.Members

namespace Cascades

namespace JoinGraph

variable {graph : JoinGraph} {joined : Joined} {predicate : JoinPredicate}

/-! ### Where predicates are applied -/

/-- Some components have all columns that a predicate uses. -/
def Produces (graph : JoinGraph) (numbers : List Nat) (predicate : JoinPredicate) : Prop :=
  ∀ column, column ∈ predicate.columns → ∃ number ∈ numbers, column ∈ graph.columnsOf number

theorem Produces.mono {numbers more : List Nat} (produces : graph.Produces numbers predicate)
    (subset : numbers ⊆ more) : graph.Produces more predicate := by
  intro column used
  obtain ⟨number, member, inside⟩ := produces column used
  exact ⟨number, subset member, inside⟩

theorem produces_single {number : Nat} :
    graph.Produces [number] predicate ↔ Covers (graph.columnsOf number) predicate := by
  simp only [Produces, List.mem_singleton, exists_eq_left]
  rfl

theorem Built.produces_iff (built : graph.Built joined) :
    graph.Produces joined.tree.leaves predicate ↔ Covers joined.columns predicate :=
  forall_congr' fun _ => imp_congr_right fun _ => built.mem_columns_iff.symm

/-- **The joins of a tree** apply the predicates whose columns their components produce and those of no
tree below them do. -/
theorem Built.lowest (built : graph.Built joined) {left right : JoinTree} {applied : List Nat}
    {cardinality : Float} (inside : .join left right applied cardinality ∈ joined.tree.subtrees)
    {number : Nat} :
    number ∈ applied ↔ ∃ predicate, graph.predicates[number]? = some predicate ∧
      graph.Produces (left.leaves ++ right.leaves) predicate ∧
        ∀ below ∈ left.subtrees ++ right.subtrees, ¬ graph.Produces below.leaves predicate := by
  induction built with
  | single => exact absurd inside JoinTree.join_not_mem_leaf
  | @join one other first second ihLeft ihRight =>
    rcases JoinTree.mem_subtrees_join.1 inside with whole | inLeft | inRight
    · -- A tree below produces no more than the input of the join that it is in.
      obtain ⟨rfl, rfl, rfl, -⟩ := JoinTree.join.inj whole
      refine mem_appliedAt_iff.trans (exists_congr fun predicate => and_congr_right fun _ => ?_)
      refine and_congr (Built.join first second).produces_iff.symm ?_
      rw [← first.produces_iff, ← second.produces_iff, List.forall_mem_append]
      have within : ∀ {tree : JoinTree}, ¬ graph.Produces tree.leaves predicate ↔
          ∀ below ∈ tree.subtrees, ¬ graph.Produces below.leaves predicate := by
        intro tree
        exact ⟨fun not below member produces => not (produces.mono (JoinTree.leaves_subset member)),
          fun not => not tree tree.mem_subtrees_self⟩
      exact and_congr within within
    · exact ihLeft inLeft
    · exact ihRight inRight

/-- The predicates that a tree applies, and the joins that do. -/
structure AppliesLow (graph : JoinGraph) (tree : JoinTree) : Prop where
  applied_iff : ∀ number, number ∈ tree.applied ↔
    ∃ predicate, graph.predicates[number]? = some predicate ∧
      graph.Produces (List.range graph.components.length) predicate ∧
        ∀ single < graph.components.length, ¬ graph.Produces [single] predicate
  lowest : ∀ left right applied cardinality, .join left right applied cardinality ∈ tree.subtrees →
    ∀ number, number ∈ applied ↔ ∃ predicate, graph.predicates[number]? = some predicate ∧
      graph.Produces (left.leaves ++ right.leaves) predicate ∧
        ∀ below ∈ left.subtrees ++ right.subtrees, ¬ graph.Produces below.leaves predicate

theorem Built.appliesLow (built : graph.Built joined)
    (perm : joined.tree.leaves.Perm (List.range graph.components.length))
    (separate : graph.Separate (List.range graph.components.length)) : graph.AppliesLow joined.tree where
  applied_iff number := by
    have leaves : graph.Separate joined.tree.leaves :=
      (perm.pairwise_iff fun apart column there here => apart column here there).2 separate
    rw [built.mem_applied_iff leaves]
    refine exists_congr fun predicate => and_congr_right fun _ => and_congr ?_ ?_
    · rw [← built.produces_iff]
      exact ⟨fun produces => produces.mono perm.subset, fun produces => produces.mono perm.symm.subset⟩
    · simp only [perm.mem_iff, List.mem_range, produces_single]
  lowest _ _ _ _ inside _ := built.lowest inside

end JoinGraph

/-! ### Conjuncts of joins -/

namespace Proposal

/-- The group that a proposal is, if it is one that is there. -/
def group? : Proposal → Option GroupId
  | group id => some id
  | node _ _ => none

/-- The conjuncts in the condition of a join. -/
def conjuncts : Proposal → List GroupId
  | group id => [id]
  | node _ children => children.filterMap group?

/-- The conjuncts that the inner joins of a proposal carry, from the top. -/
def carried : Proposal → List GroupId
  | node (.logical (.join .inner)) [left, right, condition] =>
    condition.conjuncts ++ left.carried ++ right.carried
  | _ => []

@[simp] theorem conjuncts_conjunction (conjuncts : List GroupId) :
    (conjunction conjuncts).conjuncts = conjuncts := by
  cases conjuncts with
  | nil => rfl
  | cons first others =>
    cases others with
    | nil => rfl
    | cons second others =>
      show ((first :: second :: others).map group).filterMap group? = _
      rw [List.filterMap_map]
      exact List.filterMap_some

end Proposal

namespace Rule

variable {context : Context} {graph : JoinGraph} {inputs : List GroupId}

/-- The conjuncts of an inner join. -/
theorem carried_join {left right : Proposal} {conjuncts : List GroupId} :
    (Proposal.node innerJoin [left, right, .conjunction conjuncts]).carried =
      conjuncts ++ left.carried ++ right.carried := by
  rw [innerJoin, Proposal.carried, Proposal.conjuncts_conjunction]

/-- **The joins for a tree** carry the conjuncts that the tree applies. -/
theorem carried_joinsOf (tree : JoinTree) :
    (joinsOf graph inputs [] tree).carried = graph.groupsOf tree.applied := by
  induction tree with
  | leaf component =>
    rw [joinsOf, Proposal.carried]
    · rfl
    · nofun
  | join left right applied cardinality ihLeft ihRight =>
    rw [joinsOf, carried_join, ihLeft, ihRight, List.append_nil, JoinTree.applied,
      JoinGraph.groupsOf_append, JoinGraph.groupsOf_append]
    rfl

/-- With further conjuncts on the topmost join, they carry these too. -/
theorem carried_joinsOf_join {left right : JoinTree} {applied : List Nat} {cardinality : Float}
    (extra : List GroupId) :
    (joinsOf graph inputs extra (.join left right applied cardinality)).carried.Perm
      (graph.groupsOf (JoinTree.join left right applied cardinality).applied ++ extra) := by
  rw [joinsOf, carried_join, carried_joinsOf, carried_joinsOf, JoinTree.applied,
    JoinGraph.groupsOf_append, JoinGraph.groupsOf_append]
  simp only [List.append_assoc]
  refine List.Perm.append_left _ ?_
  rw [← List.append_assoc (graph.groupsOf left.applied)]
  exact List.perm_append_comm

/-! ### Expansions -/

/-- **What a join of many inputs becomes.** With one input it is a selection. With several it is inner
joins in the greedy order of the graph of the inputs and of the conjuncts of the predicate. All joins
together carry each conjunct once, and those that no join of the order applies are on the topmost one. -/
inductive Expands (context : Context) (binding : Binding) : Proposal → Prop where
  | selection {input predicate : GroupId} (groups : binding.childGroups = [input, predicate]) :
    Expands context binding (.overGroups (.logical .select) [input, predicate])
  | joins {inputs : List GroupId} {predicate : GroupId} {graph : JoinGraph} {left right : JoinTree}
      {applied : List Nat} {cardinality : Float} {topmost : Proposal}
      (groups : binding.childGroups = inputs ++ [predicate]) (several : 2 ≤ inputs.length)
      (drawn : JoinGraph.ofGroups context inputs predicate = .ok graph)
      (ordered : graph.greedyOrder context.guard = .ok (.join left right applied cardinality))
      (shape : topmost = .node innerJoin [joinsOf graph inputs [] left, joinsOf graph inputs [] right,
        .conjunction (graph.groupsOf applied ++
          leftover graph (.join left right applied cardinality))])
      (carries : topmost.carried.Perm (context.memo.conjuncts predicate)) :
    Expands context binding topmost

/-- The joins for a greedy order carry each conjunct once. -/
theorem carried_greedyOrder {predicate : GroupId} {guard : Guard} {tree : JoinTree}
    (several : 2 ≤ inputs.length) (drawn : JoinGraph.ofGroups context inputs predicate = .ok graph)
    (ordered : graph.greedyOrder guard = .ok tree) :
    ∃ left right applied cardinality, tree = .join left right applied cardinality ∧
      (joinsOf graph inputs (leftover graph tree) tree).carried.Perm
        (context.memo.conjuncts predicate) := by
  have count := ofGroups_length drawn
  obtain ⟨left, right, _, _, linear, rfl, _⟩ := JoinGraph.greedyOrder_join (count ▸ several) ordered
  have conjuncts := linear.conjuncts_perm
  rw [JoinGraph.ofGroups_conjuncts drawn] at conjuncts
  exact ⟨_, _, _, _, rfl, (carried_joinsOf_join _).trans conjuncts⟩

theorem expandNaryJoin_carries {binding : Binding} {proposals : List Proposal}
    (done : expandNaryJoin.transform context binding = .ok proposals) :
    ∀ proposal ∈ proposals, Expands context binding proposal := by
  intro proposal member
  obtain ⟨inputs, predicate, _, groups, ⟨input, rfl, rfl⟩ | ⟨several, graph, tree, drawn, ordered, rfl⟩⟩ :=
    expandNaryJoin_cases done member
  · exact .selection groups
  · obtain ⟨left, right, applied, cardinality, rfl, carries⟩ :=
      carried_greedyOrder several drawn ordered
    exact .joins groups several drawn ordered rfl carries

theorem eq_naryJoin_of_matchesRoot {operator : Operator} {arity : Nat}
    (root : expandNaryJoin.pattern.matchesRoot operator arity = true) :
    operator = .logical .naryJoin := by
  have accepted := (Bool.and_eq_true_iff.1 root).1
  cases operator with
  | logical operator =>
    have kind : operator.kind = .naryJoin := of_decide_eq_true accepted
    cases operator with
    | naryJoin => rfl
    | _ => cases kind
  | _ => cases accepted

/-- **There is an expansion** of every join of many inputs in a memo with known properties. -/
theorem expandNaryJoin_expands {breadth : GroupId → Breadth} {binding : Binding}
    (ready : context.Ready breadth) (drawn : binding.Drawn context.memo expandNaryJoin.pattern)
    (unfired : context.guard.check 0 = .ok ()) :
    ∃ proposal, expandNaryJoin.transform context binding = .ok [proposal] := by
  let noFault (_ : Fault) : Prop := False
  have formed := ready.formed
  obtain ⟨id, expr, stored, shown, named, groups, root, _⟩ := drawn.inner rfl
  -- The expression is in the memo, so its inputs are relations and its last child is a predicate.
  have operator := eq_naryJoin_of_matchesRoot root
  have takes := (formed.seated stored).takes
  rw [operator] at takes
  obtain ⟨sources, predicate, shape, some, relational, scalar, -⟩ :=
    formed.of_naryJoin (fun child => formed.childExists stored) takes
  obtain ⟨graph, found, draws⟩ := (show Ends noFault _ _ from
    ofGroups_ends ready relational scalar).exists_ok
  obtain ⟨joined, -, -, ordered⟩ := JoinGraph.exists_greedyOrder
    (fun none => some (List.length_eq_zero_iff.1 (draws.components ▸ List.length_eq_zero_iff.2 none)))
    unfired
  have reversed : binding.childGroups.reverse = predicate :: sources.reverse := by
    rw [groups, shape, List.reverse_append]
    rfl
  obtain ⟨first, others, backwards⟩ :=
    List.exists_cons_of_ne_nil fun none => some (List.reverse_eq_nil_iff.1 none)
  have forwards : (first :: others).reverse = sources := by
    rw [← backwards, List.reverse_reverse]
  unfold expandNaryJoin
  simp only [shown, operator, reversed, backwards, forwards]
  split
  · exact ⟨_, rfl⟩
  · rw [lift_fault_eq_ok_iff.2 found]
    show ∃ proposal, ((graph.greedyOrder context.guard : Except Failure JoinTree) >>= _) = _
    rw [lift_abort_eq_ok_iff.2 ordered]
    exact ⟨_, rfl⟩

end Rule

/-! ### Orders and expansions -/

/-- **A greedy order applies every predicate once, and as low as it can.** If its guard lets it run, a
greedy order of components is a linear tree that has each of them once and in which no predicate is
applied twice. Where no two components share a column, a predicate is applied if all components together
have its columns and none alone does, and this is done at the lowest join that has them. So what a join of
many inputs becomes carries each conjunct of its predicate once, and there is such an expansion. -/
theorem greedyOrder_applies_once :
    (∀ (graph : JoinGraph) (guard : Guard), graph.components ≠ [] → guard.check 0 = .ok () →
      ∃ tree, graph.greedyOrder guard = .ok tree ∧ tree.IsLinear ∧
        tree.leaves.Perm (List.range graph.components.length) ∧ tree.applied.Nodup ∧
        (graph.Separate (List.range graph.components.length) → graph.AppliesLow tree)) ∧
    (∀ (context : Context) (binding : Binding) (proposals : List Proposal),
      Rule.expandNaryJoin.transform context binding = .ok proposals →
        ∀ proposal ∈ proposals, Rule.Expands context binding proposal) ∧
    ∀ (context : Context) (breadth : GroupId → Breadth) (binding : Binding), context.Ready breadth →
      binding.Drawn context.memo Rule.expandNaryJoin.pattern → context.guard.check 0 = .ok () →
        ∃ proposal, Rule.expandNaryJoin.transform context binding = .ok [proposal] := by
  refine ⟨fun graph guard some unfired => ?_, fun _ _ _ done => Rule.expandNaryJoin_carries done,
    fun _ _ _ ready drawn unfired => Rule.expandNaryJoin_expands ready drawn unfired⟩
  obtain ⟨joined, linear, perm, done⟩ := JoinGraph.exists_greedyOrder some unfired
  exact ⟨joined.tree, done, linear.isLinear, perm, linear.nodup_applied, linear.built.appliesLow perm⟩

/-- Three relations, and predicates over all of them, over two, over one, over none, and over a column
that none of them has. -/
def severalSpans : JoinGraph where
  components := [.counted 1000 [(1, 1000)], .counted 10 [(2, 10), (3, 5)], .counted 100 [(4, 100)]]
  predicates := [⟨none, .ofList [1, 3, 4], none⟩, .equating 2 4, .equating 2 3, ⟨none, .empty, none⟩,
    .equating 1 9]

/-- A join of three tables under an equality and a constant. -/
def ordersItemsDays : List (Operator × List GroupId) :=
  [(.logical (.get ⟨"shop", "orders"⟩ [⟨1, none, "item"⟩]), []),
    (.logical (.get ⟨"shop", "items"⟩ [⟨2, none, "item"⟩]), []),
    (.logical (.get ⟨"shop", "days"⟩ [⟨3, none, "day"⟩]), []),
    (.scalar (.column ⟨1, none, "item"⟩), []), (.scalar (.column ⟨2, none, "item"⟩), []),
    (.scalar (.binary .eq), [3, 4]), (.scalar (.constant (.bool false)), []), (.scalar .and, [5, 6]),
    (.logical .naryJoin, [0, 1, 2, 7])]

/-- The predicates over several relations are applied, each where its last relation is added, and the
constant goes to the topmost join of the three tables. -/
theorem greedyOrder_applies_once_severalSpans :
    (severalSpans.components ≠ [] ∧ Guard.check {} 0 = .ok () ∧ severalSpans.Separate (List.range 3) ∧
      ∃ tree, severalSpans.greedyOrder {} = .ok tree ∧ tree.leaves = [1, 2, 0] ∧ tree.applied = [0, 1] ∧
        severalSpans.AppliesLow tree) ∧
    ∃ memo context breadth binding proposal, Memo.empty.build? ordersItemsDays = some memo ∧
      Context.deriveAll (Search.ofMemo memo {} Rule.standard {}).context = .ok (.ok ⟨⟩, context) ∧
      context.Ready breadth ∧ binding.Drawn context.memo Rule.expandNaryJoin.pattern ∧
      context.guard.check 0 = .ok () ∧
      Rule.expandNaryJoin.transform context binding = .ok [proposal] ∧ proposal.carried = [6, 5] ∧
      Rule.Expands context binding proposal := by
  obtain ⟨orders, expansions, expands⟩ := greedyOrder_applies_once
  constructor
  · have separate : severalSpans.Separate (List.range 3) := by
      simp [JoinGraph.Separate, JoinGraph.columnsOf, severalSpans, JoinComponent.counted, List.range_succ]
    have shown : (severalSpans.greedyOrder {}).toOption.map (fun tree => (tree.leaves, tree.applied)) =
        some ([1, 2, 0], [0, 1]) := by decide +kernel
    have some : severalSpans.components ≠ [] := List.cons_ne_nil _ _
    obtain ⟨tree, done, -, -, -, low⟩ := orders severalSpans {} some rfl
    rw [done] at shown
    obtain ⟨leaves, applied⟩ := Prod.mk.inj (Option.some.inj shown)
    exact ⟨some, rfl, separate, tree, done, leaves, applied, low separate⟩
  · have shown : (Memo.empty.build? ordersItemsDays).bind (fun memo =>
        (Context.deriveAll (Search.ofMemo memo {} Rule.standard {}).context).toOption.bind fun derived =>
          derived.2.memo.exprs[8]?.bind fun expr =>
            (Rule.expandNaryJoin.proposals derived.2 8).toOption.map fun proposals =>
              (decide (derived.1 = .ok ⟨⟩), derived.2.guard.cancelled, proposals.map Proposal.carried)) =
        some (true, false, [[6, 5]]) := by
      decide +kernel
    obtain ⟨memo, made, shown⟩ := Option.bind_eq_some_iff.1 shown
    obtain ⟨⟨result, context⟩, derived, shown⟩ := Option.bind_eq_some_iff.1 shown
    obtain ⟨expr, stored, shown⟩ := Option.bind_eq_some_iff.1 shown
    obtain ⟨proposals, proposed, shown⟩ := Option.map_eq_some_iff.1 shown
    obtain ⟨whole, running, carried⟩ : result = .ok ⟨⟩ ∧ context.guard.cancelled = false ∧
      proposals.map Proposal.carried = [[6, 5]] := by simpa using shown
    obtain ⟨proposal, rfl, carries⟩ := List.map_eq_singleton_iff.1 carried
    subst whole
    have unfired : context.guard.check 0 = .ok () := Guard.check_ok_iff.2 ⟨running, Nat.zero_le _⟩
    have derived := toOption_eq_some_iff.1 derived
    have reshaped : Search.Reshaped memo (Search.ofMemo memo {} Rule.standard {}) :=
      .ofMemo (Memo.Built.empty.build? made) fun _ listed => listed
    obtain ⟨breadth, ready⟩ := reshaped.ready (Action.onPart_eq_ok_iff.2 ⟨context, derived, rfl⟩)
    obtain ⟨binding, alternatives, drawn, -, transformed, member⟩ := Rule.exists_of_proposals
      ready.formed.toValid stored (toOption_eq_some_iff.1 proposed) (List.mem_singleton_self _)
    obtain ⟨single, one⟩ := expands context breadth binding ready drawn unfired
    obtain rfl : alternatives = [single] := Except.ok.inj (transformed.symm.trans one)
    obtain rfl := List.mem_singleton.1 member
    exact ⟨memo, context, breadth, binding, proposal, made, derived, ready, drawn, unfired, one, carries,
      expansions context binding _ one proposal member⟩

end Cascades
