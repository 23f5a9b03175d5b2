/-
**Expansion gathers the same.**

The greedy order of a join of many inputs has every input once and applies every conjunct once. Where
all conjuncts lie across the inputs of the join, each is applied at the join whose inputs it lies
across, so none is left for the topmost one.

* `ofGroups_conjuncts`, `conjuncts_perm`: the conjuncts of a join graph, applied or left;
* `gathers_joinsOf`, `greedyOrder_gathers`: what the joins for a tree gather;
* `expandNaryJoin_gathering`: the rule that puts a join of many inputs into a greedy order;
* `standard_gathering`: all rules;
* `Search.Reached.gathered`: a run inserts what belongs into its group, so a memo stays gathered.
-/

import Cascades.Proofs.Gathering.Exploration
import Cascades.Proofs.Search.Invariant

set_option linter.unusedSectionVars false

namespace Cascades

open Memo Interpretation

variable {V : Type} {I : Interpretation V} {strict : Prop} {context : Context} {memo : Memo}

/-! ### Conjuncts of a graph -/

namespace JoinGraph

theorem filterMap_group {conjuncts : List GroupId} {predicates : List JoinPredicate}
    (each : List.Forall₂ (fun id found => JoinPredicate.group found = some id) conjuncts predicates) :
    predicates.filterMap JoinPredicate.group = conjuncts := by
  induction each with
  | nil => rfl
  | cons named _ ih => rw [List.filterMap_cons_some named, ih]

/-- The predicates of a graph in order are the conjuncts of a predicate. -/
theorem ofGroups_conjuncts {inputs : List GroupId} {predicate : GroupId} {graph : JoinGraph}
    (done : JoinGraph.ofGroups context inputs predicate = .ok graph) :
    graph.predicates.filterMap JoinPredicate.group = context.memo.conjuncts predicate := by
  obtain ⟨components, _, done⟩ := bind_eq_ok_iff.1 done
  obtain ⟨_, _, done⟩ := bind_eq_ok_iff.1 done
  obtain ⟨predicates, read, done⟩ := bind_eq_ok_iff.1 done
  obtain rfl := pure_eq_ok_iff.1 done
  refine filterMap_group ((mapM_eq_ok_iff.1 read).imp fun id found given => ?_)
  obtain ⟨_, _, given⟩ := bind_eq_ok_iff.1 given
  obtain ⟨_, _, given⟩ := bind_eq_ok_iff.1 given
  cases pure_eq_ok_iff.1 given
  rfl

variable {graph : JoinGraph}

/-- The groups of the predicates whose numbers are of some kind. -/
theorem groupsOf_filter {kind : Nat → Bool} :
    graph.groupsOf ((List.range graph.predicates.length).filter kind) =
      (graph.predicates.zipIdx.filter fun entry => kind entry.2).filterMap fun entry =>
        entry.1.group := by
  have numbers : List.range graph.predicates.length = graph.predicates.zipIdx.map Prod.snd := by
    rw [List.zipIdx_map_snd, List.range_eq_range']
  rw [groupsOf, numbers, List.filter_map, List.filterMap_map]
  refine List.filterMap_congr fun entry member => ?_
  have there := List.mk_mem_zipIdx_iff_getElem?.1 (List.mem_filter.1 member).1
  simp [there]

/-- **Every conjunct** is applied once in a tree or left. -/
theorem conjuncts_perm {tree : JoinTree} (once : tree.applied.Nodup)
    (inside : ∀ number ∈ tree.applied, number < graph.predicates.length) :
    (graph.groupsOf tree.applied ++ Rule.leftover graph tree).Perm
      (graph.predicates.filterMap JoinPredicate.group) := by
  have rest : Rule.leftover graph tree = graph.groupsOf
      ((List.range graph.predicates.length).filter fun number => !tree.applied.contains number) := by
    rw [groupsOf_filter]
    rfl
  have all : graph.groupsOf (List.range graph.predicates.length) =
      graph.predicates.filterMap JoinPredicate.group := by
    have numbers : List.range graph.predicates.length =
        (List.range graph.predicates.length).filter fun _ => true :=
      (List.filter_true _).symm
    have first : graph.predicates.zipIdx.map Prod.fst = graph.predicates := List.zipIdx_map_fst ..
    rw [numbers, groupsOf_filter, List.filter_true]
    conv_rhs => rw [← first, List.filterMap_map]
    rfl
  rw [rest, ← all, ← groupsOf_append]
  exact (perm_range once inside).filterMap _

theorem Linear.conjuncts_perm {joined : Joined} (linear : graph.Linear joined) :
    (graph.groupsOf joined.tree.applied ++ Rule.leftover graph joined.tree).Perm
      (graph.predicates.filterMap JoinPredicate.group) := by
  refine JoinGraph.conjuncts_perm linear.nodup_applied fun number applied => ?_
  obtain ⟨found, there, _⟩ := linear.covers applied
  exact (List.getElem?_eq_some_iff.1 there).1

end JoinGraph

/-! ### Joins for a tree -/

namespace Rule

/-- What the joins for a tree gather: what its inputs hold, and the conjuncts that it applies. -/
def heldBy (memo : Memo) (graph : JoinGraph) (inputs : List GroupId) (tree : JoinTree) :
    Multiset GroupId :=
  ((inputsAt inputs tree.leaves).map memo.contents).sum +
    (graph.groupsOf tree.applied : List GroupId)

theorem heldBy_join {graph : JoinGraph} {inputs : List GroupId} {left right : JoinGraph.Joined} :
    heldBy memo graph inputs (graph.join left right).tree =
      heldBy memo graph inputs left.tree + heldBy memo graph inputs right.tree +
        (graph.groupsOf (graph.appliedAt left right) : List GroupId) := by
  have leaves : (graph.join left right).tree.leaves = left.tree.leaves ++ right.tree.leaves := rfl
  have applied : (graph.join left right).tree.applied =
      graph.appliedAt left right ++ left.tree.applied ++ right.tree.applied := rfl
  simp only [heldBy, leaves, applied, inputsAt_append, JoinGraph.groupsOf_append, List.map_append,
    List.sum_append, ← Multiset.coe_add]
  abel

section Tree

variable {graph : JoinGraph} {inputs : List GroupId} {predicate : GroupId}
  (sound : memo.Sound I) (shows : graph.Shows I memo inputs predicate)
  (isPredicate : memo.IsPredicate I predicate)
  (relational : ∀ input ∈ inputs, memo.IsRelation I input)
include sound shows isPredicate

/-- The groups of the predicates of a graph are conjuncts. -/
theorem groupsOf_isConjunct {numbers : List Nat} :
    ∀ conjunct ∈ graph.groupsOf numbers, memo.IsConjunct I conjunct := by
  intro conjunct member
  obtain ⟨_, _, found, there, named⟩ := JoinGraph.mem_groupsOf_iff.1 member
  exact isPredicate.isConjunct sound conjunct
    (shows.predicates found (List.mem_of_getElem? there) conjunct named).1

include relational

theorem isRelation_getD {number : Nat} (inside : number < graph.components.length) :
    memo.IsRelation I (inputs.getD number 0) := by
  have bound : number < inputs.length := shows.components.length_eq ▸ inside
  refine relational _ ?_
  simp [bound]

/-- The joins for a tree make the columns of the tree. -/
theorem makes_heldBy_iff {joined : JoinGraph.Joined} (built : graph.Built joined)
    {column : ColumnId} :
    memo.Makes I (heldBy memo graph inputs joined.tree) column ↔ column ∈ joined.columns := by
  rw [heldBy, makes_add, or_iff_left (not_makes_conjuncts
    (groupsOf_isConjunct sound shows isPredicate)), makes_sum, built.mem_columns_iff]
  simp only [inputsAt, List.map_map, List.mem_map, exists_exists_and_eq_and, Function.comp_apply]
  refine exists_congr fun number => and_congr_right fun among => ?_
  have inside := built.leaves_lt number among
  rw [(isRelation_getD sound shows isPredicate relational inside).makes_iff sound,
    shows.columnsOf_eq inside]

/-- **A conjunct that a join of a tree applies** lies across the inputs of the join. -/
theorem applied_across {left right : JoinGraph.Joined} (first : graph.Built left)
    (second : graph.Built right) :
    ∀ conjunct ∈ graph.groupsOf (graph.appliedAt left right), memo.Across I
      [heldBy memo graph inputs left.tree, heldBy memo graph inputs right.tree] conjunct := by
  intro conjunct member
  obtain ⟨number, applied, found, there, named⟩ := JoinGraph.mem_groupsOf_iff.1 member
  obtain ⟨same, thereToo, covers, notLeft, notRight⟩ := JoinGraph.mem_appliedAt_iff.1 applied
  obtain rfl : found = same := Option.some.inj (there.symm.trans thereToo)
  have columns := (shows.predicates found (List.mem_of_getElem? there) conjunct named).2
  simp only [across_pair_iff, makes_heldBy_iff sound shows isPredicate relational first,
    makes_heldBy_iff sound shows isPredicate relational second, ← columns]
  have uncovered : ∀ {columns : ColumnSet}, ¬ JoinGraph.Covers columns found →
      ∃ column, column ∈ found.columns ∧ ¬ column ∈ columns := by
    intro columns not
    unfold JoinGraph.Covers at not
    push Not at not
    exact not
  exact ⟨fun column used => SortedSet.mem_union.1 (covers column used), uncovered notLeft,
    uncovered notRight⟩

/-- **What the joins for a tree gather.** -/
theorem gathers_joinsOf {joined : JoinGraph.Joined} (built : graph.Built joined) :
    Gathers I strict memo (joinsOf graph inputs [] joined.tree)
      (heldBy memo graph inputs joined.tree) := by
  induction built with
  | @single number inside =>
    have held : heldBy memo graph inputs (graph.single number).tree =
        memo.contents (inputs.getD number 0) := by
      show ([memo.contents (inputs.getD number 0)].sum : Multiset GroupId) + 0 = _
      rw [List.sum_singleton, add_zero]
    rw [held]
    exact .group (isRelation_getD sound shows isPredicate relational inside).1
  | @join left right first second ihLeft ihRight =>
    have applies : joinsOf graph inputs [] (graph.join left right).tree =
        .node innerJoin [joinsOf graph inputs [] left.tree, joinsOf graph inputs [] right.tree,
          .conjunction (graph.groupsOf (graph.appliedAt left right))] := by
      show Proposal.node innerJoin [_, _, .conjunction (graph.groupsOf _ ++ [])] = _
      rw [List.append_nil]
      rfl
    rw [heldBy_join, applies]
    exact Gathers.join ihLeft ihRight (groupsOf_isConjunct sound shows isPredicate)
      fun _ => applied_across sound shows isPredicate relational first second

variable (apart : (memo.senses I inputs).Pairwise Apart)
include apart

theorem separate_leaves {joined : JoinGraph.Joined} (built : graph.Built joined)
    (once : joined.tree.leaves.Nodup) : graph.Separate joined.tree.leaves := by
  have inside := built.leaves_lt
  have pairwise : (memo.senses I (inputsAt inputs joined.tree.leaves)).Pairwise Apart :=
    apart_inputsAt apart (fun number among => shows.components.length_eq ▸ inside number among) once
  unfold senses inputsAt at pairwise
  rw [List.map_map, List.pairwise_map] at pairwise
  refine pairwise.imp_of_mem fun {one other} here there separate column => ?_
  rw [shows.columnsOf_eq (inside one here), shows.columnsOf_eq (inside other there)]
  exact separate.columns column

section Whole

variable {joined : JoinGraph.Joined} (built : graph.Built joined)
  (perm : joined.tree.leaves.Perm (List.range inputs.length))
include built perm

/-- A tree of all inputs gathers what they hold. -/
theorem heldBy_whole : heldBy memo graph inputs joined.tree =
    (inputs.map memo.contents).sum + (graph.groupsOf joined.tree.applied : List GroupId) := by
  rw [heldBy, ((inputsAt_perm perm).map memo.contents).sum_eq]

/-- **Nothing is left** where all conjuncts lie across the inputs. -/
theorem leftover_eq_nil (across : ∀ conjunct ∈ memo.conjuncts predicate,
    memo.Across I (inputs.map memo.contents) conjunct) : leftover graph joined.tree = [] := by
  refine List.eq_nil_iff_forall_not_mem.2 fun conjunct left => ?_
  obtain ⟨number, unapplied, found, there, named⟩ := mem_leftover_iff.1 left
  obtain ⟨listed, columns⟩ := shows.predicates found (List.mem_of_getElem? there) conjunct named
  obtain ⟨covered, spread⟩ := across conjunct listed
  have separate := separate_leaves sound shows isPredicate relational apart built
    (perm.nodup_iff.2 List.nodup_range)
  refine unapplied ((built.mem_applied_iff separate).2
    ⟨found, there, fun column used => ?_, fun leaf among covers => ?_⟩)
  · rw [← makes_heldBy_iff sound shows isPredicate relational built,
      heldBy_whole sound shows isPredicate relational apart built perm, makes_add, makes_sum]
    exact Or.inl (covered column (columns ▸ used))
  · have inside := built.leaves_lt leaf among
    have relation := isRelation_getD sound shows isPredicate relational inside
    have bound : leaf < inputs.length := shows.components.length_eq ▸ inside
    have source : memo.contents (inputs.getD leaf 0) ∈ inputs.map memo.contents :=
      List.mem_map.2 ⟨_, by simp [bound], rfl⟩
    obtain ⟨column, used, unmade⟩ := spread _ source
    refine unmade ((relation.makes_iff sound).2 ?_)
    rw [← shows.columnsOf_eq inside]
    exact covers column (columns.symm ▸ used)

end Whole

/-- **The joins for a greedy order** gather what all inputs and the predicate hold. -/
theorem greedyOrder_gathers (several : 2 ≤ inputs.length)
    (listed : graph.predicates.filterMap JoinPredicate.group = memo.conjuncts predicate)
    (across : strict → ∀ conjunct ∈ memo.conjuncts predicate,
      memo.Across I (inputs.map memo.contents) conjunct) {guard : Guard} {tree : JoinTree}
    (done : graph.greedyOrder guard = .ok tree) :
    Gathers I strict memo (joinsOf graph inputs (leftover graph tree) tree)
      ((inputs.map memo.contents).sum + memo.contents predicate) := by
  have count : graph.components.length = inputs.length := shows.components.length_eq.symm
  obtain ⟨left, right, first, second, linear, rfl, perm⟩ :=
    JoinGraph.greedyOrder_join (count ▸ several) done
  rw [count] at perm
  have conjuncts := linear.conjuncts_perm
  have whole := heldBy_whole sound shows isPredicate relational apart linear.built perm
  have nothing := fun asked =>
    leftover_eq_nil sound shows isPredicate relational apart linear.built perm (across asked)
  have held : (inputs.map memo.contents).sum + memo.contents predicate =
      heldBy memo graph inputs (graph.join left right).tree +
        (leftover graph (graph.join left right).tree : List GroupId) := by
    rw [whole, add_assoc, Multiset.coe_add, Multiset.coe_eq_coe.2 conjuncts, listed,
      sound.conjuncts_eq isPredicate]
  have leftIs : ∀ conjunct ∈ leftover graph (graph.join left right).tree, memo.IsConjunct I conjunct := by
    intro conjunct remains
    obtain ⟨_, _, found, there, named⟩ := mem_leftover_iff.1 remains
    exact isPredicate.isConjunct sound conjunct
      (shows.predicates found (List.mem_of_getElem? there) conjunct named).1
  rw [held]
  have joins : Gathers I strict memo _ _ := Gathers.join
    (gathers_joinsOf sound shows isPredicate relational first)
    (gathers_joinsOf sound shows isPredicate relational second)
    (List.forall_mem_append.2 ⟨groupsOf_isConjunct sound shows isPredicate, leftIs⟩)
    fun asked => List.forall_mem_append.2
      ⟨applied_across sound shows isPredicate relational first second,
        nothing asked ▸ fun _ none => absurd none List.not_mem_nil⟩
  rwa [← Multiset.coe_add, ← add_assoc, ← heldBy_join] at joins

end Tree

/-! ### The rule -/

/-- What is proposed for a join of many inputs. -/
theorem expandNaryJoin_cases {binding : Binding} {proposals : List Proposal} {proposal : Proposal}
    (done : expandNaryJoin.transform context binding = .ok proposals)
    (member : proposal ∈ proposals) :
    ∃ sources predicate, binding.operator = .logical .naryJoin ∧
      binding.childGroups = sources ++ [predicate] ∧
      ((∃ input, sources = [input] ∧
          proposal = .overGroups (.logical .select) [input, predicate]) ∨
        2 ≤ sources.length ∧ ∃ graph tree,
          JoinGraph.ofGroups context sources predicate = .ok graph ∧
          graph.greedyOrder context.guard = .ok tree ∧
          proposal = joinsOf graph sources (leftover graph tree) tree) := by
  unfold expandNaryJoin at done
  simp only at done
  split at done
  swap
  · cases pure_eq_ok_iff.1 done
    cases member
  rename_i last first others operator reversed
  have groups : binding.childGroups = (first :: others).reverse ++ [last] := by
    rw [← List.reverse_reverse binding.childGroups, reversed, List.reverse_cons]
  refine ⟨(first :: others).reverse, last, operator, groups, ?_⟩
  split at done
  · rename_i input same
    obtain rfl := pure_eq_ok_iff.1 done
    exact Or.inl ⟨input, same, List.mem_singleton.1 member⟩
  · rename_i several
    obtain ⟨graph, shown, done⟩ := bind_eq_ok_iff.1 done
    obtain ⟨tree, ordered, done⟩ := bind_eq_ok_iff.1 done
    obtain rfl := pure_eq_ok_iff.1 done
    refine Or.inr ⟨?_, graph, tree, lift_fault_eq_ok_iff.1 shown, lift_abort_eq_ok_iff.1 ordered,
      List.mem_singleton.1 member⟩
    cases others with
    | nil => exact absurd rfl (several first)
    | cons second rest => simp

theorem expandNaryJoin_gathering : expandNaryJoin.Gathering I strict := by
  intro context binding proposals coherent gathered drawn done proposal member
  obtain ⟨sources, predicate, operator, groups, proposed⟩ := expandNaryJoin_cases done member
  have sound := coherent.sound
  have accords := drawn.accords rfl gathered
  rw [operator, groups] at accords
  obtain ⟨id, expr, stored, shown, _, children, _⟩ := drawn.inner rfl
  have computes : expr.operator.logical? = some .naryJoin := by
    rw [← shown, operator]
    rfl
  obtain ⟨inputs, condition, shape, relational, isPredicate, apart, _⟩ :=
    sound.joining stored computes rfl
  obtain ⟨rfl, last⟩ := List.append_inj' (groups.symm.trans (children.trans shape)) rfl
  obtain rfl := List.singleton_inj.1 last
  rcases proposed with ⟨input, rfl, rfl⟩ | ⟨several, graph, tree, shown, ordered, rfl⟩
  · have inside : ∀ child ∈ [input, predicate], child < context.memo.groups.size := by
      simpa using ⟨(relational input (by simp)).1, isPredicate.1⟩
    exact .node (.groups inside) ⟨accords.holds, Operator.isPlain_of_gathers rfl, accords.spans⟩
  · have shows := JoinGraph.ofGroups_shows coherent shown
    have gathers : Gathers I strict context.memo _ _ := greedyOrder_gathers sound shows isPredicate
      relational apart several (JoinGraph.ofGroups_conjuncts shown) (fun asked conjunct member => by
        have spans := accords.spans asked rfl rfl
        rw [List.map_append] at spans
        refine spans_append_iff.1 spans conjunct ?_
        rwa [← sound.conjuncts_eq isPredicate, Multiset.mem_coe]) ordered
    refine gathers.belongs ?_
    rw [← accords.holds, Operator.gather_of_gathers rfl, List.map_append, List.sum_append]
    simp

/-- **All rules gather the same.** -/
theorem standard_gathering : ∀ rule ∈ standard, rule.Gathering I strict := by
  refine forall_standard joinCommutativity_gathering joinAssociativity_gathering
    expandNaryJoin_gathering pushSelectIntoJoin_gathering fun rule listed => ?_
  have implements : rule.Implements := implementing_implements rule listed
  show rule.Gathering I strict
  exact implements.gathering (implementing_inner rule listed)

end Rule

/-! ### Runs -/

/-- What a rule proposes for an expression belongs into the group of the expression. -/
theorem Rule.Gathering.proposals {rule : Rule} (gathering : rule.Gathering I strict)
    {context : Context} (coherent : context.Coherent I) (gathered : context.memo.Gathered I strict)
    {id : ExprId} {expr : Expr} (stored : context.memo.exprs[id]? = some expr)
    {proposals : List Proposal} (done : rule.proposals context id = .ok proposals) :
    ∀ proposal ∈ proposals, Belongs I strict context.memo expr.group proposal := by
  intro proposal member
  obtain ⟨binding, alternatives, drawn, same, transformed, inside⟩ :=
    Rule.exists_of_proposals coherent.sound.toValid stored done member
  exact same ▸ gathering coherent gathered drawn transformed proposal inside

namespace Search

variable {start final : Search}

/-- **A run keeps a memo gathered.** -/
theorem Reached.gathered (reached : start.Reached final) (coherent : start.context.Coherent I)
    (first : start.context.memo.Gathered I strict)
    (standard : ∀ rule ∈ start.rules, rule ∈ Rule.standard) :
    final.context.memo.Gathered I strict := by
  have maintains : Maintains I start.rules fun context => context.memo.Gathered I strict := by
    refine ⟨?_, ?_, fun _ holds => holds⟩
    · intro context after outcome coherent holds done
      rw [(Context.deriveAll_coherent coherent done).2]
      exact holds
    · intro early context rule id expr proposals count memo listed before gathered stored proposed
        coherent holds grows inserted later
      have valid := coherent.sound.toValid
      obtain ⟨group, there, _⟩ := before.sound.placed stored
      have belong := Rule.Gathering.proposals (Rule.standard_gathering rule (standard rule listed))
        before gathered stored proposed
      have kept : context.memo.Keeps (context.memo.mark id rule.mark) := mark_keeps
      obtain ⟨marked, more⟩ := kept valid
      have all := grows.trans more
      refine insertProposals_gathered (mark_gathered holds valid) marked
        (Nat.lt_of_lt_of_le (lt_of_group there) all.size_groups) (fun proposal member => ?_) inserted
      exact (belong proposal member).mono all before.sound.toValid marked (lt_of_group there)
  exact (reached.maintains maintains coherent first fun rule member =>
    Rule.standard_faithful rule (standard rule member)).invariant

end Search

end Cascades
