/-
**Expansion of joins of many inputs.**

A join of many inputs means what every tree of binary joins over all inputs means, where each join
applies predicates that use columns below it only, and the topmost join applies all that are left.

* `Dissolves`: a join tree means one join of its relations under its conditions;
* `Dissolves.join`: how such trees are put together;
* `expandNaryJoin_faithful`: the rule that puts a join of many inputs into a greedy order.
-/

import Cascades.Proofs.Greedy.Course
import Cascades.Proofs.Meaning.Exploration
import Cascades.Proofs.Stateful

namespace Cascades

open Memo Interpretation

variable {V : Type} {I : Interpretation V} {context : Context} {memo : Memo}

/-! ### Join trees -/

namespace Interpretation

/-- What is apart from others exactly where some relations are, and in a join with others stands for
these relations and some conditions. -/
structure Dissolves (I : Interpretation V) (sense : Sense V) (relations conditions : List (Sense V)) :
    Prop where
  relational : sense.scope.isScalar = false
  apart_iff : ∀ other, Apart sense other ↔ ∀ relation ∈ relations, Apart relation other
  joined : ∀ others late, (sense :: others).Pairwise Apart →
    I.joined (sense :: others) late = I.joined (relations ++ others) (conditions ++ late)

variable {first second : Sense V} {left right early late conditions others : List (Sense V)}

theorem Dissolves.itself (relational : first.scope.isScalar = false) :
    I.Dissolves first [first] [] where
  relational := relational
  apart_iff other := by simp
  joined others late _ := rfl

/-- A join of two trees and others. -/
theorem Dissolves.joined_pair (one : I.Dissolves first left early)
    (two : I.Dissolves second right late) (between : (left ++ right).Pairwise Apart)
    (apart : (first :: second :: others).Pairwise Apart) :
    I.joined (first :: second :: others) conditions =
      I.joined (left ++ right ++ others) (early ++ late ++ conditions) := by
  obtain ⟨firstAll, rest⟩ := List.pairwise_cons.1 apart
  obtain ⟨secondAll, outside⟩ := List.pairwise_cons.1 rest
  obtain ⟨withinLeft, withinRight, across⟩ := List.pairwise_append.1 between
  have leftAll : ∀ relation ∈ left, ∀ other ∈ second :: others, Apart relation other :=
    fun relation member other there => (one.apart_iff other).1 (firstAll other there) relation member
  have rightAll : ∀ relation ∈ right, ∀ other ∈ others, Apart relation other :=
    fun relation member other there => (two.apart_iff other).1 (secondAll other there) relation member
  have half : (left ++ second :: others).Pairwise Apart :=
    List.pairwise_append.2 ⟨withinLeft, rest, leftAll⟩
  have all : (left ++ right ++ others).Pairwise Apart := by
    refine List.pairwise_append.2 ⟨between, outside, fun relation member other there => ?_⟩
    rcases List.mem_append.1 member with inLeft | inRight
    · exact leftAll relation inLeft other (List.mem_cons_of_mem _ there)
    · exact rightAll relation inRight other there
  have turned : (right ++ (left ++ others)).Perm (left ++ right ++ others) := by
    rw [← List.append_assoc]
    exact List.perm_append_comm.append_right others
  calc I.joined (first :: second :: others) conditions
      = I.joined (left ++ second :: others) (early ++ conditions) := one.joined _ _ apart
    _ = I.joined (second :: (left ++ others)) (early ++ conditions) :=
        joined_perm List.perm_middle half
    _ = I.joined (right ++ (left ++ others)) (late ++ (early ++ conditions)) :=
        two.joined _ _ ((List.perm_middle.pairwise_iff Apart.symm).1 half)
    _ = I.joined (left ++ right ++ others) (late ++ (early ++ conditions)) :=
        joined_perm turned ((turned.pairwise_iff Apart.symm).2 all)
    _ = I.joined (left ++ right ++ others) (early ++ late ++ conditions) := by
        refine joined_congr (Alike.of_mem fun condition => ?_)
        simp only [List.mem_append]
        tauto

/-- Two trees are apart where their relations are. -/
theorem Dissolves.apart (one : I.Dissolves first left early) (two : I.Dissolves second right late)
    (between : (left ++ right).Pairwise Apart) : Apart first second := by
  obtain ⟨_, _, across⟩ := List.pairwise_append.1 between
  refine (one.apart_iff second).2 fun relation member => ?_
  exact ((two.apart_iff relation).2 fun other there => (across relation member other there).symm).symm

/-- **A join of two trees** under conditions that use columns of their relations only. -/
theorem Dissolves.join (one : I.Dissolves first left early) (two : I.Dissolves second right late)
    (between : (left ++ right).Pairwise Apart)
    (covered : ∀ condition ∈ conditions, ∀ column, column ∈ condition.scope.free →
      ∃ relation ∈ left ++ right, column ∈ relation.scope.columns) :
    I.Dissolves (I.joined [first, second] conditions) (left ++ right)
      (conditions ++ early ++ late) where
  relational := rfl
  apart_iff other := by
    have both : Apart (I.joined [first, second] conditions) other ↔
        (Apart first other ∧ Apart second other) ∧ ∀ condition ∈ conditions,
          ∀ column, column ∈ condition.scope.free → ¬ column ∈ other.scope.columns := by
      refine Scope.apart_joined_iff.trans (and_congr ?_ ?_)
      · simp [Apart]
      · simp
    rw [both, one.apart_iff, two.apart_iff, List.forall_mem_append]
    refine and_iff_left_of_imp fun each condition member column used made => ?_
    obtain ⟨relation, there, inside⟩ := covered condition member column used
    exact (List.forall_mem_append.2 each relation there).columns column inside made
  joined others late' apart := by
    obtain ⟨outer, rest⟩ := List.pairwise_cons.1 apart
    have all : (first :: second :: others).Pairwise Apart := by
      have each : ∀ other ∈ others, Apart first other ∧ Apart second other := by
        intro other there
        have inputs := (Scope.apart_joined_iff.1 (outer other there)).1
        exact ⟨inputs _ (by simp), inputs _ (by simp)⟩
      refine .cons (fun other there => ?_) (.cons (fun other there => (each other there).2) rest)
      rcases List.mem_cons.1 there with rfl | there
      · exact one.apart two between
      · exact (each other there).1
    rw [joined_joined outer]
    show I.joined (first :: second :: others) _ = _
    rw [one.joined_pair two between all]
    refine joined_congr (Alike.of_mem fun condition => ?_)
    simp only [List.mem_append]
    tauto

end Interpretation

/-! ### Join graphs of groups -/

/-- The groups of some predicates of a graph. -/
def JoinGraph.groupsOf (graph : JoinGraph) (numbers : List Nat) : List GroupId :=
  numbers.filterMap fun number => graph.predicates[number]?.bind JoinPredicate.group

/-- A graph whose components show the columns of some groups, and whose predicates are the conjuncts
of a predicate with the columns that they use. -/
structure JoinGraph.Shows (graph : JoinGraph) (I : Interpretation V) (memo : Memo)
    (inputs : List GroupId) (predicate : GroupId) : Prop where
  components : List.Forall₂ (fun input (component : JoinComponent) =>
    component.columns = (memo.sense I input).scope.columns) inputs graph.components
  predicates : ∀ found ∈ graph.predicates, ∀ conjunct, found.group = some conjunct →
    conjunct ∈ memo.conjuncts predicate ∧ found.columns = (memo.sense I conjunct).scope.free
  conjuncts : ∀ conjunct ∈ memo.conjuncts predicate,
    ∃ found ∈ graph.predicates, found.group = some conjunct

/-- **The graph of some groups** has a component for every input and a predicate for every conjunct of a
predicate, with the columns that were derived for them. -/
structure JoinGraph.Reads (graph : JoinGraph) (context : Context) (inputs : List GroupId)
    (predicate : GroupId) : Prop where
  components : List.Forall₂ (fun input (component : JoinComponent) =>
    Rule.outputColumns context input = .ok component.columns) inputs graph.components
  predicates : ∀ found ∈ graph.predicates, ∃ conjunct ∈ context.memo.conjuncts predicate,
    found.group = some conjunct ∧ Rule.usedColumns context conjunct = .ok found.columns
  conjuncts : ∀ conjunct ∈ context.memo.conjuncts predicate, ∃ found ∈ graph.predicates,
    found.group = some conjunct ∧ Rule.usedColumns context conjunct = .ok found.columns

theorem JoinGraph.ofGroups_reads {inputs : List GroupId} {predicate : GroupId} {graph : JoinGraph}
    (done : JoinGraph.ofGroups context inputs predicate = .ok graph) :
    graph.Reads context inputs predicate := by
  obtain ⟨components, run, done⟩ := bind_eq_ok_iff.1 done
  obtain ⟨_, _, done⟩ := bind_eq_ok_iff.1 done
  obtain ⟨predicates, read, done⟩ := bind_eq_ok_iff.1 done
  have same := pure_eq_ok_iff.1 done
  subst same
  obtain ⟨last, run⟩ := run'_eq_ok_iff.1 run
  constructor
  · refine (forall₂_of_run run).imp fun input component => ?_
    rintro ⟨before, after, given⟩
    obtain ⟨⟨statistics, middle⟩, _, given⟩ := bind_eq_ok_iff.1 given
    obtain ⟨⟨properties, behind⟩, read, given⟩ := bind_eq_ok_iff.1 given
    cases pure_eq_ok_iff.1 given
    obtain ⟨found, known, kept⟩ := bind_eq_ok_iff.1 read
    cases pure_eq_ok_iff.1 kept
    exact bind_eq_ok_iff.2 ⟨_, known, rfl⟩
  · intro found member
    obtain ⟨conjunct, listed, given⟩ := (mem_mapM_iff read).1 member
    obtain ⟨properties, known, given⟩ := bind_eq_ok_iff.1 given
    obtain ⟨_, _, given⟩ := bind_eq_ok_iff.1 given
    cases pure_eq_ok_iff.1 given
    exact ⟨conjunct, listed, rfl, bind_eq_ok_iff.2 ⟨_, known, rfl⟩⟩
  · intro conjunct listed
    obtain ⟨found, member, given⟩ := exists_mem_of_mapM read listed
    obtain ⟨properties, known, given⟩ := bind_eq_ok_iff.1 given
    obtain ⟨_, _, given⟩ := bind_eq_ok_iff.1 given
    cases pure_eq_ok_iff.1 given
    exact ⟨_, member, rfl, bind_eq_ok_iff.2 ⟨_, known, rfl⟩⟩

theorem JoinGraph.ofGroups_shows (coherent : context.Coherent I) {inputs : List GroupId}
    {predicate : GroupId} {graph : JoinGraph}
    (done : JoinGraph.ofGroups context inputs predicate = .ok graph) :
    graph.Shows I context.memo inputs predicate := by
  have reads := ofGroups_reads done
  constructor
  · exact reads.components.imp fun input component read =>
      Context.read_relational coherent .outputColumns Scope.columns id input read
  · intro found member conjunct named
    obtain ⟨other, listed, same, read⟩ := reads.predicates found member
    obtain rfl := Option.some.inj (named.symm.trans same)
    exact ⟨listed, Context.read_scalar coherent .usedColumns Scope.free id conjunct read⟩
  · intro conjunct listed
    obtain ⟨found, member, named, _⟩ := reads.conjuncts conjunct listed
    exact ⟨found, member, named⟩

theorem JoinGraph.mem_groupsOf_iff {graph : JoinGraph} {numbers : List Nat} {conjunct : GroupId} :
    conjunct ∈ graph.groupsOf numbers ↔ ∃ number ∈ numbers, ∃ found,
      graph.predicates[number]? = some found ∧ found.group = some conjunct := by
  simp only [groupsOf, List.mem_filterMap, Option.bind_eq_some_iff]

theorem JoinGraph.groupsOf_append {graph : JoinGraph} {numbers more : List Nat} :
    graph.groupsOf (numbers ++ more) = graph.groupsOf numbers ++ graph.groupsOf more :=
  List.filterMap_append

theorem Rule.mem_leftover_iff {graph : JoinGraph} {tree : JoinTree} {conjunct : GroupId} :
    conjunct ∈ leftover graph tree ↔ ∃ number, number ∉ tree.applied ∧ ∃ found,
      graph.predicates[number]? = some found ∧ found.group = some conjunct := by
  simp only [leftover, List.mem_filterMap, List.mem_filter, Prod.exists,
    List.mk_mem_zipIdx_iff_getElem?, Bool.not_eq_true', List.contains_eq_mem, decide_eq_false_iff_not]
  constructor
  · rintro ⟨found, number, ⟨there, unapplied⟩, named⟩
    exact ⟨number, unapplied, found, there, named⟩
  · rintro ⟨number, unapplied, found, there, named⟩
    exact ⟨found, number, ⟨there, unapplied⟩, named⟩

namespace JoinGraph.Shows

variable {graph : JoinGraph} {inputs : List GroupId} {predicate : GroupId}
  (shows : graph.Shows I memo inputs predicate)
include shows

/-- The columns of a component are those of its group. -/
theorem columnsOf_eq {number : Nat} (inside : number < graph.components.length) :
    graph.columnsOf number = (memo.sense I (inputs.getD number 0)).scope.columns := by
  obtain ⟨count, each⟩ := List.forall₂_iff_get.1 shows.components
  have there : number < inputs.length := count ▸ inside
  rw [columnsOf, List.getD_eq_getElem?_getD, List.getD_eq_getElem?_getD,
    List.getElem?_eq_getElem inside, List.getElem?_eq_getElem there]
  exact each number there inside

/-- **Every conjunct** is applied somewhere in a tree or left. -/
theorem mem_conjuncts_iff (tree : JoinTree) {conjunct : GroupId} :
    conjunct ∈ graph.groupsOf tree.applied ++ Rule.leftover graph tree ↔
      conjunct ∈ memo.conjuncts predicate := by
  rw [List.mem_append, mem_groupsOf_iff, Rule.mem_leftover_iff]
  constructor
  · rintro (⟨number, _, found, there, named⟩ | ⟨number, _, found, there, named⟩)
    · exact (shows.predicates found (List.mem_of_getElem? there) conjunct named).1
    · exact (shows.predicates found (List.mem_of_getElem? there) conjunct named).1
  · intro listed
    obtain ⟨found, member, named⟩ := shows.conjuncts conjunct listed
    obtain ⟨number, there⟩ := List.mem_iff_getElem?.1 member
    by_cases applied : number ∈ tree.applied
    · exact Or.inl ⟨number, applied, found, there, named⟩
    · exact Or.inr ⟨number, applied, found, there, named⟩

/-- The conjuncts that a join applies use columns of the inputs below it only. -/
theorem covered {left right : Joined} (first : graph.Built left) (second : graph.Built right)
    {conjunct : GroupId} (applied : conjunct ∈ graph.groupsOf (graph.appliedAt left right))
    {column : ColumnId} (used : column ∈ (memo.sense I conjunct).scope.free) :
    ∃ leaf ∈ left.tree.leaves ++ right.tree.leaves,
      column ∈ (memo.sense I (inputs.getD leaf 0)).scope.columns := by
  obtain ⟨number, there, found, place, named⟩ := mem_groupsOf_iff.1 applied
  obtain ⟨same, place', below⟩ := JoinGraph.covered first second there
  obtain rfl : same = found := Option.some.inj (place'.symm.trans place)
  have uses := (shows.predicates same (List.mem_of_getElem? place) conjunct named).2
  obtain ⟨leaf, among, inside⟩ := below column (uses ▸ used)
  refine ⟨leaf, among, ?_⟩
  rw [← shows.columnsOf_eq ((Built.join first second).leaves_lt leaf among)]
  exact inside

end JoinGraph.Shows

/-! ### Joins for a tree -/

namespace Rule

section Tree

variable {graph : JoinGraph} {inputs : List GroupId} {predicate : GroupId}

/-- The groups of some components. -/
def inputsAt (inputs : List GroupId) (numbers : List Nat) : List GroupId :=
  numbers.map fun number => inputs.getD number 0

theorem inputsAt_append {numbers more : List Nat} :
    inputsAt inputs (numbers ++ more) = inputsAt inputs numbers ++ inputsAt inputs more :=
  List.map_append

theorem inputsAt_range : inputsAt inputs (List.range inputs.length) = inputs := by
  refine List.ext_getElem (by simp [inputsAt]) fun place _ inside => ?_
  simp [inputsAt, inside]

/-- All numbers in any order stand for all inputs. -/
theorem inputsAt_perm {numbers : List Nat} (perm : numbers.Perm (List.range inputs.length)) :
    (inputsAt inputs numbers).Perm inputs :=
  (perm.map fun number => inputs.getD number 0).trans (.of_eq inputsAt_range)

theorem apart_inputsAt (apart : (memo.senses I inputs).Pairwise Apart) {numbers : List Nat}
    (inside : ∀ number ∈ numbers, number < inputs.length) (once : numbers.Nodup) :
    (memo.senses I (inputsAt inputs numbers)).Pairwise Apart := by
  unfold senses inputsAt
  rw [List.map_map, List.pairwise_map]
  refine once.pairwise_of_forall_ne fun first here second there different => ?_
  have each : ∀ {low high : Nat}, low < high → high < inputs.length →
      Apart (memo.sense I (inputs.getD low 0)) (memo.sense I (inputs.getD high 0)) := by
    intro low high before bound
    unfold senses at apart
    rw [List.pairwise_map, List.pairwise_iff_getElem] at apart
    rw [List.getD_eq_getElem?_getD, List.getD_eq_getElem?_getD,
      List.getElem?_eq_getElem (before.trans bound), List.getElem?_eq_getElem bound]
    exact apart low high (before.trans bound) bound before
  rcases Nat.lt_or_gt_of_ne different with before | after
  · exact each before (inside second there)
  · exact (each after (inside first here)).symm

/-- What the joins for a tree mean: one join of all inputs of the tree under all conjuncts that are
applied in it. -/
structure Stands (I : Interpretation V) (memo : Memo) (graph : JoinGraph) (inputs : List GroupId)
    (tree : JoinTree) (sense : Sense V) : Prop where
  means : Means I memo (joinsOf graph inputs [] tree) sense
  dissolves : I.Dissolves sense (memo.senses I (inputsAt inputs tree.leaves))
    (memo.senses I (graph.groupsOf tree.applied))

variable (shows : graph.Shows I memo inputs predicate)
  (predicates : ∀ conjunct ∈ memo.conjuncts predicate, memo.IsPredicate I conjunct)
  (apart : (memo.senses I inputs).Pairwise Apart)
include shows apart

section Join

variable {left right : JoinGraph.Joined} {senseLeft senseRight : Sense V}
  (first : graph.Built left) (second : graph.Built right)
  (once : (graph.join left right).tree.leaves.Nodup)
  (one : Stands I memo graph inputs left.tree senseLeft)
  (two : Stands I memo graph inputs right.tree senseRight)
include first second once

theorem between : (memo.senses I (inputsAt inputs left.tree.leaves) ++
    memo.senses I (inputsAt inputs right.tree.leaves)).Pairwise Apart := by
  rw [← senses_append, ← inputsAt_append]
  refine apart_inputsAt apart (fun number member => ?_) once
  exact shows.components.length_eq ▸ (JoinGraph.Built.join first second).leaves_lt number member

include predicates one two

/-- The topmost join of a tree applies the conjuncts of its own and `extra` ones. -/
theorem Stands.join_means (extra : List GroupId)
    (listed : ∀ conjunct ∈ extra, conjunct ∈ memo.conjuncts predicate) :
    Means I memo (joinsOf graph inputs extra (graph.join left right).tree)
      (I.joined [senseLeft, senseRight]
        (memo.senses I (graph.groupsOf (graph.appliedAt left right) ++ extra))) := by
  have pair := one.dissolves.apart two.dissolves (between shows apart first second once)
  have computes : innerJoin.logical? = some (.join .inner) := rfl
  refine Means.joinOf computes rfl (.cons one.means (.cons two.means .nil)) ?_
    (fun conjunct member => ?_) (by simpa using pair)
  · simpa using ⟨one.dissolves.relational, two.dissolves.relational⟩
  · refine predicates conjunct ?_
    rcases List.mem_append.1 member with applied | added
    · obtain ⟨_, _, found, there, named⟩ := JoinGraph.mem_groupsOf_iff.1 applied
      exact (shows.predicates found (List.mem_of_getElem? there) conjunct named).1
    · exact listed conjunct added

end Join

include predicates

/-- **The joins for a tree** have a meaning. -/
theorem exists_stands (relational : ∀ input ∈ inputs, memo.IsRelation I input)
    {joined : JoinGraph.Joined} (built : graph.Built joined) (once : joined.tree.leaves.Nodup) :
    ∃ sense, Stands I memo graph inputs joined.tree sense := by
  induction built with
  | @single number inside =>
    have there : inputs.getD number 0 ∈ inputs := by
      have bound : number < inputs.length := shows.components.length_eq ▸ inside
      simp [bound]
    have relation := relational _ there
    exact ⟨_, .group relation.1, Dissolves.itself relation.2⟩
  | @join left right first second ihLeft ihRight =>
    obtain ⟨senseLeft, one⟩ := ihLeft (List.nodup_append.1 once).1
    obtain ⟨senseRight, two⟩ := ihRight (List.nodup_append.1 once).2.1
    have means := one.join_means shows predicates apart first second once two []
      fun _ none => absurd none List.not_mem_nil
    rw [List.append_nil] at means
    refine ⟨_, means, ?_⟩
    have leaves : (graph.join left right).tree.leaves = left.tree.leaves ++ right.tree.leaves := rfl
    have applied : (graph.join left right).tree.applied =
        graph.appliedAt left right ++ left.tree.applied ++ right.tree.applied := rfl
    rw [leaves, applied, JoinGraph.groupsOf_append, JoinGraph.groupsOf_append, senses_append,
      senses_append, inputsAt_append, senses_append]
    refine one.dissolves.join two.dissolves (between shows apart first second once) ?_
    intro condition member column used
    obtain ⟨conjunct, placed, rfl⟩ := List.mem_map.1 member
    obtain ⟨leaf, among, inside⟩ := shows.covered first second placed used
    refine ⟨memo.sense I (inputs.getD leaf 0), ?_, inside⟩
    rw [← senses_append, ← inputsAt_append]
    exact List.mem_map.2 ⟨_, List.mem_map.2 ⟨leaf, among, rfl⟩, rfl⟩

/-- **The joins for a greedy order** mean the join of all inputs under all conjuncts. -/
theorem greedyOrder_means (relational : ∀ input ∈ inputs, memo.IsRelation I input)
    (several : 2 ≤ inputs.length) {guard : Guard} {tree : JoinTree}
    (done : graph.greedyOrder guard = .ok tree) :
    Means I memo (joinsOf graph inputs (leftover graph tree) tree)
      (I.joined (memo.senses I inputs) (memo.senses I (memo.conjuncts predicate))) := by
  have count : graph.components.length = inputs.length := shows.components.length_eq.symm
  obtain ⟨left, right, first, second, _, rfl, perm⟩ :=
    JoinGraph.greedyOrder_join (count ▸ several) done
  have once : (graph.join left right).tree.leaves.Nodup := perm.nodup_iff.2 List.nodup_range
  obtain ⟨senseLeft, one⟩ := exists_stands shows predicates apart relational first
    (List.nodup_append.1 once).1
  obtain ⟨senseRight, two⟩ := exists_stands shows predicates apart relational second
    (List.nodup_append.1 once).2.1
  have between := between shows apart first second once
  have pair := one.dissolves.apart two.dissolves between
  have means := one.join_means shows predicates apart first second once two
    (leftover graph (graph.join left right).tree)
    fun conjunct member => (shows.mem_conjuncts_iff _).1 (List.mem_append_right _ member)
  have leaves : (graph.join left right).tree.leaves = left.tree.leaves ++ right.tree.leaves := rfl
  have sources : (memo.senses I (inputsAt inputs left.tree.leaves) ++
      memo.senses I (inputsAt inputs right.tree.leaves)).Perm (memo.senses I inputs) := by
    rw [← senses_append, ← inputsAt_append, ← leaves]
    exact (inputsAt_perm (count ▸ perm)).map (memo.sense I)
  have applied : (graph.join left right).tree.applied =
      graph.appliedAt left right ++ left.tree.applied ++ right.tree.applied := rfl
  -- What the two trees apply, what the topmost join applies, and what is left are all conjuncts.
  have everything : ∀ conjunct, conjunct ∈ graph.groupsOf left.tree.applied ++
      graph.groupsOf right.tree.applied ++ (graph.groupsOf (graph.appliedAt left right) ++
        leftover graph (graph.join left right).tree) ↔ conjunct ∈ memo.conjuncts predicate := by
    intro conjunct
    rw [← shows.mem_conjuncts_iff (graph.join left right).tree, applied,
      JoinGraph.groupsOf_append, JoinGraph.groupsOf_append]
    simp only [List.mem_append]
    tauto
  have flat : I.joined [senseLeft, senseRight]
      (memo.senses I (graph.groupsOf (graph.appliedAt left right) ++
        leftover graph (graph.join left right).tree)) =
      I.joined (memo.senses I inputs) (memo.senses I (memo.conjuncts predicate)) := by
    rw [one.dissolves.joined_pair two.dissolves between (by simpa using pair), List.append_nil,
      joined_perm sources between]
    rw [← senses_append, ← senses_append]
    exact joined_congr (senses_alike everything)
  exact flat ▸ means

end Tree

/-! ### The rule -/

theorem expandNaryJoin_faithful : expandNaryJoin.Faithful I := by
  intro context binding proposals coherent drawn done proposal member
  obtain ⟨id, expr, stored, shown, named, groups, _, _⟩ := drawn.inner rfl
  unfold expandNaryJoin at done
  simp only at done
  split at done
  · rename_i last first others operator reversed
    have computes : expr.operator.logical? = some .naryJoin := by
      rw [← shown, operator]
      rfl
    obtain ⟨sources, predicate, shape, relational, isPredicate, apart, means⟩ :=
      coherent.sound.joining stored computes rfl
    rw [groups, shape, List.reverse_append, List.reverse_singleton, List.singleton_append,
      List.cons.injEq] at reversed
    obtain ⟨rfl, reversed⟩ := reversed
    rw [← reversed, List.reverse_reverse] at done
    rw [named, means]
    have conjuncts := conjuncts_alike coherent.sound isPredicate
    split at done
    · rename_i input
      have same := pure_eq_ok_iff.1 done
      subst same
      rw [List.mem_singleton.1 member]
      have relation := relational input (List.mem_singleton.2 rfl)
      have select : (Operator.logical .select).logical? = some .select := rfl
      exact Means.join select rfl (.cons (.group relation.1) .nil) (.group isPredicate.1)
        (by simpa using relation.2) isPredicate.2 apart
    · rename_i several
      obtain ⟨graph, shown, done⟩ := bind_eq_ok_iff.1 done
      obtain ⟨tree, ordered, done⟩ := bind_eq_ok_iff.1 done
      have same := pure_eq_ok_iff.1 done
      subst same
      rw [List.mem_singleton.1 member]
      have shows := JoinGraph.ofGroups_shows coherent (lift_fault_eq_ok_iff.1 shown)
      have two : 2 ≤ sources.length := by
        match sources, several, reversed with
        | [], _, empty => cases empty
        | [input], one, _ => exact absurd rfl (one input)
        | _ :: _ :: _, _, _ => simp
      rw [coherent.sound.joined_conjuncts isPredicate]
      exact greedyOrder_means shows conjuncts.1 apart relational two
        (lift_abort_eq_ok_iff.1 ordered)
  · cases pure_eq_ok_iff.1 done
    cases member

end Rule

end Cascades
