/-
**Greedy join orders.**

A greedy join order is a tree of joins to which components are added one at a time. Every join applies
predicates that use columns of its inputs only.

* `Built`: the trees that are joined from components; `Linear`: those that add one at a time;
* `covered`, `mem_appliedAt_iff`, `Built.mem_applied_iff`: the predicates that they apply;
* `Linear.nodup_applied`: a linear tree applies each once, whatever columns its components share;
* `extension?_cases`, `exists_extension?`, `exists_seed?`: there is always a pair or a component to take;
* `greedyOrder_ends`: only a guard keeps a graph with components from having a greedy order.
-/

import Cascades.JoinOrder
import Cascades.Proofs.Action
import Mathlib.Data.List.Perm.Basic
import Mathlib.Data.List.Nodup
import Mathlib.Data.List.Range

namespace Cascades.JoinGraph

variable {graph : JoinGraph}

/-! ### Trees that are joined from components -/

/-- A tree that is joined from components of a graph. -/
inductive Built (graph : JoinGraph) : Joined → Prop where
  | single {number : Nat} (inside : number < graph.components.length) :
    Built graph (graph.single number)
  | join {left right : Joined} (first : Built graph left) (second : Built graph right) :
    Built graph (graph.join left right)

/-- The columns of a component. -/
def columnsOf (graph : JoinGraph) (number : Nat) : ColumnSet :=
  (graph.components.getD number default).columns

/-- The numbers of the predicates that a join applies. -/
def appliedAt (graph : JoinGraph) (left right : Joined) : List Nat :=
  (graph.applicable left right).map (·.2)

theorem Built.leaves_lt {built : Joined} (joined : graph.Built built) :
    ∀ number ∈ built.tree.leaves, number < graph.components.length := by
  induction joined with
  | single inside =>
    intro number member
    rw [List.mem_singleton.1 member]
    exact inside
  | join _ _ ihLeft ihRight =>
    intro number member
    exact (List.mem_append.1 member).elim (ihLeft number) (ihRight number)

/-- The columns of a tree are those of its components. -/
theorem Built.mem_columns_iff {built : Joined} (joined : graph.Built built) {column : ColumnId} :
    column ∈ built.columns ↔ ∃ number ∈ built.tree.leaves, column ∈ graph.columnsOf number := by
  induction joined with
  | @single number inside =>
    have leaves : (graph.single number).tree.leaves = [number] := rfl
    rw [leaves]
    simp only [List.mem_singleton, exists_eq_left]
    rfl
  | @join left right _ _ ihLeft ihRight =>
    have leaves : (graph.join left right).tree.leaves = left.tree.leaves ++ right.tree.leaves := rfl
    show column ∈ left.columns.union right.columns ↔ _
    rw [SortedSet.mem_union, ihLeft, ihRight, leaves]
    simp only [List.mem_append, or_and_right, exists_or]

/-- **A join applies predicates of the graph** that use columns of its components only. -/
theorem covered {left right : Joined} (first : graph.Built left) (second : graph.Built right)
    {number : Nat} (applied : number ∈ graph.appliedAt left right) :
    ∃ predicate, graph.predicates[number]? = some predicate ∧
      ∀ column ∈ predicate.columns.toList, ∃ leaf ∈ left.tree.leaves ++ right.tree.leaves,
        column ∈ graph.columnsOf leaf := by
  obtain ⟨⟨predicate, place⟩, member, rfl⟩ := List.mem_map.1 applied
  obtain ⟨there, passes⟩ := List.mem_filter.1 member
  refine ⟨predicate, List.mk_mem_zipIdx_iff_getElem?.1 there, fun column used => ?_⟩
  have subset := (Bool.and_eq_true_iff.1 (Bool.and_eq_true_iff.1 passes).1).1
  exact (Built.join first second).mem_columns_iff.1 (SortedSet.subset_iff.1 subset column used)

/-! ### Where predicates are applied -/

/-- All columns that a predicate uses are among some columns. -/
def Covers (columns : ColumnSet) (predicate : JoinPredicate) : Prop :=
  ∀ column, column ∈ predicate.columns → column ∈ columns

/-- **A join applies the predicates** that both inputs together cover and neither does alone. -/
theorem mem_appliedAt_iff {left right : Joined} {number : Nat} :
    number ∈ graph.appliedAt left right ↔ ∃ predicate, graph.predicates[number]? = some predicate ∧
      Covers (left.columns.union right.columns) predicate ∧ ¬ Covers left.columns predicate ∧
        ¬ Covers right.columns predicate := by
  have passes : ∀ predicate : JoinPredicate,
      (predicate.columns.subset (left.columns.union right.columns)
        && !predicate.columns.subset left.columns && !predicate.columns.subset right.columns) = true ↔
      Covers (left.columns.union right.columns) predicate ∧ ¬ Covers left.columns predicate ∧
        ¬ Covers right.columns predicate := by
    intro predicate
    simp only [Bool.and_eq_true, Bool.not_eq_true', Bool.eq_false_iff, ne_eq, SortedSet.subset_iff,
      and_assoc]
    rfl
  constructor
  · intro applied
    obtain ⟨⟨predicate, place⟩, member, rfl⟩ := List.mem_map.1 applied
    obtain ⟨there, kept⟩ := List.mem_filter.1 member
    exact ⟨predicate, List.mk_mem_zipIdx_iff_getElem?.1 there, (passes predicate).1 kept⟩
  · rintro ⟨predicate, there, kept⟩
    exact List.mem_map.2 ⟨(predicate, number), List.mem_filter.2
      ⟨List.mk_mem_zipIdx_iff_getElem?.2 there, (passes predicate).2 kept⟩, rfl⟩

theorem nodup_appliedAt {left right : Joined} : (graph.appliedAt left right).Nodup := by
  have numbers : (graph.predicates.zipIdx.map Prod.snd).Nodup := by
    rw [List.zipIdx_map_snd]
    exact List.nodup_range' 1 Nat.one_pos
  exact numbers.sublist (List.filter_sublist.map _)

/-- No two of some components share a column. -/
def Separate (graph : JoinGraph) (numbers : List Nat) : Prop :=
  numbers.Pairwise fun one other =>
    ∀ column, column ∈ graph.columnsOf one → ¬ column ∈ graph.columnsOf other

section Separate

variable {left right : Joined} (first : graph.Built left) (second : graph.Built right)
  (separate : graph.Separate (left.tree.leaves ++ right.tree.leaves))
include first second separate

theorem not_mem_columns_right {column : ColumnId} (inside : column ∈ left.columns) :
    ¬ column ∈ right.columns := by
  intro insideToo
  obtain ⟨one, among, here⟩ := first.mem_columns_iff.1 inside
  obtain ⟨other, amongToo, there⟩ := second.mem_columns_iff.1 insideToo
  exact (List.pairwise_append.1 separate).2.2 one among other amongToo column here there

/-- A predicate that both inputs of a join cover uses no column, so every component covers it. -/
theorem covers_of_both {predicate : JoinPredicate} (leftCovers : Covers left.columns predicate)
    (rightCovers : Covers right.columns predicate) (columns : ColumnSet) :
    Covers columns predicate := fun column used =>
  absurd (rightCovers column used)
    (not_mem_columns_right first second separate (leftCovers column used))

end Separate

theorem Built.exists_leaf {joined : Joined} (built : graph.Built joined) :
    ∃ leaf, leaf ∈ joined.tree.leaves := by
  induction built with
  | @single number => exact ⟨number, List.mem_singleton.2 rfl⟩
  | join _ _ ihLeft _ =>
    obtain ⟨leaf, among⟩ := ihLeft
    exact ⟨leaf, List.mem_append_left _ among⟩

/-- **A tree applies the predicates** that it covers and none of its components does alone. -/
theorem Built.mem_applied_iff {joined : Joined} (built : graph.Built joined)
    (separate : graph.Separate joined.tree.leaves) {number : Nat} :
    number ∈ joined.tree.applied ↔ ∃ predicate, graph.predicates[number]? = some predicate ∧
      Covers joined.columns predicate ∧
        ∀ leaf ∈ joined.tree.leaves, ¬ Covers (graph.columnsOf leaf) predicate := by
  induction built with
  | @single other inside =>
    refine iff_of_false List.not_mem_nil ?_
    rintro ⟨predicate, _, covers, alone⟩
    exact alone other (List.mem_singleton.2 rfl) covers
  | @join left right first second ihLeft ihRight =>
    have separate : graph.Separate (left.tree.leaves ++ right.tree.leaves) := separate
    have ihLeft := ihLeft (List.pairwise_append.1 separate).1
    have ihRight := ihRight (List.pairwise_append.1 separate).2.1
    have columns : ∀ column, column ∈ (graph.join left right).columns ↔
        column ∈ left.columns ∨ column ∈ right.columns := fun _ => SortedSet.mem_union
    have leafLeft : ∀ {predicate}, ∀ leaf ∈ left.tree.leaves,
        Covers (graph.columnsOf leaf) predicate → Covers left.columns predicate :=
      fun leaf among covers column used =>
        first.mem_columns_iff.2 ⟨leaf, among, covers column used⟩
    have leafRight : ∀ {predicate}, ∀ leaf ∈ right.tree.leaves,
        Covers (graph.columnsOf leaf) predicate → Covers right.columns predicate :=
      fun leaf among covers column used =>
        second.mem_columns_iff.2 ⟨leaf, among, covers column used⟩
    have applied : number ∈ (graph.join left right).tree.applied ↔
        number ∈ graph.appliedAt left right ∨ number ∈ left.tree.applied ∨
          number ∈ right.tree.applied := by
      show number ∈ graph.appliedAt left right ++ left.tree.applied ++ right.tree.applied ↔ _
      simp only [List.mem_append, or_assoc]
    have leaves : ∀ {predicate},
        (∀ leaf ∈ (graph.join left right).tree.leaves, ¬ Covers (graph.columnsOf leaf) predicate) ↔
          (∀ leaf ∈ left.tree.leaves, ¬ Covers (graph.columnsOf leaf) predicate) ∧
            ∀ leaf ∈ right.tree.leaves, ¬ Covers (graph.columnsOf leaf) predicate :=
      List.forall_mem_append
    rw [applied, mem_appliedAt_iff, ihLeft, ihRight]
    constructor
    · rintro (⟨predicate, there, covers, notLeft, notRight⟩ | ⟨predicate, there, covers, alone⟩ |
        ⟨predicate, there, covers, alone⟩)
      · exact ⟨predicate, there, covers, leaves.2 ⟨fun leaf among inside =>
          notLeft (leafLeft leaf among inside), fun leaf among inside =>
          notRight (leafRight leaf among inside)⟩⟩
      · refine ⟨predicate, there, fun column used => (columns column).2 (Or.inl (covers column used)),
          leaves.2 ⟨alone, fun leaf among inside => ?_⟩⟩
        obtain ⟨other, there⟩ := first.exists_leaf
        exact alone other there
          (covers_of_both first second separate covers (leafRight leaf among inside) _)
      · refine ⟨predicate, there, fun column used => (columns column).2 (Or.inr (covers column used)),
          leaves.2 ⟨fun leaf among inside => ?_, alone⟩⟩
        obtain ⟨other, there⟩ := second.exists_leaf
        exact alone other there
          (covers_of_both first second separate (leafLeft leaf among inside) covers _)
    · rintro ⟨predicate, there, covers, alone⟩
      obtain ⟨aloneLeft, aloneRight⟩ := leaves.1 alone
      by_cases inLeft : Covers left.columns predicate
      · exact Or.inr (Or.inl ⟨predicate, there, inLeft, aloneLeft⟩)
      by_cases inRight : Covers right.columns predicate
      · exact Or.inr (Or.inr ⟨predicate, there, inRight, aloneRight⟩)
      · exact Or.inl ⟨predicate, there, covers, inLeft, inRight⟩

/-! ### Linear trees -/

/-- A tree to which components are added one at a time, on the right. -/
inductive Linear (graph : JoinGraph) : Joined → Prop where
  | single {number : Nat} (inside : number < graph.components.length) :
    Linear graph (graph.single number)
  | join {left : Joined} {number : Nat} (first : Linear graph left)
      (inside : number < graph.components.length) :
    Linear graph (graph.join left (graph.single number))

theorem Linear.built {joined : Joined} (linear : graph.Linear joined) : graph.Built joined := by
  induction linear with
  | single inside => exact .single inside
  | join _ inside ih => exact .join ih (.single inside)

/-- A linear tree applies predicates that it covers. -/
theorem Linear.covers {joined : Joined} (linear : graph.Linear joined) {number : Nat}
    (applied : number ∈ joined.tree.applied) :
    ∃ predicate, graph.predicates[number]? = some predicate ∧ Covers joined.columns predicate := by
  induction linear with
  | single inside => exact absurd applied List.not_mem_nil
  | @join left other first inside ih =>
    have places : number ∈ graph.appliedAt left (graph.single other) ++ left.tree.applied ++ [] :=
      applied
    rw [List.append_nil, List.mem_append] at places
    rcases places with top | below
    · obtain ⟨predicate, there, covers, _⟩ := mem_appliedAt_iff.1 top
      exact ⟨predicate, there, covers⟩
    · obtain ⟨predicate, there, covers⟩ := ih below
      exact ⟨predicate, there, fun column used => SortedSet.mem_union.2 (Or.inl (covers column used))⟩

/-- **A linear tree applies each predicate once**: what it covers already is not applied again. -/
theorem Linear.nodup_applied {joined : Joined} (linear : graph.Linear joined) :
    joined.tree.applied.Nodup := by
  induction linear with
  | single => exact List.nodup_nil
  | @join left other first inside ih =>
    show (graph.appliedAt left (graph.single other) ++ left.tree.applied ++ []).Nodup
    rw [List.append_nil]
    refine nodup_appliedAt.append ih fun number top below => ?_
    obtain ⟨predicate, there, _, uncovered, _⟩ := mem_appliedAt_iff.1 top
    obtain ⟨same, again, covers⟩ := first.covers below
    obtain rfl : predicate = same := Option.some.inj (there.symm.trans again)
    exact uncovered covers

/-! ### The greedy order -/

/-- The best of some values is one of them. -/
theorem mem_of_pick {α : Type} {replaces : α → α → Bool} {values : List α} {best : α}
    (picked : pick replaces values = some best) : best ∈ values := by
  have inside : ∀ (others : List α) (start : α),
      others.foldl (fun best next => if replaces next best then next else best) start ∈
        start :: others := by
    intro others
    induction others with
    | nil => simp
    | cons next others ih =>
      intro start
      rw [List.foldl_cons]
      by_cases better : replaces next start = true
      · simp only [better, if_true]
        exact List.mem_cons_of_mem _ (ih next)
      · have later := ih start
        simp only [List.mem_cons] at later
        simp only [better, List.mem_cons]
        tauto
  cases values with
  | nil => cases picked
  | cons first rest =>
    have same := Option.some.inj picked
    exact same ▸ inside rest first

theorem exists_pick {α : Type} {replaces : α → α → Bool} {values : List α} (any : values ≠ []) :
    ∃ best, pick replaces values = some best := by
  cases values with
  | nil => exact absurd rfl any
  | cons first rest => exact ⟨_, rfl⟩

/-- **An extension** joins one of the remaining components, and there is one as long as any
remains. -/
theorem extension?_cases {current next : Joined} {remaining : List Nat} {place : Nat}
    (extended : graph.extension? current remaining = some (next, place)) :
    ∃ number, remaining[place]? = some number ∧
      next = graph.join current (graph.single number) := by
  have among := mem_of_pick extended
  have candidate : (next, place) ∈
      (remaining.map fun number => graph.join current (graph.single number)).zipIdx := by
    split at among
    · exact among
    · exact (List.mem_filter.1 among).1
  have there := List.mk_mem_zipIdx_iff_getElem?.1 candidate
  rw [List.getElem?_map, Option.map_eq_some_iff] at there
  obtain ⟨number, there, same⟩ := there
  exact ⟨number, there, same.symm⟩

theorem exists_extension? {current : Joined} {remaining : List Nat} (any : remaining ≠ []) :
    ∃ next, graph.extension? current remaining = some next := by
  refine exists_pick ?_
  split
  · simpa using any
  · rename_i adjacent
    simpa using adjacent

/-- The pairs of components to start with. -/
theorem mem_pairs_iff {pair : Joined} :
    pair ∈ graph.pairs ↔ ∃ left right, left < right ∧ right < graph.components.length ∧
      pair = graph.join (graph.single left) (graph.single right) := by
  constructor
  · intro member
    obtain ⟨left, _, inside⟩ := List.mem_flatMap.1 member
    obtain ⟨right, among, rfl⟩ := List.mem_map.1 inside
    rw [List.mem_range'_1] at among
    exact ⟨left, right, by omega, by omega, rfl⟩
  · rintro ⟨left, right, before, inside, rfl⟩
    refine List.mem_flatMap.2 ⟨left, List.mem_range.2 (by omega), List.mem_map.2 ⟨right, ?_, rfl⟩⟩
    rw [List.mem_range'_1]
    omega

/-- There is a pair to start with. -/
theorem exists_seed? (several : 2 ≤ graph.components.length) :
    ∃ pair ∈ graph.pairs, graph.seed? = some pair := by
  have first : graph.join (graph.single 0) (graph.single 1) ∈ graph.pairs :=
    mem_pairs_iff.2 ⟨0, 1, Nat.zero_lt_one, several, rfl⟩
  unfold seed?
  rw [List.partition_eq_filter_filter]
  simp only
  by_cases connected : graph.pairs.filter (not ∘ fun pair => pair.tree.isCross) = []
  · have crosses : graph.pairs.filter (fun pair => pair.tree.isCross) ≠ [] := by
      have isCross := List.filter_eq_nil_iff.1 connected _ first
      simp only [Function.comp_apply, Bool.not_eq_true, Bool.not_eq_false'] at isCross
      exact List.ne_nil_of_mem (List.mem_filter.2 ⟨first, isCross⟩)
    obtain ⟨pair, picked⟩ := exists_pick crosses
    rw [connected]
    exact ⟨pair, (List.mem_filter.1 (mem_of_pick picked)).1, picked⟩
  · obtain ⟨pair, picked⟩ := exists_pick connected
    rw [picked]
    exact ⟨pair, (List.mem_filter.1 (mem_of_pick picked)).1, rfl⟩

/-- Some numbers and then all the others. -/
theorem perm_range {numbers : List Nat} {count : Nat} (once : numbers.Nodup)
    (inside : ∀ number ∈ numbers, number < count) :
    (numbers ++ (List.range count).filter fun number => !numbers.contains number).Perm
      (List.range count) := by
  have chosen : numbers.Perm ((List.range count).filter fun number => numbers.contains number) := by
    refine (List.perm_ext_iff_of_nodup once (List.nodup_range.filter _)).2 fun number => ?_
    rw [List.mem_filter, List.mem_range, List.contains_iff_mem]
    exact ⟨fun member => ⟨inside number member, member⟩, And.right⟩
  exact (chosen.append_right _).trans (List.filter_append_perm _ _)

theorem extend_ends {guard : Guard} {steps : Nat} {current : Joined} {remaining : List Nat} :
    Ends Abort.Stops (graph.extend guard steps current remaining) fun _ => True := by
  induction steps generalizing current remaining with
  | zero => exact Ends.pure trivial
  | succ steps ih =>
    unfold extend
    refine Ends.ite (Ends.pure trivial) ?_
    refine Ends.bind Guard.check_ends fun _ _ => ?_
    split
    · exact Ends.pure trivial
    · exact ih

/-- **Only a guard keeps a graph with components from having a greedy order.** -/
theorem greedyOrder_ends {guard : Guard} (some : graph.components ≠ []) :
    Ends Abort.Stops (graph.greedyOrder guard) (graph.greedyOrder guard = .ok ·) := by
  have total : Ends Abort.Stops (graph.greedyOrder guard) fun _ => True := by
    unfold greedyOrder
    split
    · rename_i none
      exact absurd none some
    · exact Ends.pure trivial
    · refine Ends.bind Guard.check_ends fun _ _ => ?_
      split
      · exact Ends.pure trivial
      · exact extend_ends.returns
  exact total.of_all fun _ done => done

end Cascades.JoinGraph
