/-
**Joins without predicates are delayed and as few as can be.**

Where every predicate uses columns of exactly two components, the components and the predicates are a
graph. A greedy order takes a join without predicates only where no predicate leads from the components
that it has to another one. So each such join goes on to a new connected part of the graph, and any other
join stays in a part that it has met.

* `Shares`, `sharing`: two components that share a predicate, and the graph that they make;
* `connects_of_ties`, `connects_iff`: a tree is connected to a component that shares a predicate with one
  of its own;
* `seed?_crosses`, `extension?_crosses`: a join without predicates is taken where there is no other;
* `Reached.delayed`: what this says of the trees that are reached;
* `met`: the connected parts that some components meet; `Reached.crosses`: how many there are;
* `greedyOrder_crosses`: how many joins of a greedy order have no predicate.
-/

import Cascades.Proofs.Greedy.Course
import Mathlib.Combinatorics.SimpleGraph.Connectivity.Connected
import Mathlib.SetTheory.Cardinal.NatCard
import Mathlib.Data.Set.Card

namespace Cascades.JoinGraph

variable {graph : JoinGraph} {current : Joined} {number : Nat}

/-! ### The graph of the components -/

/-- A predicate uses a column of a component. -/
def Uses (graph : JoinGraph) (predicate : JoinPredicate) (number : Nat) : Prop :=
  ∃ column, column ∈ predicate.columns ∧ column ∈ graph.columnsOf number

/-- Some predicate uses columns of both components. -/
def Shares (graph : JoinGraph) (one other : Nat) : Prop :=
  ∃ predicate ∈ graph.predicates, graph.Uses predicate one ∧ graph.Uses predicate other

/-- Some predicate uses columns of both components and no others. -/
def Ties (graph : JoinGraph) (one other : Nat) : Prop :=
  ∃ predicate ∈ graph.predicates, graph.Uses predicate one ∧ graph.Uses predicate other ∧
    ∀ column, column ∈ predicate.columns →
      column ∈ graph.columnsOf one ∨ column ∈ graph.columnsOf other

/-- A predicate uses columns of exactly two components, and no others. -/
def SpansTwo (graph : JoinGraph) (predicate : JoinPredicate) : Prop :=
  ∃ one other, one < graph.components.length ∧ other < graph.components.length ∧ one ≠ other ∧
    graph.Uses predicate one ∧ graph.Uses predicate other ∧
    ∀ column, column ∈ predicate.columns →
      column ∈ graph.columnsOf one ∨ column ∈ graph.columnsOf other

theorem Shares.symm {one other : Nat} (shares : graph.Shares one other) : graph.Shares other one := by
  obtain ⟨predicate, member, first, second⟩ := shares
  exact ⟨predicate, member, second, first⟩

/-- The graph of the components, with an edge between two that share a predicate. -/
def sharing (graph : JoinGraph) : SimpleGraph (Fin graph.components.length) where
  Adj one other := one ≠ other ∧ graph.Shares one other
  symm := ⟨fun _ _ joined => ⟨joined.1.symm, joined.2.symm⟩⟩
  loopless := ⟨fun _ joined => joined.1 rfl⟩

theorem separate_of_ne (separate : graph.Separate (List.range graph.components.length)) {one other : Nat}
    (here : one < graph.components.length) (there : other < graph.components.length)
    (differ : one ≠ other) {column : ColumnId} (inside : column ∈ graph.columnsOf one) :
    ¬ column ∈ graph.columnsOf other := by
  have apart : ∀ {low high : Nat}, low < high → high < graph.components.length →
      ∀ column, column ∈ graph.columnsOf low → ¬ column ∈ graph.columnsOf high := by
    intro low high below bound
    have pair := List.pairwise_iff_getElem.1 separate low high
      (by rw [List.length_range]; omega) (by rwa [List.length_range]) below
    rwa [List.getElem_range, List.getElem_range] at pair
  rcases Nat.lt_or_gt_of_ne differ with below | above
  · exact apart below there column inside
  · exact fun insideToo => apart above here column insideToo inside

/-- A tree is connected to a component that a predicate ties to one of its own. -/
theorem connects_of_ties (separate : graph.Separate (List.range graph.components.length))
    (built : graph.Built current) (inside : number < graph.components.length)
    (new : number ∉ current.tree.leaves) {leaf : Nat} (listed : leaf ∈ current.tree.leaves)
    (ties : graph.Ties leaf number) : graph.Connects current (graph.single number) := by
  obtain ⟨predicate, member, usesLeaf, usesNumber, within⟩ := ties
  have lower := built.leaves_lt
  have differ : leaf ≠ number := fun same => new (same ▸ listed)
  refine ⟨predicate, member, fun column used => ?_, fun covers => ?_, fun covers => ?_⟩
  · rcases within column used with made | made
    · exact SortedSet.mem_union.2 (Or.inl (built.mem_columns_iff.2 ⟨leaf, listed, made⟩))
    · exact SortedSet.mem_union.2 (Or.inr made)
  · obtain ⟨column, used, made⟩ := usesNumber
    obtain ⟨other, listedToo, madeToo⟩ := built.mem_columns_iff.1 (covers column used)
    have differToo : number ≠ other := fun same => new (same ▸ listedToo)
    exact separate_of_ne separate inside (lower other listedToo) differToo made madeToo
  · obtain ⟨column, used, made⟩ := usesLeaf
    exact separate_of_ne separate (lower leaf listed) inside differ made (covers column used)

section Two

variable (separate : graph.Separate (List.range graph.components.length))
  (spans : ∀ predicate ∈ graph.predicates, graph.SpansTwo predicate)
include separate spans

/-- A predicate that two components share uses columns of these two only. -/
theorem covered_of_uses {predicate : JoinPredicate} (member : predicate ∈ graph.predicates)
    {one other : Nat} (here : one < graph.components.length) (there : other < graph.components.length)
    (differ : one ≠ other) (usesOne : graph.Uses predicate one) (usesOther : graph.Uses predicate other) :
    ∀ column, column ∈ predicate.columns →
      column ∈ graph.columnsOf one ∨ column ∈ graph.columnsOf other := by
  obtain ⟨first, second, firstIn, secondIn, _, _, _, covers⟩ := spans predicate member
  have among : ∀ {number : Nat}, number < graph.components.length → graph.Uses predicate number →
      number = first ∨ number = second := by
    rintro number inside ⟨column, used, made⟩
    by_contra neither
    rw [not_or] at neither
    rcases covers column used with inFirst | inSecond
    · exact separate_of_ne separate inside firstIn neither.1 made inFirst
    · exact separate_of_ne separate inside secondIn neither.2 made inSecond
  intro column used
  rcases among here usesOne with rfl | rfl <;> rcases among there usesOther with rfl | rfl
  · exact absurd rfl differ
  · exact covers column used
  · exact (covers column used).symm
  · exact absurd rfl differ

/-- **A tree is connected** to the components that share a predicate with one of its own. -/
theorem connects_iff (built : graph.Built current) (inside : number < graph.components.length)
    (new : number ∉ current.tree.leaves) :
    graph.Connects current (graph.single number) ↔
      ∃ leaf ∈ current.tree.leaves, graph.Shares leaf number := by
  have lower := built.leaves_lt
  constructor
  · rintro ⟨predicate, member, covers, notLeft, notRight⟩
    obtain ⟨one, other, oneIn, otherIn, differ, usesOne, usesOther, within⟩ := spans predicate member
    -- A component whose columns the predicate uses is one that the join has.
    have among : ∀ {component : Nat}, component < graph.components.length →
        graph.Uses predicate component → component ∈ current.tree.leaves ∨ component = number := by
      rintro component here ⟨column, used, made⟩
      rcases SortedSet.mem_union.1 (covers column used) with inLeft | inRight
      · obtain ⟨leaf, listed, madeToo⟩ := built.mem_columns_iff.1 inLeft
        by_cases same : component = leaf
        · exact Or.inl (same ▸ listed)
        · exact absurd madeToo (separate_of_ne separate here (lower leaf listed) same made)
      · by_cases same : component = number
        · exact Or.inr same
        · exact absurd inRight (separate_of_ne separate here inside same made)
    rcases among oneIn usesOne with oneLeft | rfl
    · rcases among otherIn usesOther with otherLeft | rfl
      · refine absurd (fun column used => ?_) notLeft
        rcases within column used with made | made
        · exact built.mem_columns_iff.2 ⟨one, oneLeft, made⟩
        · exact built.mem_columns_iff.2 ⟨other, otherLeft, made⟩
      · exact ⟨one, oneLeft, predicate, member, usesOne, usesOther⟩
    · rcases among otherIn usesOther with otherLeft | rfl
      · exact ⟨other, otherLeft, predicate, member, usesOther, usesOne⟩
      · exact absurd rfl differ
  · rintro ⟨leaf, listed, predicate, member, usesLeaf, usesNumber⟩
    have differ : leaf ≠ number := fun same => new (same ▸ listed)
    exact connects_of_ties separate built inside new listed ⟨predicate, member, usesLeaf, usesNumber,
      covered_of_uses separate spans member (lower leaf listed) inside differ usesLeaf usesNumber⟩

end Two

/-! ### Where joins without predicates are taken -/

/-- A pair without a predicate is where a greedy order starts only if no pair has one. -/
theorem seed?_crosses {pair : Joined} (chosen : graph.seed? = some pair)
    (cross : pair.tree.isCross = true) : ∀ other ∈ graph.pairs, other.tree.isCross = true := by
  unfold seed? at chosen
  rw [List.partition_eq_filter_filter] at chosen
  simp only at chosen
  intro other member
  by_contra connected
  have kept : other ∈ graph.pairs.filter (not ∘ fun pair => pair.tree.isCross) :=
    List.mem_filter.2 ⟨member, by simpa using connected⟩
  obtain ⟨best, picked⟩ := exists_pick (List.ne_nil_of_mem kept)
  rw [picked, Option.some_or] at chosen
  obtain rfl := Option.some.inj chosen
  have joins := (List.mem_filter.1 (mem_of_pick picked)).2
  simp [cross] at joins

/-- Where a greedy order starts without a predicate, the first component has one with no other. -/
theorem others_cross_of_seed? {left right : Nat} (before : left < right)
    (inside : right < graph.components.length)
    (chosen : graph.seed? = some (graph.join (graph.single left) (graph.single right)))
    (cross : (graph.join (graph.single left) (graph.single right)).tree.isCross = true) :
    ∀ other ∈ graph.others (graph.single left),
      (graph.join (graph.single left) (graph.single other)).tree.isCross = true := by
  have all := seed?_crosses chosen cross
  intro other remains
  obtain ⟨otherIn, new⟩ := mem_others_iff.1 remains
  have differ : left ≠ other := fun same => new (same ▸ List.mem_singleton.2 rfl)
  rw [isCross_join_iff]
  rcases Nat.lt_or_gt_of_ne differ with below | above
  · exact isCross_join_iff.1 (all _ (mem_pairs_iff.2 ⟨left, other, below, otherIn, rfl⟩))
  · have apart := isCross_join_iff.1
      (all _ (mem_pairs_iff.2 ⟨other, left, above, before.trans inside, rfl⟩))
    exact fun connects => apart connects.symm

/-- A component is added without a predicate only if none of those that remain has one. -/
theorem extension?_crosses {next : Joined} {remaining : List Nat} {place : Nat}
    (chosen : graph.extension? current remaining = some (next, place))
    (cross : next.tree.isCross = true) :
    ∀ other ∈ remaining, (graph.join current (graph.single other)).tree.isCross = true := by
  have among := mem_of_pick chosen
  split at among
  · rename_i none
    intro other member
    obtain ⟨place, there⟩ := List.getElem?_of_mem
      (List.mem_map_of_mem (f := fun number => graph.join current (graph.single number)) member)
    have all := List.filter_eq_nil_iff.1 (List.isEmpty_iff.1 none) (_, place)
      (List.mk_mem_zipIdx_iff_getElem?.2 there)
    simpa using all
  · have joins := (List.mem_filter.1 among).2
    simp [cross] at joins

/-- No component outside of some components shares a predicate with one of them. -/
def Closed (graph : JoinGraph) (components : List Nat) : Prop :=
  ∀ other, other < graph.components.length → other ∉ components →
    ∀ component ∈ components, ¬ graph.Shares component other

section Two

variable (separate : graph.Separate (List.range graph.components.length))
  (spans : ∀ predicate ∈ graph.predicates, graph.SpansTwo predicate)
include separate spans

theorem closed_of_crosses (built : graph.Built current)
    (crosses : ∀ other ∈ graph.others current,
      (graph.join current (graph.single other)).tree.isCross = true) :
    graph.Closed current.tree.leaves := by
  intro other inside new component listed shares
  have apart := isCross_join_iff.1 (crosses other (mem_others_iff.2 ⟨inside, new⟩))
  exact apart ((connects_iff separate spans built inside new).2 ⟨component, listed, shares⟩)

/-- **A first pair without a predicate** is taken where its first component shares none. -/
theorem closed_of_seed? {left right : Nat} (before : left < right)
    (inside : right < graph.components.length)
    (chosen : graph.seed? = some (graph.join (graph.single left) (graph.single right)))
    (cross : (graph.join (graph.single left) (graph.single right)).tree.isCross = true) :
    graph.Closed [left] :=
  closed_of_crosses separate spans (.single (before.trans inside))
    (others_cross_of_seed? before inside chosen cross)

/-- **A component is added without a predicate** where those that are there share none with others. -/
theorem closed_of_extension? {place : Nat} (built : graph.Built current)
    (chosen : graph.extension? current (graph.others current) =
      some (graph.join current (graph.single number), place))
    (cross : (graph.join current (graph.single number)).tree.isCross = true) :
    graph.Closed current.tree.leaves :=
  closed_of_crosses separate spans built (extension?_crosses chosen cross)

/-- **Joins without predicates are delayed.** -/
theorem Reached.delayed (reached : graph.Reached current) {left right : JoinTree} {cardinality : Float}
    (inside : .join left right [] cardinality ∈ current.tree.subtrees) : graph.Closed left.leaves := by
  induction reached with
  | @seed first second before bound chosen =>
    rcases JoinTree.join_mem_extended.1 inside with same | below
    · obtain ⟨rfl, -, none, -⟩ := JoinTree.join.inj same
      exact closed_of_seed? separate spans before bound chosen (List.isEmpty_iff.2 none.symm)
    · exact absurd below JoinTree.join_not_mem_leaf
  | @extension current number place earlier _ chosen ih =>
    rcases JoinTree.join_mem_extended.1 inside with same | below
    · obtain ⟨rfl, -, none, -⟩ := JoinTree.join.inj same
      exact closed_of_extension? separate spans earlier.linear.built chosen
        (List.isEmpty_iff.2 none.symm)
    · exact ih below

end Two

/-! ### How many there are -/

/-- The number of joins without predicates in a tree. -/
def crosses (tree : JoinTree) : Nat := tree.subtrees.countP JoinTree.isCross

theorem crosses_join : crosses (graph.join current (graph.single number)).tree =
    crosses current.tree +
      if (graph.join current (graph.single number)).tree.isCross then 1 else 0 := by
  have subtrees : (graph.join current (graph.single number)).tree.subtrees =
      (graph.join current (graph.single number)).tree :: (current.tree.subtrees ++ [.leaf number]) := rfl
  have single : [JoinTree.leaf number].countP JoinTree.isCross = 0 := rfl
  rw [crosses, crosses, subtrees, List.countP_cons, List.countP_append, single, Nat.add_zero]

/-- The connected parts of the graph that some components meet. -/
def met (graph : JoinGraph) (components : List Nat) : Set graph.sharing.ConnectedComponent :=
  {part | ∃ vertex : Fin graph.components.length, vertex.val ∈ components ∧
    graph.sharing.connectedComponentMk vertex = part}

theorem met_append {components : List Nat} (inside : number < graph.components.length) :
    graph.met (components ++ [number]) =
      insert (graph.sharing.connectedComponentMk ⟨number, inside⟩) (graph.met components) := by
  ext part
  simp only [met, List.mem_append, List.mem_singleton, Set.mem_ofPred_eq, Set.mem_insert_iff]
  constructor
  · rintro ⟨vertex, listed | same, rfl⟩
    · exact Or.inr ⟨vertex, listed, rfl⟩
    · exact Or.inl (congrArg _ (Fin.ext same))
  · rintro (rfl | ⟨vertex, listed, rfl⟩)
    · exact ⟨_, Or.inr rfl, rfl⟩
    · exact ⟨vertex, Or.inl listed, rfl⟩

/-- What can be reached from components that share nothing with others is among them. -/
theorem Closed.mem_of_reachable {components : List Nat} (closed : graph.Closed components)
    {first last : Fin graph.components.length} (path : graph.sharing.Reachable first last)
    (listed : first.val ∈ components) : last.val ∈ components := by
  obtain ⟨walk⟩ := path
  induction walk with
  | nil => exact listed
  | @cons first next last step _ ih =>
    refine ih ?_
    by_contra outside
    exact closed next next.isLt outside first listed step.2

section Two

variable (separate : graph.Separate (List.range graph.components.length))
  (spans : ∀ predicate ∈ graph.predicates, graph.SpansTwo predicate)
include separate spans

/-- **A join without predicates meets one more part**, and any other join meets none. -/
theorem crosses_join_eq (built : graph.Built current) (inside : number < graph.components.length)
    (new : number ∉ current.tree.leaves)
    (delayed : (graph.join current (graph.single number)).tree.isCross = true →
      graph.Closed current.tree.leaves)
    (count : crosses current.tree + 1 = (graph.met current.tree.leaves).ncard) :
    crosses (graph.join current (graph.single number)).tree + 1 =
      (graph.met (graph.join current (graph.single number)).tree.leaves).ncard := by
  have leaves : (graph.join current (graph.single number)).tree.leaves =
      current.tree.leaves ++ [number] := rfl
  rw [crosses_join, leaves, met_append inside]
  by_cases cross : (graph.join current (graph.single number)).tree.isCross = true
  · have unmet : graph.sharing.connectedComponentMk ⟨number, inside⟩ ∉ graph.met current.tree.leaves := by
      rintro ⟨vertex, listed, same⟩
      exact new ((delayed cross).mem_of_reachable (SimpleGraph.ConnectedComponent.exact same) listed)
    rw [if_pos cross, Set.ncard_insert_of_notMem unmet (Set.toFinite _), ← count]
  · obtain ⟨leaf, listed, shares⟩ := (connects_iff separate spans built inside new).1
      (not_not.1 (mt isCross_join_iff.2 cross))
    have differ : leaf ≠ number := fun same => new (same ▸ listed)
    have metAlready : graph.sharing.connectedComponentMk ⟨number, inside⟩ ∈
        graph.met current.tree.leaves := by
      refine ⟨⟨leaf, built.leaves_lt leaf listed⟩, listed, SimpleGraph.ConnectedComponent.sound ?_⟩
      exact SimpleGraph.Adj.reachable ⟨fun same => differ (congrArg Fin.val same), shares⟩
    rw [if_neg cross, Set.insert_eq_of_mem metAlready, Nat.add_zero, count]

omit separate spans in
theorem crosses_single (inside : number < graph.components.length) :
    crosses (graph.single number).tree + 1 = (graph.met (graph.single number).tree.leaves).ncard := by
  have leaves : (graph.single number).tree.leaves = [] ++ [number] := rfl
  have none : graph.met [] = ∅ := by
    ext part
    simp [met]
  rw [leaves, met_append inside, none, insert_empty_eq, Set.ncard_singleton]
  rfl

/-- **As many joins without predicates** have been made as parts were met after the first one. -/
theorem Reached.crosses (reached : graph.Reached current) :
    crosses current.tree + 1 = (graph.met current.tree.leaves).ncard := by
  induction reached with
  | @seed left right before inside chosen =>
    have new : right ∉ (graph.single left).tree.leaves := fun listed =>
      before.ne' (List.mem_singleton.1 listed)
    exact crosses_join_eq separate spans (.single (before.trans inside)) inside new
      (closed_of_seed? separate spans before inside chosen) (crosses_single (before.trans inside))
  | extension earlier remains chosen ih =>
    obtain ⟨inside, new⟩ := mem_others_iff.1 remains
    exact crosses_join_eq separate spans earlier.linear.built inside new
      (closed_of_extension? separate spans earlier.linear.built chosen) ih

omit separate spans in
/-- All components meet all parts. -/
theorem ncard_met {components : List Nat} (all : ∀ number < graph.components.length, number ∈ components) :
    (graph.met components).ncard = Nat.card graph.sharing.ConnectedComponent := by
  have every : graph.met components = Set.univ := by
    refine Set.eq_univ_of_forall fun part => ?_
    obtain ⟨vertex, rfl⟩ := part.exists_rep
    exact ⟨vertex, all vertex vertex.isLt, rfl⟩
  rw [every, Set.ncard_univ]

end Two

/-- **Joins without predicates are delayed and as few as can be.** For components that have no column in
common and predicates that use columns of two of them each, the joins of a greedy order that have no
predicate are one less than the connected parts of the graph of the components, whatever the statistics;
and each of them is made where no component outside of its left input shares a predicate with one in it. -/
theorem greedyOrder_crosses {guard : Guard} (some : graph.components ≠ [])
    (unfired : guard.check 0 = .ok ())
    (separate : graph.Separate (List.range graph.components.length))
    (spans : ∀ predicate ∈ graph.predicates, graph.SpansTwo predicate) :
    ∃ tree, graph.greedyOrder guard = .ok tree ∧
      crosses tree + 1 = Nat.card graph.sharing.ConnectedComponent ∧
      (graph.sharing.Connected → crosses tree = 0) ∧
      ∀ left right cardinality, .join left right [] cardinality ∈ tree.subtrees →
        graph.Closed left.leaves := by
  have whole : ∀ {count : Nat}, count + 1 = Nat.card graph.sharing.ConnectedComponent →
      graph.sharing.Connected → count = 0 := by
    intro count parts connected
    have one := Finite.card_le_one_iff_subsingleton.2
      connected.preconnected.subsingleton_connectedComponent
    omega
  rcases greedyOrder_cases unfired some with ⟨one, done⟩ | ⟨last, reached, nothing, done⟩
  · have inside : 0 < graph.components.length := by omega
    have all : ∀ number < graph.components.length, number ∈ (graph.single 0).tree.leaves :=
      fun number bound => List.mem_singleton.2 (by omega)
    have count := (crosses_single inside).trans (ncard_met all)
    exact ⟨_, done, count, whole count, fun left right cardinality below =>
      absurd below JoinTree.join_not_mem_leaf⟩
  · have perm := reached.leaves_perm nothing
    have all : ∀ number < graph.components.length, number ∈ last.tree.leaves :=
      fun number bound => perm.mem_iff.2 (List.mem_range.2 bound)
    have count := (reached.crosses separate spans).trans (ncard_met all)
    exact ⟨_, done, count, whole count, fun left right cardinality below =>
      reached.delayed separate spans below⟩

/-- Two large relations with a predicate between them, and a small one without any. -/
def besideSmall : JoinGraph where
  components := [.counted 100 [(1, 100)], .counted 2 [(2, 2)], .counted 100 [(3, 100)]]
  predicates := [.equating 1 3]

/-- The small relation comes last, and the join that adds it is the only one without a predicate. -/
theorem greedyOrder_crosses_besideSmall :
    besideSmall.components ≠ [] ∧ Guard.check {} 0 = .ok () ∧
    besideSmall.Separate (List.range 3) ∧
    (∀ predicate ∈ besideSmall.predicates, besideSmall.SpansTwo predicate) ∧
    ∃ tree, besideSmall.greedyOrder {} = .ok tree ∧ tree.leaves = [0, 2, 1] ∧ crosses tree = 1 ∧
      Nat.card besideSmall.sharing.ConnectedComponent = 2 ∧
      ∀ left right cardinality, .join left right [] cardinality ∈ tree.subtrees →
        besideSmall.Closed left.leaves := by
  have separate : besideSmall.Separate (List.range 3) := by
    simp [Separate, columnsOf, besideSmall, JoinComponent.counted, List.range_succ]
  have spans : ∀ predicate ∈ besideSmall.predicates, besideSmall.SpansTwo predicate := by
    refine List.forall_mem_singleton.2 ⟨0, 2, by decide, by decide, by decide,
      ⟨1, by decide, by decide⟩, ⟨3, by decide, by decide⟩, fun column used => ?_⟩
    rcases List.mem_pair.1 (SortedSet.mem_ofList.1 used) with rfl | rfl
    · exact Or.inl (by decide)
    · exact Or.inr (by decide)
  have some : besideSmall.components ≠ [] := nofun
  have unfired : Guard.check {} 0 = .ok () := rfl
  obtain ⟨tree, done, count, -, delayed⟩ := greedyOrder_crosses some unfired separate spans
  have made : (besideSmall.greedyOrder {}).toOption.map (fun tree => (tree.leaves, crosses tree)) =
      .some ([0, 2, 1], 1) := by decide +kernel
  rw [done] at made
  obtain ⟨leaves, one⟩ := Prod.mk.inj (Option.some.inj made)
  exact ⟨some, unfired, separate, spans, tree, done, leaves, one, by omega, delayed⟩

end Cascades.JoinGraph
