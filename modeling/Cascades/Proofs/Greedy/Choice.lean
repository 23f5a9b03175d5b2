/-
**A greedy order takes what is smallest, and of equals the first.**

The rows of a join are estimated by a number, whatever the statistics of the components, so the joins to
choose from are in a total preorder. The pair to start with is the first of the smallest pairs, in the
order of their numbers, and a component that is added is the first of those that keep the join smallest;
joins without predicates are left aside as long as there are others.

* `isNaN_rows_join`: what is estimated is a number;
* `IsFirstLeast`: the first of the values of least cost;
* `pick_split`: what a scan finds; `pick_firstLeast`: it is the first of the least;
* `seed?_firstLeast`, `extension?_firstLeast`: the two choices;
* `greedyOrder_firstLeast`: every join of a greedy order.
-/

import Cascades.Proofs.Double
import Cascades.Proofs.Greedy.Course
import Mathlib.Data.Prod.Lex

namespace Cascades.JoinGraph

variable {graph : JoinGraph} {current : Joined} {number : Nat}

/-! ### Estimates -/

/-- **What is estimated for a join is a number.** -/
theorem isNaN_rows_join (left right : Joined) :
    (graph.join left right).statistics.rows.isNaN = false := by
  unfold join
  dsimp only
  split
  · exact Double.isNaN_larger Double.isNaN_one
  · exact Double.isNaN_larger Double.isNaN_one

/-! ### The first of the least -/

/-- The first of the values of least cost among some values. -/
structure IsFirstLeast {α : Type} [LE α] (among : α → Prop) (cost : α → Float) (chosen : α) : Prop where
  listed : among chosen
  least : ∀ other, among other → cost chosen ≤ cost other
  first : ∀ other, among other → cost other ≤ cost chosen → chosen ≤ other

/-- Some values, but only preferred ones where there are any. -/
def Preferring {α : Type} (among preferred : α → Prop) (value : α) : Prop :=
  among value ∧ ((∃ other, among other ∧ preferred other) → preferred value)

section Pick

variable {α β : Type} {replaces : β → β → Bool} {cost : β → Float} {values : List β} {best : β}
  (numbers : ∀ value ∈ values, (cost value).isNaN = false)
  (less : ∀ one ∈ values, ∀ other ∈ values, replaces one other = true ↔ cost one < cost other)
include numbers less

/-- A scan goes on from the best of the values that it has seen: all before that one cost more, and none
of those behind it costs less. -/
theorem foldl_split {others before after : List β} {start : β}
    (ended : others.foldl (fun best next => if replaces next best then next else best) start = best)
    (shape : values = before ++ start :: after ++ others)
    (above : ∀ value ∈ before, cost start < cost value)
    (notBelow : ∀ value ∈ after, cost start ≤ cost value) :
    ∃ early late, values = early ++ best :: late ∧ (∀ value ∈ early, cost best < cost value) ∧
      ∀ value ∈ late, cost best ≤ cost value := by
  -- What is still to come gets shorter; what was seen stays split at the best of it.
  induction others generalizing before start after with
  | nil =>
    obtain rfl : start = best := ended
    exact ⟨before, after, by simpa using shape, above, notBelow⟩
  | cons next others ih =>
    have seen : ∀ value, value ∈ before ∨ value = start ∨ value ∈ after ∨ value = next →
        value ∈ values := by
      intro value place
      rw [shape]
      simp only [List.mem_append, List.mem_cons]
      tauto
    have number := fun value place => numbers value (seen value place)
    have startIs := number start (by simp)
    have nextIs := number next (by simp)
    rw [List.foldl_cons] at ended
    by_cases better : replaces next start = true
    · have below := (less next (seen next (by simp)) start (seen start (by simp))).1 better
      rw [if_pos better] at ended
      have shape : values = (before ++ start :: after) ++ next :: [] ++ others := by simpa using shape
      refine ih ended shape ?_ (List.forall_mem_nil _)
      intro value place
      rcases List.mem_append.1 place with early | late
      · exact Double.lt_trans nextIs startIs (number value (.inl early)) below (above value early)
      · rcases List.mem_cons.1 late with rfl | late
        · exact below
        · exact Double.lt_of_lt_of_le nextIs startIs (number value (.inr (.inr (.inl late)))) below
            (notBelow value late)
    · have stays := (Double.not_lt_iff nextIs startIs).1
        (mt (less next (seen next (by simp)) start (seen start (by simp))).2 better)
      rw [if_neg better] at ended
      have shape : values = before ++ start :: (after ++ [next]) ++ others := by simpa using shape
      refine ih ended shape above ?_
      intro value place
      rcases List.mem_append.1 place with late | last
      · exact notBelow value late
      · exact (List.mem_singleton.1 last) ▸ stays

/-- **What a scan finds**: all before it cost more, and none behind it costs less. -/
theorem pick_split (picked : pick replaces values = some best) :
    ∃ early late, values = early ++ best :: late ∧ (∀ value ∈ early, cost best < cost value) ∧
      ∀ value ∈ late, cost best ≤ cost value := by
  cases values with
  | nil => cases picked
  | cons start others =>
    have shape : start :: others = [] ++ start :: [] ++ others := rfl
    exact foldl_split numbers less (Option.some.inj picked) shape (List.forall_mem_nil _)
      (List.forall_mem_nil _)

omit numbers less in
/-- **A scan of the images of some keys in order** finds the image of the first key of the least. -/
theorem pick_firstLeast {keys : List α} {before : α → α → Prop} (sorted : keys.Pairwise before)
    (image : α → β) (cost : β → Float) (numbers : ∀ key ∈ keys, (cost (image key)).isNaN = false)
    (less : ∀ one ∈ keys, ∀ other ∈ keys,
      replaces (image one) (image other) = true ↔ cost (image one) < cost (image other))
    (picked : pick replaces (keys.map image) = some best) :
    ∃ key ∈ keys, best = image key ∧ ∀ other ∈ keys, cost (image key) ≤ cost (image other) ∧
      (cost (image other) ≤ cost (image key) → key = other ∨ before key other) := by
  obtain ⟨early, late, shape, above, notBelow⟩ := pick_split (List.forall_mem_map.2 numbers)
    (List.forall_mem_map.2 fun one first => List.forall_mem_map.2 fun other second =>
      less one first other second) picked
  obtain ⟨early, rest, rfl, rfl, ended⟩ := List.map_eq_append_iff.1 shape
  obtain ⟨key, late, rfl, rfl, rfl⟩ := List.map_eq_cons_iff.1 ended
  have keyIs := numbers key (by simp)
  refine ⟨key, by simp, rfl, fun other member => ?_⟩
  have otherIs := numbers other member
  rcases List.mem_append.1 member with inEarly | inRest
  · have below := above _ (List.mem_map_of_mem inEarly)
    refine ⟨Double.le_of_lt keyIs otherIs below, fun back => ?_⟩
    exact absurd back ((Double.lt_iff_not_le keyIs otherIs).1 below)
  · rcases List.mem_cons.1 inRest with rfl | inLate
    · exact ⟨Double.le_refl keyIs, fun _ => Or.inl rfl⟩
    · refine ⟨notBelow _ (List.mem_map_of_mem inLate), fun _ => Or.inr ?_⟩
      exact (List.pairwise_cons.1 (List.pairwise_append.1 sorted).2.1).1 other inLate

end Pick

/-! ### What is preferred -/

section Preferred

variable {α β : Type} {keys : List α} {preferred : α → Bool} {key : α}

/-- The preferred keys, or all of them where none is preferred. -/
def favourites (keys : List α) (preferred : α → Bool) : List α :=
  if (keys.filter preferred).isEmpty then keys else keys.filter preferred

theorem mem_favourites_iff :
    key ∈ favourites keys preferred ↔ Preferring (· ∈ keys) (preferred · = true) key := by
  unfold favourites Preferring
  split
  · rename_i none
    have unloved := List.filter_eq_nil_iff.1 (List.isEmpty_iff.1 none)
    refine (and_iff_left ?_).symm
    rintro ⟨other, member, loved⟩
    exact absurd loved (unloved other member)
  · rename_i some
    rw [List.mem_filter]
    refine and_congr_right fun _ => ⟨fun loved _ => loved, fun loved => loved ?_⟩
    obtain ⟨other, kept⟩ := List.exists_mem_of_ne_nil _ fun none => some (List.isEmpty_iff.2 none)
    exact ⟨other, List.mem_filter.1 kept⟩

theorem sorted_favourites {before : α → α → Prop} (sorted : keys.Pairwise before) :
    (favourites keys preferred).Pairwise before := by
  unfold favourites
  split
  · exact sorted
  · exact sorted.filter _

theorem map_favourites (image : α → β) (preferred : β → Bool) :
    (favourites keys fun key => preferred (image key)).map image =
      if ((keys.map image).filter preferred).isEmpty then keys.map image
      else (keys.map image).filter preferred := by
  have same : (keys.map image).filter preferred =
      (keys.filter fun key => preferred (image key)).map image := List.filter_map
  rw [favourites, same, List.isEmpty_map]
  split <;> rfl

end Preferred

/-! ### The pair to start with -/

/-- The pairs of numbers below a count, the lower one first, in their order. -/
def numberPairs (count : Nat) : List (Nat × Nat) :=
  (List.range count).flatMap fun left =>
    (List.range' (left + 1) (count - (left + 1))).map fun right => (left, right)

/-- The join of a pair of components. -/
def joinOf (graph : JoinGraph) (pair : Nat × Nat) : Joined :=
  graph.join (graph.single pair.1) (graph.single pair.2)

theorem pairs_eq : graph.pairs = (numberPairs graph.components.length).map graph.joinOf := by
  rw [numberPairs, List.map_flatMap]
  simp only [List.map_map]
  rfl

theorem mem_numberPairs_iff {count : Nat} {pair : Nat × Nat} :
    pair ∈ numberPairs count ↔ pair.1 < pair.2 ∧ pair.2 < count := by
  simp only [numberPairs, List.mem_flatMap, List.mem_range, List.mem_map, List.mem_range'_1]
  constructor
  · rintro ⟨left, _, right, _, rfl⟩
    exact ⟨by simp; omega, by simp; omega⟩
  · intro ⟨before, inside⟩
    exact ⟨pair.1, by omega, pair.2, by omega, rfl⟩

/-- Pairs of numbers are listed by their first number, and then by their second. -/
theorem sorted_numberPairs (count : Nat) :
    (numberPairs count).Pairwise fun one other => toLex one < toLex other := by
  rw [numberPairs, List.pairwise_flatMap]
  constructor
  · intro left _
    rw [List.pairwise_map]
    refine List.Pairwise.imp (fun {one other} below => ?_) (List.pairwise_lt_range' 1)
    exact Prod.Lex.toLex_lt_toLex.2 (Or.inr ⟨rfl, below⟩)
  · refine List.pairwise_lt_range.imp fun below one first other second => ?_
    obtain ⟨_, _, rfl⟩ := List.mem_map.1 first
    obtain ⟨_, _, rfl⟩ := List.mem_map.1 second
    exact Prod.Lex.toLex_lt_toLex.2 (Or.inl below)

/-- The start of a greedy order, found in one scan. -/
theorem seed?_eq : graph.seed? = pick
    (fun next best => decide (next.statistics.rows < best.statistics.rows))
    ((favourites (numberPairs graph.components.length) fun pair =>
      !(graph.joinOf pair).tree.isCross).map graph.joinOf) := by
  rw [map_favourites graph.joinOf fun pair => !pair.tree.isCross, ← pairs_eq]
  unfold seed?
  rw [List.partition_eq_filter_filter]
  show (pick _ (graph.pairs.filter fun pair => !pair.tree.isCross)).or _ = _
  by_cases none : graph.pairs.filter (fun pair => !pair.tree.isCross) = []
  · have all : graph.pairs.filter (fun pair => pair.tree.isCross) = graph.pairs := by
      rw [List.filter_eq_self]
      intro pair member
      simpa using List.filter_eq_nil_iff.1 none pair member
    rw [if_pos (List.isEmpty_iff.2 none), none, all]
    rfl
  · obtain ⟨best, picked⟩ := exists_pick none
    rw [if_neg (mt List.isEmpty_iff.1 none), picked, Option.some_or]

/-- Two numbers of components, the lower one first. -/
def IsPair (graph : JoinGraph) (pair : Nat ×ₗ Nat) : Prop :=
  (ofLex pair).1 < (ofLex pair).2 ∧ (ofLex pair).2 < graph.components.length

/-- What the join of a pair of components is estimated to hold. -/
def pairRows (graph : JoinGraph) (pair : Nat ×ₗ Nat) : Float :=
  (graph.joinOf (ofLex pair)).statistics.rows

/-- Two components have a predicate for their join. -/
def PairConnects (graph : JoinGraph) (pair : Nat ×ₗ Nat) : Prop :=
  graph.Connects (graph.single (ofLex pair).1) (graph.single (ofLex pair).2)

theorem not_isCross_iff {left right : Joined} :
    (!(graph.join left right).tree.isCross) = true ↔ graph.Connects left right := by
  rw [Bool.not_eq_true', ← Bool.not_eq_true, isCross_join_iff, Classical.not_not]

theorem mem_favourite_pairs_iff {pair : Nat × Nat} :
    pair ∈ favourites (numberPairs graph.components.length)
        (fun pair => !(graph.joinOf pair).tree.isCross) ↔
      Preferring graph.IsPair graph.PairConnects (toLex pair) := by
  rw [mem_favourites_iff]
  simp only [Preferring, mem_numberPairs_iff]
  refine and_congr Iff.rfl (imp_congr ⟨?_, ?_⟩ not_isCross_iff)
  · rintro ⟨other, member, loved⟩
    exact ⟨toLex other, member, not_isCross_iff.1 loved⟩
  · rintro ⟨other, member, connects⟩
    exact ⟨ofLex other, member, not_isCross_iff.2 connects⟩

/-- **The pair to start with** is the first of the smallest pairs. -/
theorem seed?_firstLeast {pair : Joined} (chosen : graph.seed? = some pair) :
    ∃ key, pair = graph.joinOf (ofLex key) ∧
      IsFirstLeast (Preferring graph.IsPair graph.PairConnects) graph.pairRows key := by
  rw [seed?_eq] at chosen
  obtain ⟨key, member, rfl, best⟩ := pick_firstLeast (sorted_favourites (sorted_numberPairs _))
    graph.joinOf (fun joined => joined.statistics.rows) (fun _ _ => isNaN_rows_join _ _)
    (fun _ _ _ _ => decide_eq_true_iff) chosen
  refine ⟨toLex key, rfl, mem_favourite_pairs_iff.1 member, fun other listed => ?_,
    fun other listed equal => ?_⟩
  · exact (best (ofLex other) (mem_favourite_pairs_iff.2 listed)).1
  · rcases (best (ofLex other) (mem_favourite_pairs_iff.2 listed)).2 equal with rfl | below
    · exact le_refl _
    · exact le_of_lt below

/-! ### The component to add -/

/-- What the join with a component is estimated to hold. -/
def rowsWith (graph : JoinGraph) (current : Joined) (number : Nat) : Float :=
  (graph.join current (graph.single number)).statistics.rows

/-- A component has a predicate for its join with what there is. -/
def ConnectsTo (graph : JoinGraph) (current : Joined) (number : Nat) : Prop :=
  graph.Connects current (graph.single number)

/-- The join that adds a component, with the place of the component. -/
def joinAt (graph : JoinGraph) (current : Joined) (entry : Nat × Nat) : Joined × Nat :=
  (graph.join current (graph.single entry.1), entry.2)

/-- The component to add, found in one scan. -/
theorem extension?_eq {remaining : List Nat} : graph.extension? current remaining = pick
    (fun next best => !decide (best.1.statistics.rows ≤ next.1.statistics.rows))
    ((favourites remaining.zipIdx fun entry => !(graph.joinAt current entry).1.tree.isCross).map
      (graph.joinAt current)) := by
  rw [map_favourites (graph.joinAt current) fun candidate => !candidate.1.tree.isCross]
  unfold extension?
  rw [List.zipIdx_map]
  rfl

/-- A component that is not in a tree yet. -/
def IsOther (graph : JoinGraph) (current : Joined) (number : Nat) : Prop :=
  number < graph.components.length ∧ number ∉ current.tree.leaves

theorem mem_favourite_others_iff {entry : Nat × Nat} :
    entry ∈ favourites (graph.others current).zipIdx
        (fun entry => !(graph.joinAt current entry).1.tree.isCross) ↔
      (graph.others current)[entry.2]? = some entry.1 ∧
        Preferring (graph.IsOther current) (graph.ConnectsTo current) entry.1 := by
  have listed : ∀ {number : Nat}, graph.IsOther current number ↔
      ∃ place, (graph.others current)[place]? = some number :=
    mem_others_iff.symm.trans List.mem_iff_getElem?
  rw [mem_favourites_iff]
  simp only [Preferring, List.mem_zipIdx_iff_getElem?]
  constructor
  · rintro ⟨there, loved⟩
    refine ⟨there, listed.2 ⟨_, there⟩, ?_⟩
    rintro ⟨other, among, connects⟩
    obtain ⟨place, member⟩ := listed.1 among
    exact not_isCross_iff.1 (loved ⟨(other, place), member, not_isCross_iff.2 connects⟩)
  · rintro ⟨there, _, loved⟩
    refine ⟨there, ?_⟩
    rintro ⟨⟨other, place⟩, member, connects⟩
    exact not_isCross_iff.2 (loved ⟨other, listed.2 ⟨place, member⟩, not_isCross_iff.1 connects⟩)

/-- **A component that is added** is the first of those that keep the join smallest. -/
theorem extension?_firstLeast {next : Joined} {place : Nat}
    (chosen : graph.extension? current (graph.others current) = some (next, place)) :
    ∃ number, next = graph.join current (graph.single number) ∧
      IsFirstLeast (Preferring (graph.IsOther current) (graph.ConnectsTo current))
        (graph.rowsWith current) number := by
  have ascending : (graph.others current).zipIdx.Pairwise fun one other => one.1 < other.1 := by
    rw [← List.pairwise_map (f := Prod.fst), List.zipIdx_map_fst]
    exact List.pairwise_lt_range.filter _
  have replaces : ∀ {one other : Float}, one.isNaN = false → other.isNaN = false →
      ((!decide (other ≤ one)) = true ↔ one < other) := fun first second => by
    rw [Double.lt_iff_not_le first second, Bool.not_eq_true', decide_eq_false_iff_not]
  rw [extension?_eq] at chosen
  obtain ⟨⟨number, _⟩, member, same, best⟩ := pick_firstLeast (sorted_favourites ascending)
    (graph.joinAt current) (fun candidate => candidate.1.statistics.rows)
    (fun _ _ => isNaN_rows_join _ _)
    (fun _ _ _ _ => replaces (isNaN_rows_join _ _) (isNaN_rows_join _ _)) chosen
  refine ⟨number, congrArg Prod.fst same, (mem_favourite_others_iff.1 member).2,
    fun other listed => ?_, fun other listed equal => ?_⟩
  all_goals obtain ⟨place, there⟩ := List.mem_iff_getElem?.1 (mem_others_iff.2 listed.1)
  · exact (best (other, place) (mem_favourite_others_iff.2 ⟨there, listed⟩)).1
  · rcases (best (other, place) (mem_favourite_others_iff.2 ⟨there, listed⟩)).2 equal with same | below
    · exact (congrArg Prod.fst same).le
    · exact le_of_lt below

/-! ### All joins of an order -/

/-- What a tree of components was joined to. -/
def made (graph : JoinGraph) : JoinTree → Joined
  | .leaf number => graph.single number
  | .join left right _ _ => graph.join (graph.made left) (graph.made right)

theorem Built.made {built : Joined} (joined : graph.Built built) : graph.made built.tree = built := by
  induction joined with
  | single => rfl
  | @join left right _ _ ihLeft ihRight =>
    show graph.join (graph.made left.tree) (graph.made right.tree) = graph.join left right
    rw [ihLeft, ihRight]

/-- The joins of a tree are chosen: the one of two components to start with, and the others, each of which
adds a component to what there is. -/
structure Chosen (graph : JoinGraph) (tree : JoinTree) : Prop where
  seed : ∀ first second predicates cardinality,
    .join (.leaf first) (.leaf second) predicates cardinality ∈ tree.subtrees →
      IsFirstLeast (Preferring graph.IsPair graph.PairConnects) graph.pairRows (toLex (first, second))
  extension : ∀ earlier number predicates cardinality,
    .join earlier (.leaf number) predicates cardinality ∈ tree.subtrees → 2 ≤ earlier.leaves.length →
      IsFirstLeast (Preferring (graph.IsOther (graph.made earlier)) (graph.ConnectsTo (graph.made earlier)))
        (graph.rowsWith (graph.made earlier)) number

/-- **All joins of a tree that is reached are chosen.** -/
theorem Reached.chosen (reached : graph.Reached current) :
    graph.Chosen current.tree ∧ 2 ≤ current.tree.leaves.length := by
  induction reached with
  | @seed left right before inside chosen =>
    obtain ⟨key, same, least⟩ := seed?_firstLeast chosen
    -- The scan finds a join, and its leaves tell which components were joined.
    have leaves : [left, right] = [(ofLex key).1, (ofLex key).2] :=
      congrArg (fun joined => joined.tree.leaves) same
    obtain ⟨rfl, rfl⟩ : left = (ofLex key).1 ∧ right = (ofLex key).2 := by simpa using leaves
    refine ⟨⟨fun first second _ _ here => ?_, fun earlier number _ _ here more => ?_⟩, le_rfl⟩
    · rcases JoinTree.join_mem_extended.1 here with whole | below
      · cases whole
        exact least
      · exact absurd below JoinTree.join_not_mem_leaf
    · rcases JoinTree.join_mem_extended.1 here with whole | below
      · cases whole
        have several : 2 ≤ 1 := more
        omega
      · exact absurd below JoinTree.join_not_mem_leaf
  | @extension current number _ earlier _ chosen ih =>
    obtain ⟨found, same, least⟩ := extension?_firstLeast chosen
    have leaves : current.tree.leaves ++ [number] = current.tree.leaves ++ [found] :=
      congrArg (fun joined => joined.tree.leaves) same
    obtain rfl : number = found := by simpa using leaves
    obtain ⟨⟨seed, extension⟩, several⟩ := ih
    refine ⟨⟨fun first second _ _ here => ?_, fun before added _ _ here more => ?_⟩, ?_⟩
    · rcases JoinTree.join_mem_extended.1 here with whole | below
      -- What was there before has two leaves already, so this is not the join of two components.
      · have alone := (JoinTree.join.inj whole).1
        rw [← alone] at several
        have few : 2 ≤ 1 := several
        omega
      · exact seed _ _ _ _ below
    · rcases JoinTree.join_mem_extended.1 here with whole | below
      · cases whole
        rw [earlier.linear.built.made]
        exact least
      · exact extension _ _ _ _ below more
    · show 2 ≤ (current.tree.leaves ++ [number]).length
      rw [List.length_append]
      omega

/-- **A greedy order takes what is smallest, and of equals the first.** What is estimated for joins are
numbers. The two components to start with are the first pair of those with the fewest rows, among the
pairs with a predicate or, without any, among all; and each component after them is the first of those
that keep the rows fewest, among the others with a predicate or, without any, among all others. -/
theorem greedyOrder_firstLeast {guard : Guard} (several : 2 ≤ graph.components.length)
    (unfired : guard.check 0 = .ok ()) :
    (∀ left right, (graph.join left right).statistics.rows.isNaN = false) ∧
    ∃ tree, graph.greedyOrder guard = .ok tree ∧ tree.IsLinear ∧
      tree.leaves.Perm (List.range graph.components.length) ∧ graph.Chosen tree := by
  refine ⟨isNaN_rows_join, ?_⟩
  have some : graph.components ≠ [] := fun none => by
    rw [none] at several
    cases several
  rcases greedyOrder_cases unfired some with ⟨one, _⟩ | ⟨last, reached, nothing, done⟩
  · omega
  · exact ⟨last.tree, done, reached.linear.isLinear, reached.leaves_perm nothing, reached.chosen.1⟩

/-- A large relation, a small and a middle one in a chain. -/
def chain : JoinGraph where
  components := [.counted 100000 [(1, 100000)], .counted 10 [(2, 10), (3, 10)], .counted 100 [(4, 100)]]
  predicates := [.equating 1 2, .equating 3 4]

/-- Both pairs of the chain have as many rows, and its order starts with the first of them. -/
theorem greedyOrder_firstLeast_chain :
    2 ≤ chain.components.length ∧ Guard.check {} 0 = .ok () ∧
    chain.pairRows (toLex (1, 2)) ≤ chain.pairRows (toLex (0, 1)) ∧
    ∃ tree, chain.greedyOrder {} = .ok tree ∧ tree.leaves = [0, 1, 2] ∧ chain.Chosen tree := by
  have several : 2 ≤ chain.components.length := by decide
  have unfired : Guard.check {} 0 = .ok () := rfl
  obtain ⟨-, tree, done, -, -, chosen⟩ := greedyOrder_firstLeast several unfired
  have leaves : (chain.greedyOrder {}).toOption.map JoinTree.leaves = some [0, 1, 2] := by
    decide +kernel
  rw [done] at leaves
  exact ⟨several, unfired, by decide +kernel, tree, done, Option.some.inj leaves, chosen⟩

end Cascades.JoinGraph
