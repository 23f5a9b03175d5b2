/-
**The course of a greedy order.**

A greedy order starts with a pair of components and adds the others one at a time, so what it goes
through are linear trees. A tree that is reached determines what remains: the components that are not in
it yet. With a guard that lets it run, the order ends when nothing remains.

* `JoinTree.subtrees`, `JoinTree.IsLinear`: the trees in a tree, and those that grow on the left;
* `Connects`: two trees have a predicate for their join; `isCross_join_iff`: where a join has none;
* `Reached`: the trees that a greedy order goes through; `others`: what remains;
* `Reached.linear`, `Reached.nodup_leaves`: what these trees are like;
* `greedyOrder_cases`: the order ends in such a tree, with nothing left;
* `exists_greedyOrder`, `greedyOrder_join`: it is a linear tree of all components, each there once.
-/

import Cascades.Proofs.JoinOrder

namespace Cascades

/-! ### Trees in trees -/

namespace JoinTree

/-- A tree and all trees below it. -/
def subtrees : JoinTree → List JoinTree
  | leaf component => [leaf component]
  | join left right predicates cardinality =>
    join left right predicates cardinality :: (left.subtrees ++ right.subtrees)

/-- Whether components are added one at a time, on the right. -/
def IsLinear : JoinTree → Prop
  | leaf _ => True
  | join left right _ _ => left.IsLinear ∧ ∃ component, right = leaf component

theorem mem_subtrees_self (tree : JoinTree) : tree ∈ tree.subtrees := by
  cases tree <;> simp [subtrees]

theorem mem_subtrees_join {left right tree : JoinTree} {predicates : List Nat} {cardinality : Float} :
    tree ∈ (join left right predicates cardinality).subtrees ↔
      tree = join left right predicates cardinality ∨ tree ∈ left.subtrees ∨ tree ∈ right.subtrees := by
  simp [subtrees]

theorem join_not_mem_leaf {left right : JoinTree} {predicates : List Nat} {cardinality : Float}
    {component : Nat} : join left right predicates cardinality ∉ (leaf component).subtrees :=
  fun inside => nomatch List.mem_singleton.1 inside

/-- The joins in a tree to which a component was added. -/
theorem join_mem_extended {earlier left right : JoinTree} {component : Nat} {applied predicates : List Nat}
    {rows cardinality : Float} :
    join left right predicates cardinality ∈ (join earlier (leaf component) applied rows).subtrees ↔
      join left right predicates cardinality = join earlier (leaf component) applied rows ∨
        join left right predicates cardinality ∈ earlier.subtrees := by
  rw [mem_subtrees_join, or_iff_left join_not_mem_leaf]

/-- The components of a tree in a tree are among those of the whole. -/
theorem leaves_subset {tree whole : JoinTree} (inside : tree ∈ whole.subtrees) :
    tree.leaves ⊆ whole.leaves := by
  induction whole with
  | leaf component =>
    rw [List.mem_singleton.1 inside]
    exact List.Subset.refl _
  | join left right predicates cardinality ihLeft ihRight =>
    rcases mem_subtrees_join.1 inside with rfl | inLeft | inRight
    · exact List.Subset.refl _
    · exact List.Subset.trans (ihLeft inLeft) (List.subset_append_left _ _)
    · exact List.Subset.trans (ihRight inRight) (List.subset_append_right _ _)

end JoinTree

namespace JoinGraph

variable {graph : JoinGraph} {current left right : Joined} {number : Nat}

theorem Linear.isLinear {joined : Joined} (linear : graph.Linear joined) : joined.tree.IsLinear := by
  induction linear with
  | single => exact trivial
  | join _ _ ih => exact ⟨ih, _, rfl⟩

/-! ### Joins with predicates -/

/-- Some predicate uses columns of two trees that neither of them has alone. -/
def Connects (graph : JoinGraph) (left right : Joined) : Prop :=
  ∃ predicate ∈ graph.predicates, Covers (left.columns.union right.columns) predicate ∧
    ¬ Covers left.columns predicate ∧ ¬ Covers right.columns predicate

theorem appliedAt_eq_nil_iff : graph.appliedAt left right = [] ↔ ¬ graph.Connects left right := by
  rw [List.eq_nil_iff_forall_not_mem]
  constructor
  · rintro none ⟨predicate, member, spans⟩
    obtain ⟨number, there⟩ := List.getElem?_of_mem member
    exact none number (mem_appliedAt_iff.2 ⟨predicate, there, spans⟩)
  · intro apart number applied
    obtain ⟨predicate, there, spans⟩ := mem_appliedAt_iff.1 applied
    exact apart ⟨predicate, List.mem_of_getElem? there, spans⟩

/-- **A join has no predicate** where none connects its inputs. -/
theorem isCross_join_iff : (graph.join left right).tree.isCross = true ↔ ¬ graph.Connects left right := by
  rw [← appliedAt_eq_nil_iff, ← List.isEmpty_iff]
  rfl

theorem Connects.symm (connects : graph.Connects left right) : graph.Connects right left := by
  obtain ⟨predicate, member, covers, notLeft, notRight⟩ := connects
  refine ⟨predicate, member, fun column used => ?_, notRight, notLeft⟩
  exact SortedSet.mem_union.2 (SortedSet.mem_union.1 (covers column used)).symm

/-! ### What is reached -/

/-- The components that are not in a tree yet, in ascending order. -/
def others (graph : JoinGraph) (current : Joined) : List Nat :=
  (List.range graph.components.length).filter fun number => !current.tree.leaves.contains number

theorem mem_others_iff :
    number ∈ graph.others current ↔ number < graph.components.length ∧ number ∉ current.tree.leaves := by
  simp [others]

/-- The components that remain after one was added. -/
theorem others_join :
    graph.others (graph.join current (graph.single number)) =
      (graph.others current).filter fun other => other != number := by
  have leaves : (graph.join current (graph.single number)).tree.leaves =
      current.tree.leaves ++ [number] := rfl
  rw [others, others, List.filter_filter, leaves]
  refine List.filter_congr fun other _ => ?_
  by_cases same : other = number <;> simp [same]

theorem nodup_others : (graph.others current).Nodup := List.nodup_range.filter _

/-- Taking the component away that was added leaves those that remain. -/
theorem eraseIdx_others {place : Nat} (there : (graph.others current)[place]? = some number) :
    (graph.others current).eraseIdx place = graph.others (graph.join current (graph.single number)) := by
  obtain ⟨bound, rfl⟩ := List.getElem?_eq_some_iff.1 there
  rw [others_join, ← nodup_others.erase_getElem, nodup_others.erase_eq_filter]

/-- The trees that a greedy order goes through. -/
inductive Reached (graph : JoinGraph) : Joined → Prop where
  | seed {left right : Nat} (before : left < right) (inside : right < graph.components.length)
    (chosen : graph.seed? = some (graph.join (graph.single left) (graph.single right))) :
    Reached graph (graph.join (graph.single left) (graph.single right))
  | extension {current : Joined} {number place : Nat} (earlier : Reached graph current)
    (remains : number ∈ graph.others current)
    (chosen : graph.extension? current (graph.others current) =
      some (graph.join current (graph.single number), place)) :
    Reached graph (graph.join current (graph.single number))

theorem Reached.linear (reached : graph.Reached current) : graph.Linear current := by
  induction reached with
  | seed before inside _ => exact .join (.single (before.trans inside)) inside
  | extension _ remains _ ih => exact .join ih (mem_others_iff.1 remains).1

/-- No component is there twice. -/
theorem Reached.nodup_leaves (reached : graph.Reached current) : current.tree.leaves.Nodup := by
  induction reached with
  | @seed left right before _ _ =>
    show [left, right].Nodup
    simp [before.ne]
  | @extension current number _ _ remains _ ih =>
    show (current.tree.leaves ++ [number]).Nodup
    exact List.nodup_append.2 ⟨ih, List.nodup_singleton _, fun leaf among other same => by
      rw [List.mem_singleton.1 same]
      rintro rfl
      exact (mem_others_iff.1 remains).2 among⟩

theorem Reached.leaves_perm (reached : graph.Reached current) (done : graph.others current = []) :
    current.tree.leaves.Perm (List.range graph.components.length) := by
  have perm := perm_range reached.nodup_leaves reached.linear.built.leaves_lt
  have none : (List.range graph.components.length).filter
      (fun number => !current.tree.leaves.contains number) = [] := done
  rwa [none, List.append_nil] at perm

theorem Reached.extend {guard : Guard} (unfired : guard.check 0 = .ok ()) {steps : Nat}
    (reached : graph.Reached current) (enough : (graph.others current).length ≤ steps) :
    ∃ last, graph.Reached last ∧ graph.others last = [] ∧
      graph.extend guard steps current (graph.others current) = .ok last := by
  induction steps generalizing current with
  | zero => exact ⟨current, reached, List.length_eq_zero_iff.1 (Nat.le_zero.1 enough), rfl⟩
  | succ steps ih =>
    unfold JoinGraph.extend
    by_cases empty : (graph.others current).isEmpty = true
    · exact ⟨current, reached, List.isEmpty_iff.1 empty, by rw [if_pos empty]; rfl⟩
    · obtain ⟨⟨next, place⟩, chosen⟩ :=
        exists_extension? fun none => empty (List.isEmpty_iff.2 none)
      obtain ⟨number, there, rfl⟩ := extension?_cases chosen
      have rest := eraseIdx_others there
      have bound := (List.getElem?_eq_some_iff.1 there).1
      have fewer : (graph.others (graph.join current (graph.single number))).length ≤ steps := by
        rw [← rest, List.length_eraseIdx_of_lt bound]
        omega
      obtain ⟨last, after, done, ended⟩ :=
        ih (.extension reached (List.mem_of_getElem? there) chosen) fewer
      refine ⟨last, after, done, ?_⟩
      rw [if_neg empty, unfired, chosen]
      show graph.extend guard steps _ ((graph.others current).eraseIdx place) = .ok last
      rw [rest]
      exact ended

/-- **A greedy order ends** if its guard lets it run: one component is a tree by itself, and of several
a tree is reached with nothing left. -/
theorem greedyOrder_cases {guard : Guard} (unfired : guard.check 0 = .ok ())
    (some : graph.components ≠ []) :
    (graph.components.length = 1 ∧ graph.greedyOrder guard = .ok (graph.single 0).tree) ∨
      ∃ last, graph.Reached last ∧ graph.others last = [] ∧
        graph.greedyOrder guard = .ok last.tree := by
  unfold greedyOrder
  split
  · rename_i none
    exact absurd none some
  · rename_i one
    exact Or.inl ⟨by rw [one]; rfl, rfl⟩
  · rename_i notNone notOne
    have several : 2 ≤ graph.components.length := by
      match shape : graph.components with
      | [] => exact absurd shape notNone
      | [head] => exact absurd shape (notOne head)
      | _ :: _ :: _ => simp
    obtain ⟨pair, member, chosen⟩ := exists_seed? several
    obtain ⟨left, right, before, inside, rfl⟩ := mem_pairs_iff.1 member
    obtain ⟨last, reached, done, ended⟩ :=
      (Reached.seed before inside chosen).extend unfired le_rfl
    refine Or.inr ⟨last, reached, done, ?_⟩
    rw [unfired, chosen]
    show (graph.extend guard (graph.others _).length _ (graph.others _) >>= fun built =>
      pure built.tree) = _
    rw [ended]
    rfl

/-- **A greedy order** has every component once. -/
theorem exists_greedyOrder {guard : Guard} (some : graph.components ≠ [])
    (unfired : guard.check 0 = .ok ()) :
    ∃ joined, graph.Linear joined ∧ joined.tree.leaves.Perm (List.range graph.components.length) ∧
      graph.greedyOrder guard = .ok joined.tree := by
  rcases greedyOrder_cases unfired some with ⟨one, done⟩ | ⟨last, reached, nothing, done⟩
  · refine ⟨graph.single 0, .single (by omega), ?_, done⟩
    rw [one]
    exact List.Perm.refl [0]
  · exact ⟨last, reached.linear, reached.leaves_perm nothing, done⟩

/-- Two or more components are ordered only if the guard lets this run. -/
theorem unfired_of_greedyOrder {guard : Guard} {tree : JoinTree} (several : 2 ≤ graph.components.length)
    (done : graph.greedyOrder guard = .ok tree) : guard.check 0 = .ok () := by
  unfold greedyOrder at done
  split at done
  · rename_i none
    rw [none] at several
    cases several
  · rename_i one
    rw [one] at several
    simp at several
  · obtain ⟨_, unfired, _⟩ := bind_eq_ok_iff.1 done
    exact unfired

/-- **A greedy order** of two or more components is a join of trees that have all of them. -/
theorem greedyOrder_join {guard : Guard} {tree : JoinTree} (several : 2 ≤ graph.components.length)
    (done : graph.greedyOrder guard = .ok tree) :
    ∃ left right, graph.Built left ∧ graph.Built right ∧ graph.Linear (graph.join left right) ∧
      (graph.join left right).tree = tree ∧ tree.leaves.Perm (List.range graph.components.length) := by
  have some : graph.components ≠ [] := List.ne_nil_of_length_pos (by omega)
  obtain ⟨joined, linear, perm, ordered⟩ :=
    exists_greedyOrder some (unfired_of_greedyOrder several done)
  obtain rfl : joined.tree = tree := Except.ok.inj (ordered.symm.trans done)
  cases linear with
  | @single number _ =>
    have one : [number].length = (List.range graph.components.length).length := perm.length_eq
    rw [List.length_range, List.length_singleton] at one
    omega
  | join first inside => exact ⟨_, _, first.built, .single inside, .join first inside, rfl, perm⟩

end JoinGraph

/-! ### Parts of small graphs -/

/-- A relation of some rows whose columns have some numbers of distinct values. -/
def JoinComponent.counted (rows : Float) (columns : List (ColumnId × Float)) : JoinComponent where
  group := none
  statistics :=
    { rows
      size := rows * 10
      columns := .ofList (columns.map fun (column, distinct) => (column, { distinct })) }
  columns := .ofList (columns.map (·.1))

/-- An equality of two columns. -/
def JoinPredicate.equating (first second : ColumnId) : JoinPredicate where
  group := none
  columns := .ofList [first, second]
  equality := some (first, second)

end Cascades
