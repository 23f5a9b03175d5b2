/-
**Answers have all tables and all edges.**

The leaves of an answer are the tables of the request. Only tables without columns that have one name
are taken for one another: each of them shows as the last one. Where every edge connects two tables,
the conditions of an answer are the edges of the request, each at a join that has the table of the
first column below its left input and the table of the second one below its right input.

* `JoinRequest.shown`: the name under which a table shows;
* `JoinRequest.answer_shows`: what the tree of an answer shows;
* `JoinRequest.answer_tables`, `JoinRequest.answer_conditions`: the tables and the conditions.
-/

import Cascades.Proofs.Gathering.Expansion
import Cascades.Proofs.JoinRequest.Tree
import Cascades.Proofs.Search.Planning
import Mathlib.Data.List.Find

namespace Cascades

open Memo Interpretation JoinQuery

variable {request : JoinRequest} {config : Config} {answer : JoinAnswer}

/-! ### From requests to answers -/

/-- An answer comes from a plan that is found in the query of its request. -/
theorem JoinRequest.answer_cases (done : request.answer config = .ok answer) :
    ∃ query model plan final, JoinQuery.ofRequest request = .ok query ∧
      Search.optimize model query.root
        (.ofMemo query.memo query.catalog Rule.standard config) = .ok (.ok (some plan), final) ∧
      query.treeOf final.context.memo plan = .ok answer.tree := by
  unfold JoinRequest.answer at done
  obtain ⟨query, loading, done⟩ := bind_eq_ok_iff.1 done
  dsimp only at done
  split at done
  · cases done
  · cases done
  · cases done
  · rename_i plan final optimized
    obtain ⟨tree, shown, done⟩ := bind_eq_ok_iff.1 done
    cases pure_eq_ok_iff.1 done
    exact ⟨query, _, plan, final, loading, optimized, shown⟩

/-- A plan that is found is a tree of the root in a memo that the search reaches and then closes. -/
theorem Search.optimize_tree {V : Type} {I : Interpretation V} {search final : Search}
    {model : CostModel} {root : GroupId} {plan : Plan} (coherent : search.context.Coherent I)
    (standard : ∀ rule ∈ search.rules, rule ∈ Rule.standard)
    (relation : search.context.memo.IsRelation I root)
    (done : optimize model root search = .ok (.ok (some plan), final)) :
    ∃ reached, search.Reached reached ∧ Refines I search reached ∧
      final.context.memo = reached.context.memo.close ∧
      ∃ setting : Plan.Setting, setting.memo = reached.context.memo ∧ Plan.Tree setting root plan := by
  rcases optimize_cases done with ⟨_, same⟩ |
    ⟨explored, implemented, found, explores, implements, plans, same, rfl⟩
  · cases same
  · cases same
    have reached : search.Reached implemented := (Reached.start.phase explores).phase implements
    have refines := reached.refines coherent
      fun rule member => Rule.standard_faithful rule (standard rule member)
    have valid := coherent.sound.toValid
    have relational : search.context.memo.Relational root :=
      relational_iff.2 ⟨relation.1, (valid.isScalarGroup_eq relation.1).trans relation.2⟩
    have right : Ends _ (implemented.cheapest? model root) _ :=
      Plan.cheapest?_right refines.coherent.sound.toLinked (relational.mono refines.grows)
    rw [plans] at right
    exact ⟨implemented, reached, refines, rfl, _, rfl, right.tree plan rfl⟩

/-- **The tree of an answer** shows the tables of its request and the equalities of its edges. -/
theorem JoinRequest.answer_shows {V : Type} (I : Interpretation V) (strict : Prop)
    (apart : strict → ∀ edge ∈ request.edges, edge.leftTable ≠ edge.rightTable)
    (done : request.answer config = .ok answer) :
    ∃ (query : JoinQuery) (memo : Memo) (placed : List PlacedTable) (conjuncts : List GroupId),
      memo.Sound I ∧ query.Places memo placed ∧ placed.map PlacedTable.table = request.tables ∧
      List.Forall₂ (Equates memo placed) request.edges conjuncts ∧
      query.Shows strict memo ((placed.map PlacedTable.group : List GroupId) + conjuncts)
        answer.tree := by
  obtain ⟨query, model, plan, final, loading, optimized, shown⟩ := JoinRequest.answer_cases done
  obtain ⟨placed, conjuncts, holds⟩ := ofRequest_holds (I := I) apart loading
  have first := holds.loaded.unsearched.sound
  have coherent := Context.coherent_of_sound first query.catalog { maxDepth := config.maxDepth }
  obtain ⟨reached, reaches, refines, closed, setting, same, planned⟩ :=
    Search.optimize_tree (I := I) coherent (fun _ => id) holds.isRelation optimized
  rw [closed] at shown
  -- All that is known of the loaded memo holds of the closed one, which grew out of it.
  have sound := close_sound refines.coherent.sound
  have gathered := close_gathered
    (reaches.gathered coherent holds.loaded.unsearched.gathered fun _ => id)
    refines.coherent.sound.toValid
  have closes := (close_keeps refines.coherent.sound.toValid).2
  have grows : query.memo.Grows reached.context.memo.close := refines.grows.trans closes
  have places := holds.loaded.places.mono grows
  have equates := holds.equates.imp fun _ _ equates => equates.mono grows
  have contents : reached.context.memo.close.contents query.root = _ :=
    (grows.contents_eq first.toValid sound.toValid holds.isRelation.1).trans holds.contents_eq
  have stocked : Stocked reached.context.memo.close placed request.edges
      (reached.context.memo.close.contents query.root) := by
    intro atom inside
    rw [contents] at inside
    rcases Multiset.mem_add.1 inside with table | equality
    · exact Or.inl (List.mem_map.1 (Multiset.mem_coe.1 table))
    · exact Or.inr (exists_edge equates (Multiset.mem_coe.1 equality))
  refine ⟨query, _, placed, conjuncts, sound, places, holds.tables_eq, equates, contents ▸ ?_⟩
  exact shows_treeOf (same ▸ refines.coherent.sound.toLinked) (same ▸ closes) places sound gathered
    planned stocked shown

/-! ### Tables -/

/-- Two tables without columns that have one name: nothing else is known of a table in a memo. -/
def TableRequest.isTwin (table other : TableRequest) : Bool :=
  table.columns.isEmpty && other.columns.isEmpty && table.schema == other.schema &&
    table.name == other.name

theorem TableRequest.isTwin_comm {table other : TableRequest} :
    table.isTwin other = other.isTwin table := by
  unfold isTwin
  rw [Bool.and_comm table.columns.isEmpty, BEq.comm (a := table.schema), BEq.comm (a := table.name)]

/-- The name under which a table shows: that of the last table that is the same or a twin. -/
def JoinRequest.shown (request : JoinRequest) (table : TableRequest) : String :=
  ((request.tables.reverse.find? fun other =>
    table.id == other.id || table.isTwin other).map TableRequest.id).getD table.id

namespace JoinQuery

variable {V : Type} {I : Interpretation V} {query : JoinQuery} {memo : Memo}
  {placed : List PlacedTable} {table other : PlacedTable}

/-- Tables share a group if they are the same or twins. -/
theorem Places.group_beq_eq (places : query.Places memo placed) (linked : memo.Linked)
    (member : table ∈ placed) (memberToo : other ∈ placed) :
    (table.group == other.group) =
      (table.table.id == other.table.id || table.table.isTwin other.table) := by
  have empty : ∀ {table : PlacedTable}, table ∈ placed →
      (table.columns = [] ↔ table.table.columns = []) := fun member => by
    rw [← List.length_eq_zero_iff, places.sized _ member, List.length_eq_zero_iff]
  have same : table = other ↔ table.table.id = other.table.id :=
    ⟨fun same => same ▸ rfl, places.table_eq member memberToo⟩
  rw [Bool.eq_iff_iff, beq_iff_eq, places.group_eq_iff linked member memberToo, same, empty member,
    empty memberToo]
  simp [TableRequest.isTwin, and_assoc]

/-- The group of a table has the name under which the table shows. -/
theorem Places.lookup_shown {request : JoinRequest} (places : query.Places memo placed)
    (linked : memo.Linked) (tables : placed.map PlacedTable.table = request.tables)
    (member : table ∈ placed) :
    query.tableNames.lookup table.group = some (request.shown table.table) := by
  obtain ⟨name, found⟩ := places.exists_name member
  have alike : placed.reverse.find? (fun other => table.group == other.group) =
      placed.reverse.find? fun other =>
        table.table.id == other.table.id || table.table.isTwin other.table :=
    List.find?_congr fun other memberToo =>
      places.group_beq_eq linked member (List.mem_reverse.1 memberToo)
  rw [found]
  rw [places.tableNames_eq_map, lookup_map, alike] at found
  unfold JoinRequest.shown
  rw [← tables, ← List.map_reverse, List.find?_map, Option.map_map]
  exact congrArg (fun shown => some (Option.getD shown table.table.id)) found.symm

/-- Twins show as one table. -/
theorem Places.shown_eq {request : JoinRequest} (places : query.Places memo placed)
    (linked : memo.Linked) (tables : placed.map PlacedTable.table = request.tables)
    (member : table ∈ placed) (memberToo : other ∈ placed)
    (twins : table.table.isTwin other.table = true) :
    request.shown table.table = request.shown other.table := by
  have same : table.group = other.group := by
    rw [← beq_iff_eq, places.group_beq_eq linked member memberToo, twins, Bool.or_true]
  refine Option.some.inj ?_
  rw [← places.lookup_shown linked tables member, same, places.lookup_shown linked tables memberToo]

/-- A table without a twin shows as itself. -/
theorem Places.shown_eq_id {request : JoinRequest} (places : query.Places memo placed)
    (linked : memo.Linked) (tables : placed.map PlacedTable.table = request.tables)
    (alone : request.tables.Pairwise fun table other => table.isTwin other = false)
    (member : table ∈ placed) : request.shown table.table = table.table.id := by
  obtain ⟨other, memberToo, same, shows⟩ :=
    places.exists_named (places.lookup_shown linked tables member)
  rw [← shows]
  have alike := places.group_beq_eq linked member memberToo
  rw [same, beq_self_eq_true, eq_comm, Bool.or_eq_true, beq_iff_eq] at alike
  by_contra different
  have : Std.Symm fun table other : TableRequest => table.isTwin other = false :=
    ⟨fun _ _ lone => TableRequest.isTwin_comm.trans lone⟩
  have here : table.table ∈ request.tables := tables ▸ List.mem_map_of_mem member
  have there : other.table ∈ request.tables := tables ▸ List.mem_map_of_mem memberToo
  have lone := alone.forall here there fun same => different (congrArg _ same.symm)
  rw [alike.resolve_left fun same => different same.symm] at lone
  cases lone

end JoinQuery

/-- **The tables of an answer.** The leaves are the tables of the request, each once, where a table
shows as the last one among its twins. So they have the names of the request if and only if no two
of its tables are twins. -/
theorem JoinRequest.answer_tables (done : request.answer config = .ok answer) :
    (request.tables.map TableRequest.id).Nodup ∧
      answer.tree.tables.Perm (request.tables.map request.shown) ∧
      (answer.tree.tables.Perm (request.tables.map TableRequest.id) ↔
        request.tables.Pairwise fun table other => table.isTwin other = false) := by
  obtain ⟨query, memo, placed, conjuncts, sound, places, tables, equates, shows⟩ :=
    answer_shows (.ofTables fun _ _ => 0) False False.elim done
  have linked := sound.toLinked
  have once : (request.tables.map TableRequest.id).Nodup := by
    rw [← tables, List.map_map]
    exact places.once
  have leaves : answer.tree.tables.Perm (request.tables.map request.shown) := by
    have names : ((placed.map PlacedTable.group).filterMap fun id => query.tableNames.lookup id) =
        request.tables.map request.shown := by
      rw [List.filterMap_map, ← tables, List.map_map, ← List.filterMap_eq_map]
      exact List.filterMap_congr fun table member => places.lookup_shown linked tables member
    have none : (conjuncts : Multiset GroupId).filterMap
        (fun id => query.tableNames.lookup id) = 0 :=
      filterMap_eq_zero fun conjunct member => places.lookup_predicate sound
        (isConjunct_of_equates equates sound conjunct member).isPredicate
    refine Multiset.coe_eq_coe.1 ?_
    rw [shows.tables_eq, Multiset.filterMap_add, none, add_zero, Multiset.filterMap_coe, names]
  refine ⟨once, leaves, fun same => ?_, fun alone => ?_⟩
  · have distinct : (request.tables.map request.shown).Nodup :=
      (leaves.symm.trans same).nodup_iff.2 once
    refine (List.pairwise_map.1 distinct).imp_of_mem fun {first second} here there differ => ?_
    rw [← tables] at here there
    obtain ⟨table, member, rfl⟩ := List.mem_map.1 here
    obtain ⟨other, memberToo, rfl⟩ := List.mem_map.1 there
    exact Bool.eq_false_iff.2 fun twins =>
      differ (places.shown_eq linked tables member memberToo twins)
  · have names : request.tables.map request.shown = request.tables.map TableRequest.id := by
      refine List.map_congr_left fun table member => ?_
      rw [← tables] at member
      obtain ⟨placed, among, rfl⟩ := List.mem_map.1 member
      exact places.shown_eq_id linked tables alone among
    rwa [← names]

/-- Two nations that cannot be told apart. -/
def twoNations : JoinRequest where
  tables := [
    { id := "t0", schema := "default", name := "nation", rows := 25, size := none, columns := [] },
    { id := "t1", schema := "default", name := "nation", rows := 25, size := none, columns := [] }]
  edges := []

/-- Orders between two nations that cannot be told apart. -/
def ordersOfNations : JoinRequest where
  tables := [
    { id := "t0", schema := "default", name := "nation", rows := 25, size := none, columns := [] },
    { id := "orders", schema := "shop", name := "orders", rows := 100, size := none
      columns := [{ name := "item", distinct := 10, nullFraction := 0, averageSize := 8 }] },
    { id := "t1", schema := "default", name := "nation", rows := 25, size := none, columns := [] }]
  edges := []

/-- Joins in the order in which a request is expanded. -/
def withoutReordering : Config where
  disabledRules := ["JoinAssociativity", "JoinCommutativity"]

theorem JoinRequest.answer_tables_ordersOfNations :
    ∃ answer, ordersOfNations.answer withoutReordering = .ok answer ∧
      answer.tree.tables = ["t1", "t1", "orders"] ∧
      (ordersOfNations.tables.map TableRequest.id).Nodup ∧
      answer.tree.tables.Perm (ordersOfNations.tables.map ordersOfNations.shown) ∧
      (answer.tree.tables.Perm (ordersOfNations.tables.map TableRequest.id) ↔
        ordersOfNations.tables.Pairwise fun table other => table.isTwin other = false) := by
  have results : (ordersOfNations.answer withoutReordering).toOption.map
      (fun answer => answer.tree.tables) = some ["t1", "t1", "orders"] := by
    decide +kernel
  obtain ⟨answer, given, shown⟩ := Option.map_eq_some_iff.1 results
  have done := toOption_eq_some_iff.1 given
  exact ⟨answer, done, shown, JoinRequest.answer_tables done⟩

/-- **Twins are taken for one another**: the first of two nations is missing from the answer, and the
second one is there twice. -/
theorem JoinRequest.answer_misses_table :
    ∃ answer, twoNations.answer {} = .ok answer ∧ answer.tree.tables = ["t1", "t1"] ∧
      ¬ answer.tree.tables.Perm (twoNations.tables.map TableRequest.id) := by
  have results : (twoNations.answer {}).toOption.map (fun answer => answer.tree.tables) =
      some ["t1", "t1"] := by
    decide +kernel
  obtain ⟨answer, given, shown⟩ := Option.map_eq_some_iff.1 results
  refine ⟨answer, toOption_eq_some_iff.1 given, shown, ?_⟩
  rw [shown]
  decide

/-! ### Conditions -/

theorem JoinQuery.Places.filterMap_equates {query : JoinQuery} {memo : Memo}
    {placed : List PlacedTable} (places : query.Places memo placed) (valid : memo.Valid)
    {edges : List EdgeRequest} {conjuncts : List GroupId}
    (equates : List.Forall₂ (Equates memo placed) edges conjuncts) :
    conjuncts.filterMap (query.ends? memo) = edges.map EdgeRequest.ends := by
  induction equates with
  | nil => rfl
  | cons one _ ih => rw [List.filterMap_cons_some (places.ends?_eq valid one), ih, List.map_cons]

/-- **The conditions of an answer.** Where every edge connects two tables, the conditions equate the
columns of the edges, each as often as the request does, and each condition is at a join with the
table of its first column below the left input and that of its second column below the right one. -/
theorem JoinRequest.answer_conditions
    (apart : ∀ edge ∈ request.edges, edge.leftTable ≠ edge.rightTable)
    (done : request.answer config = .ok answer) :
    (answer.tree.conditions.map JoinCondition.pair).Perm
        (request.edges.map EdgeRequest.pair) ∧
      ∃ applied, applied.Perm (request.edges.map EdgeRequest.ends) ∧
        answer.tree.Applies applied := by
  obtain ⟨query, memo, placed, conjuncts, sound, places, _, equates, shows⟩ :=
    answer_shows (.ofTables fun _ _ => 0) True (fun _ => apart) done
  obtain ⟨applied, applies, all⟩ := shows.applies trivial
  have tables : (placed.map PlacedTable.group : Multiset GroupId).filterMap (query.ends? memo) = 0 :=
    filterMap_eq_zero fun group member => by
      obtain ⟨table, among, rfl⟩ := List.mem_map.1 (Multiset.mem_coe.1 member)
      exact ends?_relation sound (places.isRelation sound among)
  have perm : applied.Perm (request.edges.map EdgeRequest.ends) := by
    refine Multiset.coe_eq_coe.1 (all.trans ?_)
    rw [Multiset.filterMap_add, tables, zero_add, Multiset.filterMap_coe,
      places.filterMap_equates sound.toValid equates]
  refine ⟨?_, applied, perm, applies⟩
  have pairs := perm.map fun ends => s(qualified ends.1, qualified ends.2)
  rw [List.map_map] at pairs
  rw [applies.map_pair]
  exact pairs

/-- Items and buyers of orders; the second edge names the later table first. -/
def soldItems : JoinRequest where
  tables := [
    { id := "orders", schema := "shop", name := "orders", rows := 100, size := none
      columns := [{ name := "item", distinct := 10, nullFraction := 0, averageSize := 8 },
        { name := "buyer", distinct := 10, nullFraction := 0, averageSize := 8 }] },
    { id := "items", schema := "shop", name := "items", rows := 10, size := none
      columns := [{ name := "id", distinct := 10, nullFraction := 0, averageSize := 8 }] },
    { id := "buyers", schema := "shop", name := "buyers", rows := 10, size := none
      columns := [{ name := "id", distinct := 10, nullFraction := 0, averageSize := 8 }] }]
  edges := [
    { leftTable := "orders", rightTable := "items", joinType := "INNER"
      leftColumn := "item", rightColumn := "id" },
    { leftTable := "buyers", rightTable := "orders", joinType := "inner"
      leftColumn := "id", rightColumn := "buyer" }]

theorem JoinRequest.answer_conditions_soldItems :
    ∃ answer, soldItems.answer withoutReordering = .ok answer ∧
      answer.tree.conditions =
        [⟨"orders.buyer", "buyers.id"⟩, ⟨"orders.item", "items.id"⟩] ∧
      (∀ edge ∈ soldItems.edges, edge.leftTable ≠ edge.rightTable) ∧
      (answer.tree.conditions.map JoinCondition.pair).Perm
          (soldItems.edges.map EdgeRequest.pair) ∧
        ∃ applied, applied.Perm (soldItems.edges.map EdgeRequest.ends) ∧
          answer.tree.Applies applied := by
  have results : (soldItems.answer withoutReordering).toOption.map
      (fun answer => answer.tree.conditions) =
        some [⟨"orders.buyer", "buyers.id"⟩, ⟨"orders.item", "items.id"⟩] := by
    decide +kernel
  obtain ⟨answer, given, shown⟩ := Option.map_eq_some_iff.1 results
  have done := toOption_eq_some_iff.1 given
  have apart : ∀ edge ∈ soldItems.edges, edge.leftTable ≠ edge.rightTable := by decide
  exact ⟨answer, done, shown, apart, JoinRequest.answer_conditions apart done⟩

end Cascades
