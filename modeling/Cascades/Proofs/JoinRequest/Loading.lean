/-
**Loaded requests.**

An edge is loaded as an equality of two columns, and a request as one join of its tables under the
equalities of its edges. Where every edge connects two tables, each equality lies across the tables.

* `Equality`, `Equates`: the equality of an edge;
* `Loaded.addEdges`, `Loaded.addPredicate`: loading the edges of a request;
* `ofRequest_holds`: what the root of a loaded request holds.
-/

import Cascades.Proofs.JoinRequest.Tables

namespace Cascades

open Memo Interpretation

variable {V : Type} {I : Interpretation V} {strict : Prop}

namespace JoinQuery

variable {query next : JoinQuery} {placed : List PlacedTable}

/-! ### Edges -/

/-- **An expression that is inserted** into a loaded query. -/
theorem Loaded.insert {operator : Operator} {children : List GroupId} {group : GroupId}
    (loaded : query.Loaded I strict placed) (admits : query.memo.Admits I operator children)
    (plain : operator.IsPlain)
    (spans : strict → operator.isScalar = false → operator.gathers = true →
      query.memo.Spans I (children.map query.memo.contents))
    (done : query.insert operator children = .ok (group, next)) :
    next.Loaded I strict placed ∧ query.memo.Adds I strict operator children group next.memo := by
  obtain ⟨⟨expr, memo⟩, inserted, done⟩ := bind_eq_ok_iff.1 done
  obtain ⟨expression, found, done⟩ := bind_eq_ok_iff.1 done
  cases pure_eq_ok_iff.1 done
  have adds := loaded.unsearched.insert admits plain spans
    (lift_requestError_eq_ok_iff.1 inserted) (lift_requestError_eq_ok_iff.1 found)
  exact ⟨⟨adds.unsearched, (loaded.places.mono adds.grows).update memo query.root⟩, adds⟩

/-- A scalar that is inserted into a loaded query. -/
theorem Loaded.insertScalar {operator : ScalarOp} {children : List GroupId} {group : GroupId}
    (loaded : query.Loaded I strict placed)
    (done : query.insert (.scalar operator) children = .ok (group, next))
    (conjoins : operator = .and → ∀ child ∈ children, query.memo.IsPredicate I child)
    (constants : ∀ value, operator = .constant value → children = []) :
    next.Loaded I strict placed ∧
      query.memo.Adds I strict (.scalar operator) children group next.memo := by
  refine loaded.insert ⟨nofun, fun same input member => ?_, fun value same => ?_⟩
    Operator.isPlain_scalar (fun _ scalar => nomatch scalar) done
  · obtain ⟨child, among, rfl⟩ := List.mem_map.1 member
    exact (conjoins (Operator.scalar.inj same) child among).2
  · rw [constants value (Operator.scalar.inj same), List.map_nil]

end JoinQuery

/-- A table has a column by the names that a request gives them. -/
structure PlacedTable.Has (owner : PlacedTable) (column : Column) (table name : String) : Prop where
  member : column ∈ owner.columns
  table_eq : owner.table.id = table
  name_eq : column.name = name

/-- A group equates two columns of placed tables, which are those of an edge. -/
structure Equality (memo : Memo) (placed : List PlacedTable) (edge : EdgeRequest)
    (conjunct : GroupId) (left right : PlacedTable) (leftColumn rightColumn : Column) : Prop where
  left_mem : left ∈ placed
  right_mem : right ∈ placed
  left_has : left.Has leftColumn edge.leftTable edge.leftColumn
  right_has : right.Has rightColumn edge.rightTable edge.rightColumn
  heads : ∃ first second, memo.Heads first (.scalar (.column leftColumn)) [] ∧
    memo.Heads second (.scalar (.column rightColumn)) [] ∧
    memo.Heads conjunct (.scalar (.binary .eq)) [first, second]

/-- A group is the equality of an edge. -/
def Equates (memo : Memo) (placed : List PlacedTable) (edge : EdgeRequest) (conjunct : GroupId) :
    Prop :=
  ∃ left right leftColumn rightColumn,
    Equality memo placed edge conjunct left right leftColumn rightColumn

section Equality

variable {memo later : Memo} {placed : List PlacedTable} {edge : EdgeRequest} {conjunct : GroupId}
  {left right : PlacedTable} {leftColumn rightColumn : Column}
  (equality : Equality memo placed edge conjunct left right leftColumn rightColumn)

theorem Equates.mono (equates : Equates memo placed edge conjunct) (grows : memo.Grows later) :
    Equates later placed edge conjunct := by
  obtain ⟨left, right, leftColumn, rightColumn, equality⟩ := equates
  obtain ⟨first, second, one, two, both⟩ := equality.heads
  exact ⟨left, right, leftColumn, rightColumn,
    { equality with heads := ⟨first, second, one.mono grows, two.mono grows, both.mono grows⟩ }⟩

include equality

theorem Equality.isConjunct (sound : memo.Sound I) : memo.IsConjunct I conjunct := by
  obtain ⟨_, _, _, _, heads⟩ := equality.heads
  refine ⟨⟨heads.inside, ?_⟩, ?_⟩
  · rw [heads.sense_eq sound.toLinked, isScalar_sense]
    rfl
  · rw [heads.contents_eq sound.toLinked, Operator.gather_of_not_gathers rfl]

/-- An equality uses its two columns. -/
theorem Equality.mem_free_iff (linked : memo.Linked) {column : ColumnId} :
    column ∈ (memo.sense I conjunct).scope.free ↔ column = leftColumn.id ∨ column = rightColumn.id := by
  obtain ⟨first, second, one, two, both⟩ := equality.heads
  rw [both.sense_eq linked, scope_sense]
  show column ∈ (Scope.ofScalar _ _).free ↔ _
  simp [Scope.mem_free_ofScalar, Operator.uses, one.sense_eq linked, two.sense_eq linked, scope_sense,
    Scope.of]

theorem Equality.equalColumns?_eq (valid : memo.Valid) :
    memo.equalColumns? conjunct = .ok (some (leftColumn.id, rightColumn.id)) := by
  obtain ⟨first, second, one, two, both⟩ := equality.heads
  obtain ⟨group, there⟩ := group_of_lt both.inside
  have columns : memo.column? first = some leftColumn ∧ memo.column? second = some rightColumn := by
    simp [column?, scalarOp?, one.scalarFirst?_eq valid, two.scalarFirst?_eq valid]
  have known : memo.group conjunct = .ok group := by simp [Memo.group, there]
  simp [equalColumns?, known, both.scalarFirst?_eq valid, columns, bind, Except.bind, pure,
    Except.pure]

end Equality

/-- The equalities of some edges are conjuncts. -/
theorem exists_edge {edges : List EdgeRequest} {conjuncts : List GroupId} {memo : Memo}
    {placed : List PlacedTable} (each : List.Forall₂ (Equates memo placed) edges conjuncts)
    {conjunct : GroupId} (member : conjunct ∈ conjuncts) :
    ∃ edge ∈ edges, Equates memo placed edge conjunct := by
  induction each with
  | nil => cases member
  | @cons edge other edges others equates _ ih =>
    rcases List.mem_cons.1 member with rfl | member
    · exact ⟨edge, List.mem_cons_self, equates⟩
    · obtain ⟨later, among, known⟩ := ih member
      exact ⟨later, List.mem_cons_of_mem _ among, known⟩

theorem isConjunct_of_equates {edges : List EdgeRequest} {conjuncts : List GroupId} {memo : Memo}
    {placed : List PlacedTable} (each : List.Forall₂ (Equates memo placed) edges conjuncts)
    (sound : memo.Sound I) : ∀ conjunct ∈ conjuncts, memo.IsConjunct I conjunct := by
  intro conjunct member
  obtain ⟨edge, _, _, _, _, _, equality⟩ := exists_edge each member
  exact equality.isConjunct sound

namespace JoinQuery

variable {query next : JoinQuery} {placed : List PlacedTable}

/-- A column that is found has the names that it is sought by. -/
theorem Places.exists_of_column {memo : Memo} (places : query.Places memo placed)
    {table name : String} {column : Column} (found : query.column table name = .ok column) :
    ∃ owner ∈ placed, owner.Has column table name := by
  unfold JoinQuery.column at found
  split at found
  · cases found
  · rename_i loaded known
    split at found
    · cases found
    · rename_i listed
      cases pure_eq_ok_iff.1 found
      rw [places.tables_eq] at known
      obtain ⟨owner, member, same⟩ := List.mem_map.1 (List.mem_reverse.1 (mem_of_lookup known))
      obtain ⟨named, rfl⟩ := Prod.mk.inj same
      obtain ⟨other, among, pair⟩ := List.mem_map.1 (List.mem_reverse.1 (mem_of_lookup listed))
      obtain ⟨label, rfl⟩ := Prod.mk.inj pair
      exact ⟨owner, member, among, named, label⟩

/-- **Loading an edge** adds its equality. -/
theorem Loaded.addEdge {edge : EdgeRequest} {conjunct : GroupId}
    (loaded : query.Loaded I strict placed) (done : query.addEdge edge = .ok (conjunct, next)) :
    next.Loaded I strict placed ∧ query.memo.Grows next.memo ∧
      Equates next.memo placed edge conjunct := by
  unfold JoinQuery.addEdge at done
  split at done
  · cases done
  · obtain ⟨leftColumn, leftFound, done⟩ := bind_eq_ok_iff.1 done
    obtain ⟨rightColumn, rightFound, done⟩ := bind_eq_ok_iff.1 done
    obtain ⟨⟨first, one⟩, leftDone, done⟩ := bind_eq_ok_iff.1 done
    obtain ⟨⟨second, two⟩, rightDone, done⟩ := bind_eq_ok_iff.1 done
    obtain ⟨left, leftMember, leftHas⟩ := loaded.places.exists_of_column leftFound
    obtain ⟨right, rightMember, rightHas⟩ := loaded.places.exists_of_column rightFound
    obtain ⟨loaded, leftAdds⟩ := loaded.insertScalar leftDone nofun fun _ _ => rfl
    obtain ⟨loaded, rightAdds⟩ := loaded.insertScalar rightDone nofun fun _ _ => rfl
    obtain ⟨loaded, adds⟩ := loaded.insertScalar done nofun nofun
    refine ⟨loaded, (leftAdds.grows.trans rightAdds.grows).trans adds.grows, left, right, leftColumn,
      rightColumn, leftMember, rightMember, leftHas, rightHas, first, second, ?_, ?_, adds.heads rfl⟩
    · exact (leftAdds.heads rfl).mono (rightAdds.grows.trans adds.grows)
    · exact (rightAdds.heads rfl).mono adds.grows

/-- **Loading edges** adds an equality for each one. -/
theorem Loaded.addEdges {edges : List EdgeRequest} {conjuncts : List GroupId}
    (loaded : query.Loaded I strict placed) (done : query.addEdges edges = .ok (conjuncts, next)) :
    next.Loaded I strict placed ∧ query.memo.Grows next.memo ∧
      List.Forall₂ (Equates next.memo placed) edges conjuncts := by
  induction edges generalizing query conjuncts with
  | nil =>
    cases pure_eq_ok_iff.1 done
    exact ⟨loaded, .refl _, .nil⟩
  | cons edge edges ih =>
    obtain ⟨⟨conjunct, middle⟩, one, done⟩ := bind_eq_ok_iff.1 done
    obtain ⟨⟨others, last⟩, more, done⟩ := bind_eq_ok_iff.1 done
    cases pure_eq_ok_iff.1 done
    obtain ⟨between, grows, equates⟩ := loaded.addEdge one
    obtain ⟨final, again, each⟩ := ih between more
    exact ⟨final, grows.trans again, .cons (equates.mono again) each⟩

/-- **The predicate of a request** holds the equalities of its edges. -/
theorem Loaded.addPredicate {conjuncts : List GroupId} {predicate : GroupId}
    (loaded : query.Loaded I strict placed)
    (each : ∀ conjunct ∈ conjuncts, query.memo.IsConjunct I conjunct)
    (done : query.addPredicate conjuncts = .ok (predicate, next)) :
    next.Loaded I strict placed ∧ query.memo.Grows next.memo ∧
      next.memo.IsPredicate I predicate ∧ next.memo.contents predicate = conjuncts := by
  have inserted : ∀ {operator : ScalarOp}, operator.gathers = true →
      query.insert (.scalar operator) conjuncts = .ok (predicate, next) →
      (∀ value, operator = .constant value → conjuncts = []) →
      next.Loaded I strict placed ∧ query.memo.Grows next.memo ∧
        next.memo.IsPredicate I predicate ∧ next.memo.contents predicate = conjuncts := by
    intro operator gathers done constants
    obtain ⟨final, adds⟩ := loaded.insertScalar done
      (fun _ child member => (each child member).isPredicate) constants
    refine ⟨final, adds.grows, ⟨adds.inside, ?_⟩, ?_⟩
    · rw [adds.sense_eq, isScalar_sense]
      rfl
    · have whole : (Operator.scalar operator).gathers = true := gathers
      have alone : conjuncts.map query.memo.contents =
          conjuncts.map fun conjunct => ({conjunct} : Multiset GroupId) :=
        List.map_congr_left fun conjunct member => (each conjunct member).alone
      rw [adds.contents_eq, Operator.gather_of_gathers whole, alone]
      exact Multiset.sum_map_singleton (M := GroupId) conjuncts
  rcases conjuncts with _ | ⟨single, _ | ⟨second, rest⟩⟩
  · exact inserted rfl done fun _ _ => rfl
  · cases pure_eq_ok_iff.1 done
    have conjunct := each predicate (List.mem_singleton.2 rfl)
    exact ⟨loaded, .refl _, conjunct.isPredicate, conjunct.alone⟩
  · exact inserted rfl done nofun

/-! ### Requests -/

section Root

variable {memo : Memo} {edges : List EdgeRequest} {conjuncts : List GroupId} {predicate : GroupId}

/-- The tables of a request can be joined. -/
theorem Places.admits (places : query.Places memo placed) (sound : memo.Sound I)
    (isPredicate : memo.IsPredicate I predicate) :
    memo.Admits I (.logical .naryJoin) (placed.map PlacedTable.group ++ [predicate]) := by
  refine .of_logical rfl fun _ => ?_
  refine ⟨placed.map fun table => (memo.sense I table.group).scope, (memo.sense I predicate).scope,
    by simp, ?_, isPredicate.2, ?_⟩
  · intro source member
    obtain ⟨table, among, rfl⟩ := List.mem_map.1 member
    exact (places.isRelation sound among).2
  · refine List.pairwise_map.2 ((List.nodup_flatMap.1 places.columnsOnce).2.imp_of_mem ?_)
    intro first second member memberToo disjoint
    refine ⟨fun column here there => ?_, fun column taken => ?_, fun column taken => ?_⟩
    · exact disjoint ((places.mem_columns_iff sound.toLinked member).1 here)
        ((places.mem_columns_iff sound.toLinked memberToo).1 there)
    · exact absurd taken (places.not_mem_free sound.toLinked member)
    · exact absurd taken (places.not_mem_free sound.toLinked memberToo)

/-- An equality of columns of two tables lies across all tables. -/
theorem Places.across (places : query.Places memo placed) (sound : memo.Sound I) {edge : EdgeRequest}
    {conjunct : GroupId} (equates : Equates memo placed edge conjunct)
    (apart : edge.leftTable ≠ edge.rightTable) :
    memo.Across I ((placed.map PlacedTable.group).map fun group => {group}) conjunct := by
  obtain ⟨left, right, leftColumn, rightColumn, equality⟩ := equates
  have leftAmong : leftColumn.id ∈ left.columnIds := List.mem_map_of_mem equality.left_has.member
  have rightAmong : rightColumn.id ∈ right.columnIds := List.mem_map_of_mem equality.right_has.member
  have different : left ≠ right := by
    rintro rfl
    exact apart (equality.left_has.table_eq.symm.trans equality.right_has.table_eq)
  rw [List.map_map]
  refine ⟨fun column used => ?_, fun source member => ?_⟩
  · rcases (equality.mem_free_iff sound.toLinked).1 used with rfl | rfl
    · exact ⟨_, List.mem_map_of_mem equality.left_mem,
        (places.makes_iff sound equality.left_mem).2 leftAmong⟩
    · exact ⟨_, List.mem_map_of_mem equality.right_mem,
        (places.makes_iff sound equality.right_mem).2 rightAmong⟩
  · -- One of the two columns is in another table.
    obtain ⟨table, among, rfl⟩ := List.mem_map.1 member
    by_cases same : table = left
    · refine ⟨rightColumn.id, (equality.mem_free_iff sound.toLinked).2 (Or.inr rfl), fun made => ?_⟩
      have there := (places.makes_iff sound among).1 made
      exact different (same ▸ places.owner_eq among equality.right_mem there rightAmong)
    · refine ⟨leftColumn.id, (equality.mem_free_iff sound.toLinked).2 (Or.inl rfl), fun made => ?_⟩
      have there := (places.makes_iff sound among).1 made
      exact same (places.owner_eq among equality.left_mem there leftAmong)

/-- The tables of a request, and equalities of its edges as the predicate behind them. -/
theorem Places.spans (places : query.Places memo placed) (sound : memo.Sound I)
    (apart : ∀ edge ∈ edges, edge.leftTable ≠ edge.rightTable)
    (each : List.Forall₂ (Equates memo placed) edges conjuncts)
    (held : memo.contents predicate = conjuncts) :
    memo.Spans I ((placed.map PlacedTable.group ++ [predicate]).map memo.contents) := by
  rw [List.map_append, List.map_singleton, held, places.map_contents_eq sound.toLinked]
  refine ⟨_, _, rfl, fun conjunct member => ?_⟩
  obtain ⟨edge, among, equates⟩ := exists_edge each member
  exact places.across sound equates (apart edge among)

end Root

/-- What the root of a loaded request holds. -/
structure Holds (I : Interpretation V) (strict : Prop) (query : JoinQuery) (request : JoinRequest)
    (placed : List PlacedTable) (conjuncts : List GroupId) : Prop where
  loaded : query.Loaded I strict placed
  tables_eq : placed.map PlacedTable.table = request.tables
  equates : List.Forall₂ (Equates query.memo placed) request.edges conjuncts
  isRelation : query.memo.IsRelation I query.root
  contents_eq : query.memo.contents query.root =
    (placed.map PlacedTable.group : Multiset GroupId) + conjuncts

/-- The steps by which a request is loaded. -/
theorem ofRequest_cases {request : JoinRequest} (done : JoinQuery.ofRequest request = .ok query) :
    ∃ (one two three four : JoinQuery) (conjuncts : List GroupId) (predicate root : GroupId),
      request.tables.foldlM JoinQuery.addTable ({} : JoinQuery) = .ok one ∧
      one.addEdges request.edges = .ok (conjuncts, two) ∧
      two.addPredicate conjuncts = .ok (predicate, three) ∧
      three.insert (.logical .naryJoin) ((request.tables.filterMap fun table =>
        (three.tables.lookup table.id).map LoadedTable.group) ++ [predicate]) = .ok (root, four) ∧
      query = { four with root } ∧ request.tables ≠ [] := by
  unfold JoinQuery.ofRequest at done
  split at done
  · cases done
  · rename_i some
    obtain ⟨one, tablesDone, done⟩ := bind_eq_ok_iff.1 done
    obtain ⟨⟨conjuncts, two⟩, edgesDone, done⟩ := bind_eq_ok_iff.1 done
    obtain ⟨⟨predicate, three⟩, predicateDone, done⟩ := bind_eq_ok_iff.1 done
    obtain ⟨⟨root, four⟩, rootDone, done⟩ := bind_eq_ok_iff.1 done
    cases pure_eq_ok_iff.1 done
    exact ⟨one, two, three, four, conjuncts, predicate, root, tablesDone, edgesDone, predicateDone,
      rootDone, rfl, fun none => some (List.isEmpty_iff.2 none)⟩

/-- The groups of the tables of a request, looked up by their names. -/
theorem Places.filterMap_group {memo : Memo} (places : query.Places memo placed)
    {tables : List TableRequest} (same : placed.map PlacedTable.table = tables) :
    (tables.filterMap fun table => (query.tables.lookup table.id).map LoadedTable.group) =
      placed.map PlacedTable.group := by
  rw [← same, List.filterMap_map, ← List.filterMap_eq_map]
  refine List.filterMap_congr fun table member => ?_
  show (query.tables.lookup table.table.id).map LoadedTable.group = some table.group
  rw [places.lookup_table member]
  rfl

/-- **A loaded request** holds its tables and the equalities of its edges, each as often as the
request has it. -/
theorem ofRequest_holds {request : JoinRequest}
    (apart : strict → ∀ edge ∈ request.edges, edge.leftTable ≠ edge.rightTable)
    (done : JoinQuery.ofRequest request = .ok query) :
    ∃ placed conjuncts, query.Holds I strict request placed conjuncts := by
  obtain ⟨one, two, three, four, conjuncts, predicate, root, tablesDone, edgesDone, predicateDone,
    rootDone, rfl, _⟩ := ofRequest_cases done
  have empty : ({} : JoinQuery).Loaded I strict [] := empty_loaded
  obtain ⟨placed, tables, loaded⟩ := empty.addTables tablesDone
  rw [List.nil_append] at loaded
  obtain ⟨loaded, _, each⟩ := loaded.addEdges edgesDone
  obtain ⟨loaded, grows, isPredicate, held⟩ :=
    loaded.addPredicate (isConjunct_of_equates each loaded.unsearched.sound) predicateDone
  replace each : List.Forall₂ (Equates three.memo placed) request.edges conjuncts :=
    each.imp fun _ _ equates => equates.mono grows
  rw [loaded.places.filterMap_group tables] at rootDone
  have sound := loaded.unsearched.sound
  obtain ⟨final, adds⟩ := loaded.insert (loaded.places.admits sound isPredicate)
    (Operator.isPlain_of_gathers rfl)
    (fun asked _ _ => loaded.places.spans sound (apart asked) each held) rootDone
  refine ⟨placed, conjuncts, ⟨final.unsearched, final.places.update _ _⟩, tables,
    each.imp fun _ _ equates => equates.mono adds.grows, ⟨adds.inside, ?_⟩, ?_⟩
  · show (four.memo.sense I root).scope.isScalar = false
    rw [adds.sense_eq, isScalar_sense]
    rfl
  · show four.memo.contents root = _
    rw [adds.contents_eq, Operator.gather_of_gathers rfl, List.map_append, List.sum_append,
      List.map_singleton, List.sum_singleton, held, loaded.places.map_contents_eq sound.toLinked]
    congr 1
    exact Multiset.sum_map_singleton (M := GroupId) (placed.map PlacedTable.group : List GroupId)

end JoinQuery

end Cascades
