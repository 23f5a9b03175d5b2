/-
**Loaded tables.**

A request is loaded into a memo in which every expression has a group of its own. Tables get distinct
columns, so two tables share a group only if both have no columns and one name.

* `Memo.Heads`: the expression of a group; `Memo.Unsearched`: the memo while a request is loaded;
* `PlacedTable`, `JoinQuery.Places`: the tables of a request in a memo;
* `Places.group_eq_iff`: which tables share a group;
* `Loaded.addTables`: loading the tables of a request.
-/

import Cascades.JoinRequest.Query
import Cascades.Proofs.Gathering.Gathered
import Cascades.Proofs.Meaning.Query
import Mathlib.Data.List.Nodup

namespace Cascades

open Memo Interpretation

variable {V : Type} {I : Interpretation V} {strict : Prop}

theorem lift_requestError_eq_ok_iff {α : Type} {computation : Except Fault α} {value : α} :
    (liftM computation : Except RequestError α) = .ok value ↔ computation = .ok value := by
  cases computation with
  | ok other =>
    constructor <;> intro same <;> cases same <;> rfl
  | error cause =>
    constructor <;> intro same <;> cases same

/-! ### Groups with one expression -/

namespace Memo

variable {memo next : Memo} {group other : GroupId} {operator : Operator} {children : List GroupId}
  {id : ExprId} {expr : Expr}

/-- Every expression is the first member of its group. -/
def Flat (memo : Memo) : Prop :=
  ∀ (id : ExprId) (expr : Expr), memo.exprs[id]? = some expr → expr.position = 0

/-- The first member of a group is an operator over children. -/
def Heads (memo : Memo) (group : GroupId) (operator : Operator) (children : List GroupId) : Prop :=
  ∃ expr, memo.firstMember group = .ok expr ∧ expr.operator = operator ∧ expr.children = children

theorem Heads.mono (heads : memo.Heads group operator children) (grows : memo.Grows next) :
    next.Heads group operator children := by
  obtain ⟨expr, found, shape⟩ := heads
  exact ⟨expr, grows.firstMember found, shape⟩

theorem Heads.inside (heads : memo.Heads group operator children) : group < memo.groups.size := by
  obtain ⟨expr, found, _⟩ := heads
  obtain ⟨_, _, there, _⟩ := firstMember_ok_iff.1 found
  exact lt_of_group there

/-- A group has one first member. -/
theorem Heads.unique (heads : memo.Heads group operator children) {again : Operator}
    {others : List GroupId} (headsToo : memo.Heads group again others) :
    operator = again ∧ children = others := by
  obtain ⟨expr, found, rfl, rfl⟩ := heads
  obtain ⟨same, foundToo, rfl, rfl⟩ := headsToo
  obtain rfl := Except.ok.inj (found.symm.trans foundToo)
  exact ⟨rfl, rfl⟩

/-- An expression is the first member of one group. -/
theorem Heads.group_eq (heads : memo.Heads group operator children)
    (headsToo : memo.Heads other operator children) (linked : memo.Linked) : group = other := by
  obtain ⟨expr, found, rfl, rfl⟩ := heads
  obtain ⟨same, foundToo, operators, shapes⟩ := headsToo
  obtain ⟨_, first, _, _, stored⟩ := firstMember_ok_iff.1 found
  obtain ⟨_, second, _, _, storedToo⟩ := firstMember_ok_iff.1 foundToo
  have equal : (expr.operator == same.operator) = true := operators ▸ ReflBEq.rfl
  obtain rfl := linked.unique stored storedToo equal shapes.symm
  obtain rfl := Option.some.inj (stored.symm.trans storedToo)
  exact (linked.of_firstMember found).1.symm.trans (linked.of_firstMember foundToo).1

theorem Heads.sense_eq (heads : memo.Heads group operator children) (linked : memo.Linked) :
    memo.sense I group = I.sense operator (children.map (memo.sense I)) := by
  obtain ⟨expr, found, rfl, rfl⟩ := heads
  exact linked.sense_eq found

theorem Heads.contents_eq (heads : memo.Heads group operator children) (linked : memo.Linked) :
    memo.contents group = operator.gather group (children.map memo.contents) := by
  obtain ⟨expr, found, rfl, rfl⟩ := heads
  exact linked.contents_eq found

/-- A scalar group has the operator of its first member. -/
theorem Heads.scalarFirst?_eq {scalar : ScalarOp} (heads : memo.Heads group (.scalar scalar) children)
    (valid : memo.Valid) : memo.scalarFirst? group = some (scalar, children) := by
  obtain ⟨expr, found, kind, rfl⟩ := heads
  exact valid.toLinked.scalarFirst?_eq found kind

/-- A memo that a request is loaded into. -/
structure Unsearched (I : Interpretation V) (strict : Prop) (memo : Memo) : Prop where
  sound : memo.Sound I
  gathered : memo.Gathered I strict
  flat : memo.Flat

theorem empty_unsearched : Memo.empty.Unsearched I strict where
  sound := empty_sound
  gathered := empty_gathered
  flat id expr stored := by simp [Memo.empty] at stored

/-- An operator over children has a group in a memo that grew out of another one. -/
structure Adds (I : Interpretation V) (strict : Prop) (memo : Memo) (operator : Operator)
    (children : List GroupId) (group : GroupId) (next : Memo) : Prop where
  unsearched : next.Unsearched I strict
  grows : memo.Grows next
  inside : group < next.groups.size
  sense_eq : next.sense I group = I.sense operator (children.map (memo.sense I))
  contents_eq : next.contents group = operator.gather group (children.map memo.contents)
  heads : operator.isConstant = false → next.Heads group operator children

theorem insert_flat (flat : memo.Flat) (done : memo.insert operator children = .ok (id, next)) :
    next.Flat := by
  obtain ⟨_, ⟨_, rfl⟩ | ⟨_, _, _, rfl⟩⟩ := insert_cases done
  · exact flat
  · intro other new stored
    rcases stored_append_iff.1 stored with old | ⟨_, rfl⟩
    · exact flat other new old
    · rw [added_eq (groups_appendGroup.trans (if_pos rfl))]
      rfl

/-- **An expression that is inserted** while a request is loaded. -/
theorem Unsearched.insert (unsearched : memo.Unsearched I strict) (admits : memo.Admits I operator children)
    (plain : operator.IsPlain)
    (spans : strict → operator.isScalar = false → operator.gathers = true →
      memo.Spans I (children.map memo.contents))
    (done : memo.insert operator children = .ok (id, next)) (given : next.expr id = .ok expr) :
    memo.Adds I strict operator children expr.group next := by
  have valid := unsearched.sound.toValid
  obtain ⟨sound, grows, _, first, sense⟩ := insert_sound unsearched.sound admits done
  obtain ⟨gathered, _, second, contents⟩ := insert_gathered unsearched.gathered valid plain spans done
  have flat := insert_flat unsearched.flat done
  have stored := expr_ok_iff.1 given
  obtain rfl := Option.some.inj (stored.symm.trans first)
  obtain rfl := Option.some.inj (stored.symm.trans second)
  obtain ⟨_, there, _⟩ := sound.placed stored
  refine ⟨⟨sound, gathered, flat⟩, grows, lt_of_group there, sense, contents, fun exact => ?_⟩
  obtain ⟨same, again, equal, shape⟩ := insert_stored valid done
  obtain rfl := Option.some.inj (stored.symm.trans again)
  have place := flat id expr stored
  exact ⟨expr, sound.toValid.firstMember_of_position stored place,
    Operator.eq_of_beq equal exact, shape⟩

end Memo

/-! ### Tables -/

/-- A table of a request with its columns in a memo and its group. -/
structure PlacedTable where
  table : TableRequest
  columns : List Column
  group : GroupId

namespace PlacedTable

variable (placed : PlacedTable)

/-- The expression of a table. -/
def operator : Operator := .logical (.get ⟨placed.table.schema, placed.table.name⟩ placed.columns)

/-- The numbers of the columns of a table. -/
def columnIds : List ColumnId := placed.columns.map Column.id

/-- The entry of a table in a query. -/
def entry : String × LoadedTable :=
  (placed.table.id,
    { group := placed.group
      columns := (placed.columns.map fun column => (column.name, column)).reverse })

/-- The names of the columns of a table. -/
def names : List (ColumnId × String × String) :=
  placed.columns.map fun column => (column.id, placed.table.id, column.name)

/-- A table takes nothing from outside, and its columns are those that are given. -/
theorem operator_scope :
    (I.sense placed.operator []).scope = ⟨false, .ofList placed.columnIds, .empty⟩ := by
  rw [scope_sense]
  refine Scope.ext rfl (fun column => Iff.rfl) fun column => ?_
  show column ∈ (Scope.ofLogical _ []).free ↔ _
  simp [Scope.mem_free_ofLogical, LogicalOp.uses]

end PlacedTable

/-! ### Lookup -/

section Lookup

variable {κ α β : Type} [BEq κ] {key : κ}

theorem lookup_map {values : List α} {label : α → κ} {content : α → β} :
    (values.map fun value => (label value, content value)).lookup key =
      (values.find? fun value => key == label value).map content := by
  induction values with
  | nil => rfl
  | cons value values ih =>
    rw [List.map_cons, List.lookup_cons, List.find?_cons, ih]
    cases key == label value <;> rfl

variable [LawfulBEq κ]

theorem mem_of_lookup {entries : List (κ × β)} {value : β}
    (found : entries.lookup key = some value) : (key, value) ∈ entries := by
  obtain ⟨before, after, rfl, _⟩ := List.lookup_eq_some_iff.1 found
  exact List.mem_append_right _ List.mem_cons_self

theorem lookup_of_mem {entries : List (κ × β)} {value : β}
    (once : (entries.map Prod.fst).Nodup) (member : (key, value) ∈ entries) :
    entries.lookup key = some value := by
  obtain ⟨before, after, rfl⟩ := List.append_of_mem member
  refine List.lookup_eq_some_iff.2 ⟨before, after, rfl, fun other among => bne_iff_ne.2 fun same => ?_⟩
  rw [List.map_append, List.map_cons] at once
  exact (List.nodup_append.1 once).2.2 _ (List.mem_map_of_mem among) _ List.mem_cons_self same.symm

end Lookup

/-! ### Tables in a query -/

namespace JoinQuery

/-- The tables of a query are those of a request, each in its group of a memo. -/
structure Places (query : JoinQuery) (memo : Memo) (placed : List PlacedTable) : Prop where
  tables_eq : query.tables = (placed.map PlacedTable.entry).reverse
  tableNames_eq : query.tableNames = (placed.map fun table => (table.group, table.table.id)).reverse
  columnNames_eq : query.columnNames = placed.flatMap PlacedTable.names
  once : (placed.map fun table => table.table.id).Nodup
  columnsOnce : (placed.flatMap PlacedTable.columnIds).Nodup
  below : ∀ column ∈ placed.flatMap PlacedTable.columnIds, column < query.nextColumn
  sized : ∀ table ∈ placed, table.columns.length = table.table.columns.length
  heads : ∀ table ∈ placed, memo.Heads table.group table.operator []

variable {query next : JoinQuery} {memo later : Memo} {placed : List PlacedTable}

theorem empty_places : ({} : JoinQuery).Places memo [] where
  tables_eq := rfl
  tableNames_eq := rfl
  columnNames_eq := rfl
  once := List.nodup_nil
  columnsOnce := List.nodup_nil
  below _ member := absurd member List.not_mem_nil
  sized _ member := absurd member List.not_mem_nil
  heads _ member := absurd member List.not_mem_nil

/-- Tables stay where they are while a memo grows. -/
theorem Places.mono (places : query.Places memo placed) (grows : memo.Grows later) :
    query.Places later placed :=
  { places with heads := fun table member => (places.heads table member).mono grows }

/-- The memo and the root of a query say nothing about its tables. -/
theorem Places.update (places : query.Places memo placed) (other : Memo) (root : GroupId) :
    { query with memo := other, root }.Places memo placed where
  tables_eq := places.tables_eq
  tableNames_eq := places.tableNames_eq
  columnNames_eq := places.columnNames_eq
  once := places.once
  columnsOnce := places.columnsOnce
  below := places.below
  sized := places.sized
  heads := places.heads

theorem Places.lookup_table (places : query.Places memo placed) {table : PlacedTable}
    (member : table ∈ placed) : query.tables.lookup table.table.id = some table.entry.2 := by
  rw [places.tables_eq]
  refine lookup_of_mem ?_ (List.mem_reverse.2 (List.mem_map_of_mem (f := PlacedTable.entry) member))
  rw [List.map_reverse, List.nodup_reverse, List.map_map]
  exact places.once

theorem Places.lookup_column (places : query.Places memo placed) {table : PlacedTable}
    (member : table ∈ placed) {column : Column} (among : column ∈ table.columns) :
    query.columnNames.lookup column.id = some (table.table.id, column.name) := by
  rw [places.columnNames_eq]
  refine lookup_of_mem ?_ (List.mem_flatMap.2 ⟨table, member, List.mem_map_of_mem among⟩)
  have names : ∀ table : PlacedTable, table.names.map Prod.fst = table.columnIds := fun table => by
    rw [PlacedTable.names, List.map_map]
    rfl
  rw [List.map_flatMap]
  simp only [names]
  exact places.columnsOnce

/-- A table that is not among the tables of a query is none of the request so far. -/
theorem Places.fresh (places : query.Places memo placed) {id : String}
    (absent : query.tables.lookup id = none) : id ∉ placed.map fun table => table.table.id := by
  intro member
  obtain ⟨table, among, rfl⟩ := List.mem_map.1 member
  rw [places.lookup_table among] at absent
  cases absent

/-- The numbers of new columns follow each other. -/
theorem columnIds_numberColumns {table : TableRequest} {first : ColumnId} :
    ((numberColumns table first).map (·.1)).map Column.id =
      List.range' first table.columns.length := by
  have shift : ((numberColumns table first).map (·.1)).map Column.id =
      ((table.columns.zipIdx).map Prod.snd).map fun offset => first + offset := by
    unfold numberColumns
    simp only [List.map_map]
    rfl
  rw [shift, List.zipIdx_map_snd, List.map_add_range', Nat.add_zero]

/-- A table with new columns goes behind the tables that are there. -/
theorem Places.append (places : query.Places memo placed) (added : PlacedTable)
    (fresh : added.table.id ∉ placed.map fun table => table.table.id)
    (numbers : added.columnIds = List.range' query.nextColumn added.table.columns.length)
    (heads : memo.Heads added.group added.operator []) (catalog : Catalog.Entries) :
    { query with
      memo, catalog
      tables := added.entry :: query.tables
      tableNames := (added.group, added.table.id) :: query.tableNames
      columnNames := query.columnNames ++ added.names
      nextColumn := query.nextColumn + added.columns.length }.Places memo (placed ++ [added]) := by
  have sized : added.columns.length = added.table.columns.length := by
    have counts := congrArg List.length numbers
    rwa [PlacedTable.columnIds, List.length_map, List.length_range'] at counts
  have ids : (placed ++ [added]).flatMap PlacedTable.columnIds =
      placed.flatMap PlacedTable.columnIds ++
        List.range' query.nextColumn added.table.columns.length := by
    simp [numbers]
  constructor
  case tables_eq => simp [places.tables_eq]
  case tableNames_eq => simp [places.tableNames_eq]
  case columnNames_eq => simp [places.columnNames_eq]
  case once =>
    rw [List.map_append, List.nodup_append]
    refine ⟨places.once, List.nodup_singleton _, fun id member other same equal => fresh ?_⟩
    have new : other = added.table.id := List.mem_singleton.1 same
    rwa [← new, ← equal]
  case columnsOnce =>
    rw [ids, List.nodup_append]
    refine ⟨places.columnsOnce, List.nodup_range', fun old member new added equal => ?_⟩
    have early := places.below old member
    have late := (List.mem_range'_1.1 added).1
    exact absurd (equal ▸ early) (Nat.not_lt_of_le late)
  case below =>
    rw [ids, sized]
    intro column member
    rcases List.mem_append.1 member with old | new
    · exact Nat.lt_of_lt_of_le (places.below column old) (Nat.le_add_right _ _)
    · exact (List.mem_range'_1.1 new).2
  case sized =>
    exact List.forall_mem_append.2 ⟨places.sized, List.forall_mem_singleton.2 sized⟩
  case heads =>
    exact List.forall_mem_append.2 ⟨places.heads, List.forall_mem_singleton.2 heads⟩

theorem Places.isRelation (places : query.Places memo placed) (sound : memo.Sound I)
    {table : PlacedTable} (member : table ∈ placed) : memo.IsRelation I table.group := by
  have heads := places.heads table member
  refine ⟨heads.inside, ?_⟩
  rw [heads.sense_eq sound.toLinked, List.map_nil, table.operator_scope]

theorem Places.contents_eq (places : query.Places memo placed) (linked : memo.Linked)
    {table : PlacedTable} (member : table ∈ placed) : memo.contents table.group = {table.group} :=
  ((places.heads table member).contents_eq linked).trans (Operator.gather_of_not_gathers rfl)

theorem Places.map_contents_eq (places : query.Places memo placed) (linked : memo.Linked) :
    (placed.map PlacedTable.group).map memo.contents =
      (placed.map PlacedTable.group).map fun group => {group} := by
  refine List.map_congr_left fun group member => ?_
  obtain ⟨table, among, rfl⟩ := List.mem_map.1 member
  exact places.contents_eq linked among

/-- A table has the columns that it was given. -/
theorem Places.mem_columns_iff (places : query.Places memo placed) (linked : memo.Linked)
    {table : PlacedTable} (member : table ∈ placed) {column : ColumnId} :
    column ∈ (memo.sense I table.group).scope.columns ↔ column ∈ table.columnIds := by
  rw [(places.heads table member).sense_eq linked, List.map_nil, table.operator_scope]
  exact SortedSet.mem_ofList

theorem Places.not_mem_free (places : query.Places memo placed) (linked : memo.Linked)
    {table : PlacedTable} (member : table ∈ placed) {column : ColumnId} :
    ¬ column ∈ (memo.sense I table.group).scope.free := by
  rw [(places.heads table member).sense_eq linked, List.map_nil, table.operator_scope]
  exact SortedSet.not_mem_empty column

theorem Places.makes_iff (places : query.Places memo placed) (sound : memo.Sound I)
    {table : PlacedTable} (member : table ∈ placed) {column : ColumnId} :
    memo.Makes I {table.group} column ↔ column ∈ table.columnIds := by
  rw [← places.contents_eq sound.toLinked member,
    (places.isRelation sound member).makes_iff sound, places.mem_columns_iff sound.toLinked member]

/-- A column is in one table. -/
theorem Places.owner_eq (places : query.Places memo placed) {first second : PlacedTable}
    (member : first ∈ placed) (memberToo : second ∈ placed) {column : ColumnId}
    (among : column ∈ first.columnIds) (amongToo : column ∈ second.columnIds) : first = second := by
  by_contra different
  have : Std.Symm (Function.onFun List.Disjoint PlacedTable.columnIds) :=
    ⟨fun _ _ disjoint => disjoint.symm⟩
  have apart := (List.nodup_flatMap.1 places.columnsOnce).2.forall member memberToo different
  exact apart among amongToo

/-- Tables have names of their own. -/
theorem Places.table_eq (places : query.Places memo placed) {first second : PlacedTable}
    (member : first ∈ placed) (memberToo : second ∈ placed)
    (same : first.table.id = second.table.id) : first = second :=
  List.inj_on_of_nodup_map places.once member memberToo same

/-- **Tables share a group** if they are one table, or have one name and no columns. -/
theorem Places.group_eq_iff (places : query.Places memo placed) (linked : memo.Linked)
    {first second : PlacedTable} (member : first ∈ placed) (memberToo : second ∈ placed) :
    first.group = second.group ↔ first = second ∨ first.columns = [] ∧ second.columns = [] ∧
      first.table.schema = second.table.schema ∧ first.table.name = second.table.name := by
  have heads := places.heads first member
  have headsToo := places.heads second memberToo
  constructor
  · intro same
    have shapes := (heads.unique (same ▸ headsToo)).1
    simp only [PlacedTable.operator, Operator.logical.injEq, LogicalOp.get.injEq,
      Table.mk.injEq] at shapes
    obtain ⟨⟨schemas, names⟩, columns⟩ := shapes
    cases none : first.columns with
    | nil => exact Or.inr ⟨rfl, columns ▸ none, schemas, names⟩
    | cons column rest =>
      have there : column ∈ first.columns := none ▸ List.mem_cons_self
      exact Or.inl (places.owner_eq member memberToo (List.mem_map_of_mem there)
        (List.mem_map_of_mem (columns ▸ there)))
  · rintro (rfl | ⟨none, noneToo, schemas, names⟩)
    · rfl
    · have shapes : second.operator = first.operator := by
        unfold PlacedTable.operator
        rw [none, noneToo, schemas, names]
      exact heads.group_eq (shapes ▸ headsToo) linked

/-- A query whose memo holds the tables of a request and has not been searched. -/
structure Loaded (I : Interpretation V) (strict : Prop) (query : JoinQuery)
    (placed : List PlacedTable) : Prop where
  unsearched : query.memo.Unsearched I strict
  places : query.Places query.memo placed

theorem empty_loaded : ({} : JoinQuery).Loaded I strict [] := ⟨empty_unsearched, empty_places⟩

/-- The steps by which a table is loaded. -/
theorem addTable_cases {table : TableRequest} (unsearched : query.memo.Unsearched I strict)
    (done : query.addTable table = .ok next) :
    ∃ (added : PlacedTable) (memo : Memo), added.table = table ∧
      added.columns = (numberColumns table query.nextColumn).map (·.1) ∧
      query.tables.lookup table.id = none ∧
      query.memo.Adds I strict added.operator [] added.group memo ∧
      next = { query with
        memo
        catalog := query.catalog.addTable ⟨table.schema, table.name⟩
          { columns := added.columns
            statistics := statisticsOf table (numberColumns table query.nextColumn) }
        tables := added.entry :: query.tables
        tableNames := (added.group, added.table.id) :: query.tableNames
        columnNames := query.columnNames ++ added.names
        nextColumn := query.nextColumn + added.columns.length } := by
  unfold JoinQuery.addTable at done
  split at done
  · cases done
  · rename_i absent
    obtain ⟨⟨expr, memo⟩, inserted, done⟩ := bind_eq_ok_iff.1 done
    obtain ⟨expression, found, done⟩ := bind_eq_ok_iff.1 done
    cases pure_eq_ok_iff.1 done
    let added : PlacedTable :=
      { table, columns := (numberColumns table query.nextColumn).map (·.1), group := expression.group }
    have adds : query.memo.Adds I strict added.operator [] expression.group memo := by
      refine unsearched.insert (.of_logical rfl nofun) ?_ (fun _ _ gathers => nomatch gathers)
        (lift_requestError_eq_ok_iff.1 inserted) (lift_requestError_eq_ok_iff.1 found)
      exact fun _ same => Or.inr ⟨_, _, (Option.some.inj same).symm⟩
    exact ⟨added, memo, rfl, rfl, Option.not_isSome_iff_eq_none.1 absent, adds, rfl⟩

/-- **Loading a table** puts it behind the tables that are there. -/
theorem Loaded.addTable {table : TableRequest} (loaded : query.Loaded I strict placed)
    (done : query.addTable table = .ok next) :
    ∃ added : PlacedTable, added.table = table ∧ next.Loaded I strict (placed ++ [added]) := by
  obtain ⟨unsearched, places⟩ := loaded
  obtain ⟨added, memo, rfl, columns, absent, adds, rfl⟩ := addTable_cases unsearched done
  have numbers : added.columnIds = List.range' query.nextColumn added.table.columns.length := by
    rw [PlacedTable.columnIds, columns, columnIds_numberColumns]
  exact ⟨added, rfl, adds.unsearched, (places.mono adds.grows).append added (places.fresh absent)
    numbers (adds.heads rfl) _⟩

/-- **Loading the tables of a request** puts them into the query in their order. -/
theorem Loaded.addTables {tables : List TableRequest} (loaded : query.Loaded I strict placed)
    (done : tables.foldlM JoinQuery.addTable query = .ok next) :
    ∃ added : List PlacedTable, added.map PlacedTable.table = tables ∧
      next.Loaded I strict (placed ++ added) := by
  induction tables generalizing query placed with
  | nil =>
    cases pure_eq_ok_iff.1 done
    exact ⟨[], rfl, (List.append_nil placed).symm ▸ loaded⟩
  | cons table tables ih =>
    rw [List.foldlM_cons] at done
    obtain ⟨middle, one, done⟩ := bind_eq_ok_iff.1 done
    obtain ⟨first, same, between⟩ := loaded.addTable one
    obtain ⟨rest, others, final⟩ := ih between done
    refine ⟨first :: rest, congrArg₂ List.cons same others, ?_⟩
    rwa [List.append_assoc] at final

end JoinQuery

end Cascades
