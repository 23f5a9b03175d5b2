/-
**The statistics of the tables of a request.**

A table is filed in the catalog under its text, so of several tables with one text the last one is
found for all of them. A table behind which none has its text keeps its own statistics.

* `Filed`: what is filed, and what is read, for the tables that are loaded;
* `Filed.addTables`: loading the tables of a request;
* `Extends`, `addEdges_extends`, `addPredicate_extends`: what is loaded later changes neither;
* `ofRequest_statistics`: the statistics of each table of a request.
-/

import Cascades.Proofs.JoinRequest.Origin
import Cascades.Proofs.Statistics.Columns

namespace Cascades

open Memo

/-! ### Values of maps -/

namespace ColumnMap

variable {α : Type} {map : ColumnMap α} {column : ColumnId} {value : α}

theorem get?_foldl_insert_of_absent {entries : List (ColumnId × α)}
    (absent : column ∉ entries.map Prod.fst) :
    (entries.foldl (fun map entry => map.insert entry.1 entry.2) map).get? column =
      map.get? column := by
  induction entries generalizing map with
  | nil => rfl
  | cons head tail ih =>
    rw [List.map_cons, List.mem_cons, not_or] at absent
    rw [List.foldl_cons, ih absent.2, get?_insert, if_neg absent.1]

/-- The value of a column that has one. -/
theorem get?_ofList {entries : List (ColumnId × α)} (once : (entries.map Prod.fst).Nodup)
    (member : (column, value) ∈ entries) : (ofList entries).get? column = some value := by
  obtain ⟨before, after, rfl⟩ := List.append_of_mem member
  rw [List.map_append, List.map_cons] at once
  have later : column ∉ after.map Prod.fst :=
    (List.nodup_cons.1 (List.nodup_append.1 once).2.1).1
  unfold ofList
  rw [List.foldl_append, List.foldl_cons, get?_foldl_insert_of_absent later, get?_insert,
    if_pos rfl]

end ColumnMap

namespace Statistics

variable {memo : Memo} {catalog : Catalog} {table : Table} {columns : List Column}
  {column : ColumnId} {group : GroupId}

/-- A table has the catalog's statistics of a column, and for any other column that it lists as many
distinct values as rows. -/
theorem get?_ofTable : (ofTable catalog table columns).columns.get? column =
    let known := (catalog.statistics? table).getD .default
    (known.columns.get? column).or
      (if column ∈ columns.map Column.id then some { distinct := known.rows } else none) := by
  unfold ofTable
  dsimp only
  generalize ((catalog.statistics? table).getD .default).rows = rows
  generalize ((catalog.statistics? table).getD .default).columns = known
  induction columns generalizing known with
  | nil => simp
  | cons head tail ih =>
    rw [List.foldl_cons, ih, List.map_cons]
    cases there : known.get? head.id with
    | some value =>
      have kept : known.contains head.id = true := ColumnMap.contains_iff.2 ⟨value, there⟩
      rw [if_pos kept]
      by_cases same : column = head.id
      · subst same
        simp [there]
      · simp [same]
    | none =>
      have fresh : ¬known.contains head.id = true := fun kept => by
        obtain ⟨value, found⟩ := ColumnMap.contains_iff.1 kept
        rw [there] at found
        cases found
      rw [if_neg fresh, ColumnMap.get?_insert]
      by_cases same : column = head.id
      · subst same
        simp [there]
      · simp [same]

/-- **The statistics of a group that reads a table** are those of the table. -/
theorem ofGroup_get (linked : memo.Linked)
    (heads : memo.Heads group (.logical (.get table columns)) []) :
    ofGroup memo catalog group = .ok (ofTable catalog table columns) := by
  obtain ⟨expr, found, logical, _⟩ := heads
  obtain ⟨owner, number, there, _, stored⟩ := firstMember_ok_iff.1 found
  have family : owner.isScalar = false := by
    rw [← linked.family stored ((linked.of_firstMember found).1.symm ▸ there), logical]
    rfl
  have own : ofMembers memo catalog (findWithin memo catalog memo.groups.size) group =
      pure (ofTable catalog table columns) := by
    unfold ofMembers
    simp only [bind_known (group_ok_iff.2 there), family,
      bind_known (firstLogical_of_firstMember found logical)]
    rfl
  refine run'_eq_ok_iff.2 ⟨Std.TreeMap.insert {} group (ofTable catalog table columns), ?_⟩
  unfold find
  rw [findWithin_of_unknown (by simp), own]
  rfl

end Statistics

namespace Catalog

theorem Entries.statistics?_addTable {entries : Entries} {table other : Table} {entry : TableEntry} :
    (entries.addTable table entry).toCatalog.statistics? other =
      if other.toText = table.toText then some entry.statistics
      else entries.toCatalog.statistics? other := by
  show ((entries.addTable table entry).table? other).map _ = ite _ _ ((entries.table? other).map _)
  unfold Entries.table? Entries.addTable
  rw [List.lookup_cons]
  by_cases same : other.toText = table.toText
  · simp [same]
  · simp [same, beq_eq_false_iff_ne.2 same]

end Catalog

/-! ### Tables of a request -/

namespace TableRequest

variable (table : TableRequest)

/-- The table that is read. -/
def named : Table := ⟨table.schema, table.name⟩

/-- The text that the statistics are filed under. -/
def text : String := table.named.toText

/-- The columns, numbered from a first number on. -/
def columnsFrom (first : ColumnId) : List Column := (JoinQuery.numberColumns table first).map (·.1)

/-- The numbers of these columns. -/
def columnIdsFrom (first : ColumnId) : List ColumnId := (table.columnsFrom first).map Column.id

/-- The size that is given, or a hundred bytes for each row. -/
def givenSize : Float := table.size.getD (table.rows * 100)

/-- Some statistics have the rows, the size and the statistics of the columns of a table. -/
structure Describes (first : ColumnId) (statistics : Statistics) : Prop where
  rows : statistics.rows = table.rows
  size : statistics.size = table.givenSize
  columns : ∀ position column, table.columns[position]? = some column →
    statistics.columns.get? (first + position) =
      some ⟨column.distinct, column.nullFraction, column.averageSize⟩

theorem columnIdsFrom_eq {first : ColumnId} :
    table.columnIdsFrom first = List.range' first table.columns.length :=
  JoinQuery.columnIds_numberColumns

end TableRequest

namespace JoinQuery

variable {query next : JoinQuery}

/-- The number of the first column behind some tables. -/
def firstColumn (tables : List TableRequest) : ColumnId :=
  1 + (tables.map fun table => table.columns.length).sum

theorem firstColumn_append {tables others : List TableRequest} :
    firstColumn (tables ++ others) =
      firstColumn tables + (others.map fun table => table.columns.length).sum := by
  simp [firstColumn, Nat.add_assoc]

/-- A table of a query is read with its columns, numbered from a first number on. -/
def Reads (query : JoinQuery) (table : TableRequest) (first : ColumnId) : Prop :=
  ∃ loaded, query.tables.lookup table.id = some loaded ∧
    query.memo.Heads loaded.group (.logical (.get table.named (table.columnsFrom first))) []

/-- The tables of a query are read with columns of their own, and of several tables with one text the
last one is filed. -/
structure Filed (query : JoinQuery) (tables : List TableRequest) : Prop where
  nextColumn_eq : query.nextColumn = firstColumn tables
  reads : ∀ {before table after}, tables = before ++ table :: after →
    query.Reads table (firstColumn before)
  statistics : ∀ {before table after}, tables = before ++ table :: after →
    (∀ other ∈ after, other.text ≠ table.text) →
      query.catalog.toCatalog.statistics? table.named =
        some (statisticsOf table (numberColumns table (firstColumn before)))

/-! ### Loading -/

theorem empty_filed : ({} : JoinQuery).Filed [] where
  nextColumn_eq := rfl
  reads split := by simp at split
  statistics split := by simp at split

/-- A table among some tables with one more behind them is this one or among the others. -/
theorem split_concat {α : Type} {values before after : List α} {last value : α}
    (split : values ++ [last] = before ++ value :: after) :
    (before = values ∧ value = last ∧ after = []) ∨
      ∃ rest, after = rest ++ [last] ∧ values = before ++ value :: rest := by
  rcases List.eq_nil_or_concat after with rfl | ⟨rest, other, rfl⟩
  · obtain ⟨same, single⟩ := List.append_inj' split rfl
    exact .inl ⟨same.symm, (List.cons.inj single).1.symm, rfl⟩
  · rw [List.concat_eq_append, ← List.cons_append, ← List.append_assoc] at split
    obtain ⟨same, single⟩ := List.append_inj' split rfl
    exact .inr ⟨rest, by rw [(List.cons.inj single).1, List.concat_eq_append], same⟩

/-- **Loading a table** files it in place of any earlier one with its text. -/
theorem Filed.addTable {V : Type} {I : Interpretation V} {strict : Prop} {tables : List TableRequest}
    {table : TableRequest} (filed : query.Filed tables) (unsearched : query.memo.Unsearched I strict)
    (done : query.addTable table = .ok next) :
    next.memo.Unsearched I strict ∧ next.Filed (tables ++ [table]) := by
  obtain ⟨added, memo, rfl, columns, absent, adds, rfl⟩ := addTable_cases unsearched done
  have count : added.columns.length = added.table.columns.length := by
    rw [columns]
    simp [numberColumns]
  refine ⟨adds.unsearched, ?_, fun {before other after} split => ?_,
    fun {before other after} split last => ?_⟩
  · show query.nextColumn + added.columns.length = _
    rw [filed.nextColumn_eq, firstColumn_append, count]
    simp
  · rcases split_concat split with ⟨rfl, rfl, rfl⟩ | ⟨rest, rfl, sooner⟩
    · refine ⟨added.entry.2, by simp [PlacedTable.entry], ?_⟩
      have heads := adds.heads rfl
      rwa [PlacedTable.operator, columns, filed.nextColumn_eq] at heads
    · obtain ⟨loaded, found, heads⟩ := filed.reads sooner
      refine ⟨loaded, ?_, heads.mono adds.grows⟩
      have different : (other.id == added.table.id) = false := by
        refine beq_eq_false_iff_ne.2 fun same => ?_
        rw [← same, found] at absent
        cases absent
      show List.lookup other.id ((added.table.id, _) :: query.tables) = some loaded
      rw [List.lookup_cons, different]
      exact found
  · show (Catalog.Entries.addTable _ added.table.named _).toCatalog.statistics? other.named = _
    rw [Catalog.Entries.statistics?_addTable]
    rcases split_concat split with ⟨rfl, rfl, rfl⟩ | ⟨rest, rfl, sooner⟩
    · rw [if_pos rfl, filed.nextColumn_eq]
    · rw [if_neg fun same => last added.table (by simp) same.symm]
      exact filed.statistics sooner fun one member => last one (List.mem_append_left _ member)

theorem Filed.addTables {V : Type} {I : Interpretation V} {strict : Prop}
    {before tables : List TableRequest} (filed : query.Filed before)
    (unsearched : query.memo.Unsearched I strict)
    (done : tables.foldlM JoinQuery.addTable query = .ok next) :
    next.memo.Unsearched I strict ∧ next.Filed (before ++ tables) := by
  induction tables generalizing query before with
  | nil =>
    cases pure_eq_ok_iff.1 done
    exact ⟨unsearched, (List.append_nil before).symm ▸ filed⟩
  | cons table tables ih =>
    rw [List.foldlM_cons] at done
    obtain ⟨middle, one, done⟩ := bind_eq_ok_iff.1 done
    obtain ⟨unsearched, filed⟩ := filed.addTable unsearched one
    have final := ih filed unsearched done
    rwa [List.append_assoc] at final

/-- A query after more was loaded into its memo. -/
structure Extends (query next : JoinQuery) : Prop where
  catalog_eq : next.catalog = query.catalog
  tables_eq : next.tables = query.tables
  keeps : query.memo.Keeps next.memo

theorem Extends.refl (query : JoinQuery) : query.Extends query := ⟨rfl, rfl, .refl _⟩

theorem Extends.trans {last : JoinQuery} (first : query.Extends next) (second : next.Extends last) :
    query.Extends last :=
  ⟨second.catalog_eq.trans first.catalog_eq, second.tables_eq.trans first.tables_eq,
    first.keeps.trans second.keeps⟩

theorem insert_extends {operator : Operator} {children : List GroupId} {group : GroupId}
    (done : query.insert operator children = .ok (group, next)) : query.Extends next := by
  obtain ⟨⟨number, memo⟩, inserted, done⟩ := bind_eq_ok_iff.1 done
  obtain ⟨expr, _, done⟩ := bind_eq_ok_iff.1 done
  cases pure_eq_ok_iff.1 done
  exact ⟨rfl, rfl, insert_keeps (lift_requestError_eq_ok_iff.1 inserted)⟩

theorem addEdge_extends {edge : EdgeRequest} {conjunct : GroupId}
    (done : query.addEdge edge = .ok (conjunct, next)) : query.Extends next := by
  unfold JoinQuery.addEdge at done
  split at done
  · cases done
  · obtain ⟨_, _, done⟩ := bind_eq_ok_iff.1 done
    obtain ⟨_, _, done⟩ := bind_eq_ok_iff.1 done
    obtain ⟨⟨_, one⟩, left, done⟩ := bind_eq_ok_iff.1 done
    obtain ⟨⟨_, two⟩, right, done⟩ := bind_eq_ok_iff.1 done
    exact ((insert_extends left).trans (insert_extends right)).trans (insert_extends done)

theorem addEdges_extends {edges : List EdgeRequest} {conjuncts : List GroupId}
    (done : query.addEdges edges = .ok (conjuncts, next)) : query.Extends next := by
  induction edges generalizing query conjuncts with
  | nil =>
    cases pure_eq_ok_iff.1 done
    exact .refl _
  | cons edge edges ih =>
    obtain ⟨⟨_, middle⟩, one, done⟩ := bind_eq_ok_iff.1 done
    obtain ⟨⟨_, last⟩, more, done⟩ := bind_eq_ok_iff.1 done
    cases pure_eq_ok_iff.1 done
    exact (addEdge_extends one).trans (ih more)

theorem addPredicate_extends {conjuncts : List GroupId} {predicate : GroupId}
    (done : query.addPredicate conjuncts = .ok (predicate, next)) : query.Extends next := by
  rcases conjuncts with _ | ⟨single, _ | ⟨second, rest⟩⟩
  · exact insert_extends done
  · cases pure_eq_ok_iff.1 done
    exact .refl _
  · exact insert_extends done

/-! ### What is derived -/

section Derived

variable {table last : TableRequest} {first : ColumnId} {catalog : Catalog} {columns : List Column}
  (known : catalog.statistics? table.named = some (statisticsOf last (numberColumns last first)))

theorem keys_numberColumns :
    (((numberColumns last first).map fun (column, statistics) => (column.id, statistics)).map
      Prod.fst) = last.columnIdsFrom first := by
  unfold TableRequest.columnIdsFrom TableRequest.columnsFrom
  rw [List.map_map, List.map_map]
  rfl

theorem hasColumn_statisticsOf {column : ColumnId} :
    (statisticsOf last (numberColumns last first)).hasColumn column = true ↔
      column ∈ last.columnIdsFrom first := by
  rw [← keys_numberColumns, List.mem_map]
  refine ColumnMap.contains_ofList.trans ⟨?_, ?_⟩
  · rintro ⟨value, member⟩
    exact ⟨_, member, rfl⟩
  · rintro ⟨⟨_, value⟩, member, rfl⟩
    exact ⟨value, member⟩

include known

/-- **A table has the statistics that its text is filed with.** -/
theorem describes_ofTable :
    last.Describes first (Statistics.ofTable catalog table.named columns) := by
  refine ⟨?_, ?_, fun position column there => ?_⟩
  · unfold Statistics.ofTable
    rw [known]
    rfl
  · unfold Statistics.ofTable
    rw [known]
    rfl
  · have filed : (statisticsOf last (numberColumns last first)).columns.get? (first + position) =
        some ⟨column.distinct, column.nullFraction, column.averageSize⟩ := by
      refine ColumnMap.get?_ofList ?_ ?_
      · rw [keys_numberColumns, TableRequest.columnIdsFrom_eq]
        exact List.nodup_range'
      · have listed : (column, position) ∈ last.columns.zipIdx :=
          List.mem_zipIdx_iff_getElem?.2 there
        exact List.mem_map.2 ⟨_, List.mem_map_of_mem listed, rfl⟩
    rw [Statistics.get?_ofTable, known]
    show Option.or (ColumnMap.get? _ _) _ = _
    rw [Option.getD_some, filed, Option.some_or]

theorem hasColumn_ofTable_iff {column : ColumnId} :
    (Statistics.ofTable catalog table.named columns).hasColumn column = true ↔
      column ∈ columns.map Column.id ∨ column ∈ last.columnIdsFrom first := by
  rw [Statistics.hasColumn_ofTable, known, Option.getD_some, hasColumn_statisticsOf]

/-- A column that is not filed with a table has as many distinct values as rows. -/
theorem get?_ofTable_of_unknown {column : ColumnId} (member : column ∈ columns.map Column.id)
    (unknown : column ∉ last.columnIdsFrom first) :
    (Statistics.ofTable catalog table.named columns).columns.get? column =
      some { distinct := last.rows } := by
  have absent : (statisticsOf last (numberColumns last first)).columns.get? column = none :=
    Option.not_isSome_iff_eq_none.1 fun there => unknown (hasColumn_statisticsOf.1 there)
  rw [Statistics.get?_ofTable, known]
  show Option.or (ColumnMap.get? _ _) _ = _
  rw [Option.getD_some, absent, if_pos member, Option.none_or]
  rfl

end Derived

/-- **The statistics of the tables of a request.** Each table is read with columns of its own. Where no
later table has its text, its group has its statistics and knows its columns only. Otherwise the group
has those of the last table with its text and knows the columns of both; its own ones are taken to have
as many distinct values as there are rows. -/
theorem ofRequest_statistics {request : JoinRequest} (done : ofRequest request = .ok query)
    {before after : List TableRequest} {table : TableRequest}
    (split : request.tables = before ++ table :: after) :
    ∃ loaded statistics, query.tables.lookup table.id = some loaded ∧
      query.memo.Heads loaded.group
        (.logical (.get table.named (table.columnsFrom (firstColumn before)))) [] ∧
      Statistics.ofGroup query.memo query.catalog loaded.group = .ok statistics ∧
      -- without a later table of its text
      ((∀ other ∈ after, other.text ≠ table.text) →
        table.Describes (firstColumn before) statistics ∧
          ∀ column, statistics.hasColumn column = true ↔
            column ∈ table.columnIdsFrom (firstColumn before)) ∧
      -- with one
      ∀ {between last later}, after = between ++ last :: later → last.text = table.text →
        (∀ other ∈ later, other.text ≠ table.text) →
          last.Describes (firstColumn (before ++ table :: between)) statistics ∧
            (∀ column, statistics.hasColumn column = true ↔
              column ∈ table.columnIdsFrom (firstColumn before) ∨
                column ∈ last.columnIdsFrom (firstColumn (before ++ table :: between))) ∧
            ∀ column ∈ table.columnIdsFrom (firstColumn before),
              statistics.columns.get? column = some { distinct := last.rows } := by
  obtain ⟨one, two, three, four, conjuncts, predicate, root, tables, edges, predicateDone,
    rootDone, rfl, _⟩ := ofRequest_cases done
  have empty : Memo.empty.Unsearched (.ofTables fun _ _ => 0) False := empty_unsearched
  obtain ⟨unsearched, filed⟩ := empty_filed.addTables empty tables
  rw [List.nil_append] at filed
  have more : one.Extends four := ((addEdges_extends edges).trans
    (addPredicate_extends predicateDone)).trans (insert_extends rootDone)
  obtain ⟨valid, grows⟩ := more.keeps unsearched.sound.toValid
  obtain ⟨loaded, found, heads⟩ := filed.reads split
  replace heads := heads.mono grows
  refine ⟨loaded, _, more.tables_eq ▸ found, heads, Statistics.ofGroup_get valid.toLinked heads,
    fun alone => ?_, fun {between last later} behind same alone => ?_⟩
  · have known := more.catalog_eq.symm ▸ filed.statistics split alone
    refine ⟨describes_ofTable known, fun column => ?_⟩
    rw [hasColumn_ofTable_iff known]
    exact or_self_iff
  · have place : request.tables = (before ++ table :: between) ++ last :: later := by
      rw [split, behind]
      simp
    have known : four.catalog.toCatalog.statistics? table.named = some (statisticsOf last
        (numberColumns last (firstColumn (before ++ table :: between)))) := by
      have filedLast := filed.statistics place (same ▸ alone)
      rw [more.catalog_eq, ← filedLast]
      exact (congrArg (fun text => (one.catalog.tables.lookup text).map (·.statistics)) same).symm
    refine ⟨describes_ofTable known, fun column => hasColumn_ofTable_iff known,
      fun column member => get?_ofTable_of_unknown known member fun late => ?_⟩
    -- The columns of the later table have greater numbers.
    rw [TableRequest.columnIdsFrom_eq, List.mem_range'_1] at member late
    rw [firstColumn_append, List.map_cons, List.sum_cons] at late
    omega

/-- The orders of a day, items, and all orders: two extents of one table. -/
def ordersTwice : JoinRequest where
  tables := [
    { id := "day", schema := "shop", name := "orders", rows := 10, size := none
      columns := [{ name := "id", distinct := 10, nullFraction := 0, averageSize := 8 }] },
    { id := "items", schema := "shop", name := "items", rows := 50, size := some 400
      columns := [{ name := "order", distinct := 20, nullFraction := 0, averageSize := 8 }] },
    { id := "all", schema := "shop", name := "orders", rows := 1000, size := none
      columns := [{ name := "id", distinct := 1000, nullFraction := 0, averageSize := 8 }] }]
  edges := []

theorem ofRequest_statistics_ordersTwice :
    ∃ query, ofRequest ordersTwice = .ok query ∧
      (∃ loaded statistics, query.tables.lookup "items" = some loaded ∧
        Statistics.ofGroup query.memo query.catalog loaded.group = .ok statistics ∧
        statistics.rows = 50 ∧ statistics.size = 400 ∧
        statistics.columns.get? 2 = some { distinct := 20 } ∧
        ∀ column, statistics.hasColumn column = true ↔ column = 2) ∧
      ∃ loaded statistics, query.tables.lookup "day" = some loaded ∧
        Statistics.ofGroup query.memo query.catalog loaded.group = .ok statistics ∧
        statistics.rows = 1000 ∧ statistics.columns.get? 1 = some { distinct := 1000 } ∧
        ∀ column, statistics.hasColumn column = true ↔ column = 1 ∨ column = 3 := by
  have loads : (ofRequest ordersTwice).toOption.isSome = true := by decide +kernel
  obtain ⟨query, given⟩ := Option.isSome_iff_exists.1 loads
  have done := toOption_eq_some_iff.1 given
  refine ⟨query, done, ?_, ?_⟩
  · have items : ordersTwice.tables =
        [ordersTwice.tables[0]] ++ ordersTwice.tables[1] :: [ordersTwice.tables[2]] := rfl
    obtain ⟨loaded, statistics, found, _, derived, alone, _⟩ := ofRequest_statistics done items
    obtain ⟨describes, knows⟩ := alone (by decide)
    exact ⟨loaded, statistics, found, derived, describes.rows, describes.size,
      describes.columns 0 _ rfl, fun column => (knows column).trans List.mem_singleton⟩
  · have day : ordersTwice.tables = [] ++ ordersTwice.tables[0] :: ordersTwice.tables.tail := rfl
    have all : ordersTwice.tables.tail = [ordersTwice.tables[1]] ++ ordersTwice.tables[2] :: [] := rfl
    obtain ⟨loaded, statistics, found, _, derived, _, shared⟩ := ofRequest_statistics done day
    obtain ⟨describes, knows, unknown⟩ := shared all rfl (List.forall_mem_nil _)
    refine ⟨loaded, statistics, found, derived, describes.rows, unknown 1 (.head _),
      fun column => (knows column).trans ?_⟩
    exact or_congr List.mem_singleton List.mem_singleton

/-- **Tables with one text are taken for one another**: the statistics of the first of two tables know
the column of the second one. -/
theorem ofRequest_mixes_statistics :
    ∃ query loaded statistics, ofRequest ordersTwice = .ok query ∧
      query.tables.lookup "day" = some loaded ∧
      loaded.columns.map (fun named => named.2.id) = [1] ∧
      Statistics.ofGroup query.memo query.catalog loaded.group = .ok statistics ∧
      statistics.hasColumn 3 = true := by
  have results : ((ofRequest ordersTwice).toOption.bind fun query =>
      (query.tables.lookup "day").bind fun loaded =>
        (Statistics.ofGroup query.memo query.catalog loaded.group).toOption.map fun statistics =>
          (loaded.columns.map fun named => named.2.id, statistics.hasColumn 3)) =
        some ([1], true) := by
    decide +kernel
  obtain ⟨query, given, results⟩ := Option.bind_eq_some_iff.1 results
  obtain ⟨loaded, found, results⟩ := Option.bind_eq_some_iff.1 results
  obtain ⟨statistics, derived, shown⟩ := Option.map_eq_some_iff.1 results
  obtain ⟨own, other⟩ := Prod.mk.inj shown
  exact ⟨query, loaded, statistics, toOption_eq_some_iff.1 given, found, own,
    toOption_eq_some_iff.1 derived, other⟩

end JoinQuery

end Cascades
