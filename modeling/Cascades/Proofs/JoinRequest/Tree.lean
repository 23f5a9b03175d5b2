/-
**Trees of joins.**

A plan of a group shows as a tree whose leaves are the tables that the group holds. Where every
conjunct of a join lies across the inputs of the join, the conditions of the tree are the equalities
that the group holds, each with the column of a table below the left input first.

* `AnswerTree.Applies`: the equalities that a tree applies, each between the two inputs of a join;
* `JoinQuery.Shows`: a tree has the tables and the equalities that some groups are;
* `Plan.Tree.shows`: the tree of a plan.
-/

import Cascades.JoinRequest.Answer
import Cascades.Proofs.Gathering.Exploration
import Cascades.Proofs.JoinRequest.Loading
import Cascades.Proofs.Plan.Implementable
import Cascades.Proofs.Plan.Tree
import Mathlib.Data.Sym.Sym2

namespace Cascades

open Memo Interpretation JoinQuery

variable {V : Type} {I : Interpretation V} {strict : Prop}

/-! ### What a tree applies -/

/-- The columns that an edge equates, each with its table. -/
def EdgeRequest.ends (edge : EdgeRequest) : (String × String) × String × String :=
  ((edge.leftTable, edge.leftColumn), (edge.rightTable, edge.rightColumn))

/-- The columns of an edge as a condition shows them, without their order. -/
def EdgeRequest.pair (edge : EdgeRequest) : Sym2 String :=
  s(qualified edge.ends.1, qualified edge.ends.2)

/-- The columns of a condition, without their order. -/
def JoinCondition.pair (condition : JoinCondition) : Sym2 String :=
  s(condition.left, condition.right)

/-- A condition equates two columns, the one from the left tables first. -/
inductive JoinCondition.Applies (leftTables rightTables : List String) :
    (String × String) × String × String → JoinCondition → Prop
  | straight {first second : String × String} : first.1 ∈ leftTables → second.1 ∈ rightTables →
      Applies leftTables rightTables (first, second) ⟨qualified first, qualified second⟩
  | turned {first second : String × String} : second.1 ∈ leftTables → first.1 ∈ rightTables →
      Applies leftTables rightTables (first, second) ⟨qualified second, qualified first⟩

theorem JoinCondition.Applies.pair_eq {leftTables rightTables : List String}
    {ends : (String × String) × String × String} {condition : JoinCondition}
    (applies : condition.Applies leftTables rightTables ends) :
    condition.pair = s(qualified ends.1, qualified ends.2) := by
  cases applies with
  | straight => rfl
  | turned => exact Sym2.eq_swap

namespace AnswerTree

/-- The conditions of all joins of a tree. -/
def conditions : AnswerTree → List JoinCondition
  | table _ => []
  | join _ conditions left right => conditions ++ left.conditions ++ right.conditions

/-- Each condition of a tree equates two columns, the first from a table below the left input of
its join and the second from one below the right input. -/
inductive Applies : AnswerTree → List ((String × String) × String × String) → Prop
  | table {id : String} : Applies (.table id) []
  | join {algorithm : String} {conditions : List JoinCondition} {left right : AnswerTree}
      {here below beside : List ((String × String) × String × String)} :
      List.Forall₂ (fun ends condition => JoinCondition.Applies left.tables right.tables ends condition)
        here conditions →
      Applies left below → Applies right beside →
      Applies (.join algorithm conditions left right) (here ++ below ++ beside)

/-- A tree has a condition for each pair of columns that it equates. -/
theorem Applies.map_pair {tree : AnswerTree} {applied : List ((String × String) × String × String)}
    (applies : tree.Applies applied) : tree.conditions.map JoinCondition.pair =
      applied.map fun ends => s(qualified ends.1, qualified ends.2) := by
  induction applies with
  | table => rfl
  | @join _ conditions left right here below beside each _ _ one two =>
    have own : conditions.map JoinCondition.pair =
        here.map fun ends => s(qualified ends.1, qualified ends.2) := by
      clear one two
      induction each with
      | nil => rfl
      | cons applies _ ih => rw [List.map_cons, List.map_cons, applies.pair_eq, ih]
    show (conditions ++ left.conditions ++ right.conditions).map _ = _
    simp only [List.map_append, own, one, two]

end AnswerTree

namespace JoinQuery

variable {query : JoinQuery} {memo : Memo} {placed : List PlacedTable} {edges : List EdgeRequest}
  {held : Multiset GroupId} {id : GroupId}

/-! ### Names -/

theorem Places.tableNames_eq_map (places : query.Places memo placed) :
    query.tableNames = placed.reverse.map fun table => (table.group, table.table.id) := by
  rw [places.tableNames_eq, List.map_reverse]

/-- A name belongs to a table. -/
theorem Places.exists_named (places : query.Places memo placed) {name : String}
    (found : query.tableNames.lookup id = some name) :
    ∃ table ∈ placed, table.group = id ∧ table.table.id = name := by
  rw [places.tableNames_eq_map] at found
  obtain ⟨table, member, same⟩ := List.mem_map.1 (mem_of_lookup found)
  obtain ⟨rfl, rfl⟩ := Prod.mk.inj same
  exact ⟨table, List.mem_reverse.1 member, rfl, rfl⟩

theorem Places.exists_name (places : query.Places memo placed) {table : PlacedTable}
    (member : table ∈ placed) : ∃ name, query.tableNames.lookup table.group = some name := by
  rw [places.tableNames_eq_map, lookup_map]
  refine Option.isSome_iff_exists.1 (Option.isSome_map.trans (List.find?_isSome.2 ?_))
  exact ⟨table, List.mem_reverse.2 member, beq_self_eq_true _⟩

/-- A table with a column shares its group with no other table, so its group has its name. -/
theorem Places.lookup_name (places : query.Places memo placed) (linked : memo.Linked)
    {table : PlacedTable} (member : table ∈ placed) {column : ColumnId}
    (among : column ∈ table.columnIds) :
    query.tableNames.lookup table.group = some table.table.id := by
  obtain ⟨name, found⟩ := places.exists_name member
  obtain ⟨other, memberToo, same, rfl⟩ := places.exists_named found
  rcases (places.group_eq_iff linked member memberToo).1 same.symm with rfl | ⟨none, _⟩
  · exact found
  · rw [PlacedTable.columnIds, none] at among
    cases among

/-- A predicate is no table. -/
theorem Places.lookup_predicate (places : query.Places memo placed) (sound : memo.Sound I)
    (predicate : memo.IsPredicate I id) : query.tableNames.lookup id = none := by
  refine Option.eq_none_iff_forall_not_mem.2 fun name found => ?_
  obtain ⟨table, member, rfl, _⟩ := places.exists_named found
  have relational := (places.isRelation sound member).2
  rw [predicate.2] at relational
  cases relational

/-- The columns that a group equates, each with its table. -/
def ends? (query : JoinQuery) (memo : Memo) (id : GroupId) :
    Option ((String × String) × String × String) := do
  let (first, second) ← (memo.equalColumns? id).toOption.join
  return (← query.columnNames.lookup first, ← query.columnNames.lookup second)

/-- The names of the columns of an equality are those of its edge. -/
theorem Places.lookup_ends (places : query.Places memo placed) {edge : EdgeRequest}
    {left right : PlacedTable} {leftColumn rightColumn : Column}
    (equality : Equality memo placed edge id left right leftColumn rightColumn) :
    query.columnNames.lookup leftColumn.id = some edge.ends.1 ∧
      query.columnNames.lookup rightColumn.id = some edge.ends.2 := by
  have leftEnd : (left.table.id, leftColumn.name) = edge.ends.1 :=
    Prod.ext equality.left_has.table_eq equality.left_has.name_eq
  have rightEnd : (right.table.id, rightColumn.name) = edge.ends.2 :=
    Prod.ext equality.right_has.table_eq equality.right_has.name_eq
  rw [← leftEnd, ← rightEnd]
  exact ⟨places.lookup_column equality.left_mem equality.left_has.member,
    places.lookup_column equality.right_mem equality.right_has.member⟩

theorem Places.ends?_eq (places : query.Places memo placed) (valid : memo.Valid) {edge : EdgeRequest}
    (equates : Equates memo placed edge id) : query.ends? memo id = some edge.ends := by
  obtain ⟨left, right, leftColumn, rightColumn, equality⟩ := equates
  obtain ⟨leftEnd, rightEnd⟩ := places.lookup_ends equality
  simp [ends?, equality.equalColumns?_eq valid, leftEnd, rightEnd, Except.toOption]

/-- A relation equates nothing. -/
theorem ends?_relation (sound : memo.Sound I) (relation : memo.IsRelation I id) :
    query.ends? memo id = none := by
  obtain ⟨group, there⟩ := group_of_lt relation.1
  have family := relation.2
  rw [sound.isScalar_sense there] at family
  have none : memo.scalarFirst? id = none := by simp [scalarFirst?, there, family]
  have known : memo.group id = .ok group := by simp [Memo.group, there]
  simp [ends?, equalColumns?, known, none, Except.toOption, bind, Except.bind, pure, Except.pure]

/-! ### Tables and equalities that are held -/

/-- Some groups are tables and equalities of edges. -/
def Stocked (memo : Memo) (placed : List PlacedTable) (edges : List EdgeRequest)
    (held : Multiset GroupId) : Prop :=
  ∀ atom ∈ held, (∃ table ∈ placed, table.group = atom) ∨ ∃ edge ∈ edges, Equates memo placed edge atom

/-- **A tree shows some groups**: its leaves are their tables, and where conjuncts lie across the
inputs of joins, it applies their equalities. -/
structure Shows (strict : Prop) (query : JoinQuery) (memo : Memo) (held : Multiset GroupId)
    (tree : AnswerTree) : Prop where
  tables_eq : (tree.tables : Multiset String) = held.filterMap fun id => query.tableNames.lookup id
  applies : strict → ∃ applied : List ((String × String) × String × String), tree.Applies applied ∧
    (applied : Multiset _) = held.filterMap (query.ends? memo)

/-- A table is below a tree that shows some groups if these have a column of it. -/
theorem Shows.mem_tables_iff {tree : AnswerTree} (shows : query.Shows strict memo held tree)
    (places : query.Places memo placed) (sound : memo.Sound I)
    (stocked : Stocked memo placed edges held) {table : PlacedTable} (member : table ∈ placed)
    {column : ColumnId} (among : column ∈ table.columnIds) :
    table.table.id ∈ tree.tables ↔ memo.Makes I held column := by
  have linked := sound.toLinked
  rw [← Multiset.mem_coe, shows.tables_eq, Multiset.mem_filterMap]
  constructor
  · rintro ⟨atom, inside, found⟩
    obtain ⟨other, memberToo, rfl, same⟩ := places.exists_named found
    obtain rfl := places.table_eq memberToo member same
    exact ⟨_, inside, (places.isRelation sound member).2, (places.mem_columns_iff linked member).2 among⟩
  · rintro ⟨atom, inside, relational, made⟩
    rcases stocked atom inside with ⟨other, memberToo, rfl⟩ | ⟨_, _, _, _, _, _, equality⟩
    · obtain rfl := places.owner_eq memberToo member ((places.mem_columns_iff linked memberToo).1 made)
        among
      exact ⟨_, inside, places.lookup_name linked member among⟩
    · rw [(equality.isConjunct sound).isPredicate.2] at relational
      cases relational

/-- Where no group has a partner there are no partners. -/
theorem filterMap_eq_zero {β : Type} {partner : GroupId → Option β}
    (none : ∀ atom ∈ held, partner atom = none) : held.filterMap partner = 0 := by
  refine Multiset.eq_zero_of_forall_notMem fun value member => ?_
  obtain ⟨atom, inside, found⟩ := (Multiset.mem_filterMap _ _).1 member
  rw [none atom inside] at found
  cases found

/-- Predicates have no names. -/
theorem Places.filterMap_predicate (places : query.Places memo placed) (sound : memo.Sound I)
    (predicate : memo.IsPredicate I id) :
    ((memo.contents id).filterMap fun atom => query.tableNames.lookup atom) = 0 :=
  filterMap_eq_zero fun atom inside =>
    places.lookup_predicate sound (predicate.of_mem_contents sound atom inside).isPredicate

/-- A leaf shows a table. -/
theorem Places.shows_table (places : query.Places memo placed) (sound : memo.Sound I)
    {table : PlacedTable} (member : table ∈ placed) (other : String) :
    query.Shows strict memo {table.group}
      (.table ((query.tableNames.lookup table.group).getD other)) := by
  obtain ⟨name, found⟩ := places.exists_name member
  refine ⟨?_, fun _ => ⟨[], .table, ?_⟩⟩
  · rw [found]
    exact (Multiset.filterMap_cons_some _ table.group 0 found).symm
  · refine (filterMap_eq_zero fun atom inside => ?_).symm
    rw [Multiset.mem_singleton.1 inside]
    exact ends?_relation sound (places.isRelation sound member)

variable {leftHeld rightHeld applied : Multiset GroupId}
  {leftTree rightTree tree : AnswerTree}

/-- A selection without conjuncts shows what its input shows. -/
theorem Shows.filter (shows : query.Shows strict memo held tree)
    (names : (applied.filterMap fun atom => query.tableNames.lookup atom) = 0)
    (none : strict → applied = 0) : query.Shows strict memo (held + applied) tree := by
  refine ⟨?_, fun asked => ?_⟩
  · rw [Multiset.filterMap_add, names, add_zero, shows.tables_eq]
  · rw [none asked, add_zero]
    exact shows.applies asked

/-- A join shows what its inputs show, and the conjuncts that it applies. -/
theorem Shows.join (left : query.Shows strict memo leftHeld leftTree)
    (right : query.Shows strict memo rightHeld rightTree)
    (names : (applied.filterMap fun atom => query.tableNames.lookup atom) = 0) (algorithm : String)
    {conditions : List JoinCondition} (here : List ((String × String) × String × String))
    (shown : strict → List.Forall₂ (fun ends condition =>
      JoinCondition.Applies leftTree.tables rightTree.tables ends condition) here conditions)
    (all : (here : Multiset _) = applied.filterMap (query.ends? memo)) :
    query.Shows strict memo (leftHeld + rightHeld + applied)
      (.join algorithm conditions leftTree rightTree) := by
  refine ⟨?_, fun asked => ?_⟩
  · show ((leftTree.tables ++ rightTree.tables : List String) : Multiset String) = _
    rw [← Multiset.coe_add, left.tables_eq, right.tables_eq, Multiset.filterMap_add,
      Multiset.filterMap_add, names, add_zero]
  · obtain ⟨below, appliesBelow, allBelow⟩ := left.applies asked
    obtain ⟨beside, appliesBeside, allBeside⟩ := right.applies asked
    refine ⟨_, .join (shown asked) appliesBelow appliesBeside, ?_⟩
    rw [← Multiset.coe_add, ← Multiset.coe_add, all, allBelow, allBeside, Multiset.filterMap_add,
      Multiset.filterMap_add, add_assoc]
    exact add_comm _ _

/-- **Equalities lie between the inputs of a join.** One of the tables of an equality is below the
left input and the other one below the right input. -/
theorem Shows.orients (left : query.Shows strict memo leftHeld leftTree)
    (right : query.Shows strict memo rightHeld rightTree) (places : query.Places memo placed)
    (sound : memo.Sound I) (leftStocked : Stocked memo placed edges leftHeld)
    (rightStocked : Stocked memo placed edges rightHeld) {edge : EdgeRequest}
    (equates : Equates memo placed edge id) (across : memo.Across I [leftHeld, rightHeld] id) :
    edge.leftTable ∈ leftTree.tables ∧ edge.rightTable ∈ rightTree.tables ∨
      edge.leftTable ∉ leftTree.tables ∧ edge.rightTable ∈ leftTree.tables ∧
        edge.leftTable ∈ rightTree.tables := by
  obtain ⟨first, second, leftColumn, rightColumn, equality⟩ := equates
  have firstAmong : leftColumn.id ∈ first.columnIds :=
    List.mem_map_of_mem equality.left_has.member
  have secondAmong : rightColumn.id ∈ second.columnIds :=
    List.mem_map_of_mem equality.right_has.member
  rw [← equality.left_has.table_eq, ← equality.right_has.table_eq,
    left.mem_tables_iff places sound leftStocked equality.left_mem firstAmong,
    left.mem_tables_iff places sound leftStocked equality.right_mem secondAmong,
    right.mem_tables_iff places sound rightStocked equality.left_mem firstAmong,
    right.mem_tables_iff places sound rightStocked equality.right_mem secondAmong]
  obtain ⟨covered, inLeft, inRight⟩ := across_pair_iff.1 across
  simp only [equality.mem_free_iff sound.toLinked, forall_eq_or_imp, forall_eq, or_and_right,
    exists_or, exists_eq_left] at covered inLeft inRight
  tauto

/-- The conditions of a join are its equalities, the column from the left input first. -/
theorem Places.conditions_applies (places : query.Places memo placed) (valid : memo.Valid)
    {predicate : GroupId} {leftTables rightTables : List String} {conditions : List JoinCondition}
    (done : query.conditions memo predicate leftTables = .ok conditions)
    (each : ∀ conjunct ∈ memo.conjuncts predicate, ∃ edge, Equates memo placed edge conjunct ∧
      (edge.leftTable ∈ leftTables ∧ edge.rightTable ∈ rightTables ∨
        edge.leftTable ∉ leftTables ∧ edge.rightTable ∈ leftTables ∧ edge.leftTable ∈ rightTables)) :
    List.Forall₂ (fun ends condition => JoinCondition.Applies leftTables rightTables ends condition)
      ((memo.conjuncts predicate).filterMap (query.ends? memo)) conditions := by
  obtain ⟨pairs, first, last⟩ := bind_eq_ok_iff.1 done
  obtain ⟨found, every, second⟩ := bind_eq_ok_iff.1 first
  cases pure_eq_ok_iff.1 second
  cases pure_eq_ok_iff.1 last
  clear done first second last
  replace every := mapM_eq_ok_iff.1 every
  generalize memo.conjuncts predicate = conjuncts at each every ⊢
  rw [List.filterMap_filterMap]
  induction every with
  | nil => exact .nil
  | @cons conjunct result conjuncts results one _ ih =>
    obtain ⟨edge, equates, lies⟩ := each conjunct List.mem_cons_self
    have others := ih fun other member => each other (List.mem_cons_of_mem _ member)
    have ends := places.ends?_eq valid equates
    obtain ⟨left, right, leftColumn, rightColumn, equality⟩ := equates
    obtain ⟨leftEnd, rightEnd⟩ := places.lookup_ends equality
    rw [equality.equalColumns?_eq valid] at one
    obtain rfl := Except.ok.inj one
    rw [List.filterMap_cons_some ends]
    rcases lies with ⟨inLeft, inRight⟩ | ⟨notLeft, inLeft, inRight⟩
    · have there : edge.ends.1.1 ∈ leftTables := inLeft
      rw [List.filterMap_cons_some (b := ⟨qualified edge.ends.1, qualified edge.ends.2⟩)
        (by simp [leftEnd, rightEnd, there])]
      exact .cons (.straight inLeft inRight) others
    · have there : edge.ends.1.1 ∉ leftTables := notLeft
      rw [List.filterMap_cons_some (b := ⟨qualified edge.ends.2, qualified edge.ends.1⟩)
        (by simp [leftEnd, rightEnd, there])]
      exact .cons (.turned inLeft inRight) others

end JoinQuery

/-! ### Plans -/

/-- **A selection or an inner join** of a gathered memo holds what its inputs hold and its conjuncts,
which lie across the inputs. -/
theorem Memo.Gathered.joining {memo : Memo} (gathered : memo.Gathered I strict) (sound : memo.Sound I)
    {number : ExprId} {expr : Expr} (stored : memo.exprs[number]? = some expr) {logical : LogicalOp}
    (computes : expr.operator.logical? = some logical) (joining : logical.isJoining = true) :
    ∃ sources predicate, expr.children = sources ++ [predicate] ∧
      memo.relationalChildren expr = sources ∧ memo.IsPredicate I predicate ∧
      memo.contents expr.group = (sources.map memo.contents).sum + memo.contents predicate ∧
      (strict → ∀ conjunct ∈ memo.contents predicate,
        memo.Across I (sources.map memo.contents) conjunct) := by
  obtain ⟨sources, predicate, shape, relations, isPredicate, _, _⟩ :=
    sound.joining stored computes joining
  have accords := gathered number expr stored
  have gathers := (Operator.gathers_of_logical computes).trans joining
  have parts : expr.children.map memo.contents =
      sources.map memo.contents ++ [memo.contents predicate] := by
    rw [shape, List.map_append, List.map_singleton]
  refine ⟨sources, predicate, shape, ?_, isPredicate, ?_, fun asked => ?_⟩
  · have relational : ∀ source ∈ sources, (!memo.isScalarGroup source) = true := by
      intro source member
      rw [sound.isScalarGroup_eq (I := I) (relations source member).1, (relations source member).2]
      rfl
    have scalar : (!memo.isScalarGroup predicate) = false := by
      rw [sound.isScalarGroup_eq (I := I) isPredicate.1, isPredicate.2]
      rfl
    rw [relationalChildren, shape, List.filter_append, List.filter_eq_self.2 relational,
      List.filter_cons_of_neg (by simp [scalar]), List.filter_nil, List.append_nil]
  · rw [← accords.holds, Operator.gather_of_gathers gathers, parts, List.sum_append,
      List.sum_singleton]
  · have family : expr.operator.isScalar = false := by
      cases kind : expr.operator with
      | scalar operator =>
        rw [kind] at computes
        cases computes
      | logical operator => rfl
      | physical operator => rfl
    have spans := accords.spans asked family gathers
    rw [parts] at spans
    exact spans_append_iff.1 spans

/-- A relational input of such an expression holds a part of what the expression holds. -/
theorem Memo.Gathered.mem_of_child {memo : Memo} (gathered : memo.Gathered I strict)
    (sound : memo.Sound I) {number : ExprId} {expr : Expr} (stored : memo.exprs[number]? = some expr)
    {logical : LogicalOp} (computes : expr.operator.logical? = some logical)
    (joining : logical.isJoining = true) (child : GroupId)
    (below : child ∈ memo.relationalChildren expr) :
    ∀ atom ∈ memo.contents child, atom ∈ memo.contents expr.group := by
  obtain ⟨sources, predicate, _, rfl, _, contents, _⟩ :=
    gathered.joining sound stored computes joining
  intro atom inside
  rw [contents]
  exact Multiset.mem_add.2 (Or.inl (mem_sum.2 ⟨_, List.mem_map_of_mem below, inside⟩))

namespace JoinQuery

variable {query : JoinQuery} {memo : Memo} {placed : List PlacedTable} {edges : List EdgeRequest}
  {held : Multiset GroupId} {id : GroupId}

/-- A plan that has a tree scans a table, joins two inputs, or selects from one. -/
theorem treeOf_cases {operator : PhysicalOp} {group : GroupId} {number : ExprId} {cost : Cost}
    {rows : Float} {inputs : List Plan} {tree : AnswerTree}
    (done : query.treeOf memo (.node operator group number cost rows inputs) = .ok tree) :
    (∃ table columns, operator = .tableScan table columns ∧
      tree = .table ((query.tableNames.lookup group).getD table.name)) ∨
    (∃ type algorithm left right leftTree rightTree, operator.logical = .join type ∧
      inputs = [left, right] ∧ query.treeOf memo left = .ok leftTree ∧
      query.treeOf memo right = .ok rightTree ∧
      query.joinTree memo number algorithm leftTree rightTree = .ok tree) ∨
    ∃ input, operator = .filter ∧ inputs = [input] ∧ query.treeOf memo input = .ok tree := by
  unfold treeOf at done
  split at done
  · rename_i same
    cases same
    cases pure_eq_ok_iff.1 done
    exact Or.inl ⟨_, _, rfl, rfl⟩
  · rename_i same
    cases same
    obtain ⟨leftTree, one, done⟩ := bind_eq_ok_iff.1 done
    obtain ⟨rightTree, two, done⟩ := bind_eq_ok_iff.1 done
    exact Or.inr (Or.inl ⟨_, _, _, _, _, _, rfl, rfl, one, two, done⟩)
  · rename_i same
    cases same
    obtain ⟨leftTree, one, done⟩ := bind_eq_ok_iff.1 done
    obtain ⟨rightTree, two, done⟩ := bind_eq_ok_iff.1 done
    exact Or.inr (Or.inl ⟨_, _, _, _, _, _, rfl, rfl, one, two, done⟩)
  · cases done
  · cases done
  · rename_i same
    cases same
    exact Or.inr (Or.inr ⟨_, rfl, rfl, done⟩)
  · cases done

/-- The tree of a join has the conditions of its predicate. -/
theorem joinTree_eq_ok {number : ExprId} {algorithm : String} {left right tree : AnswerTree}
    {expr : Expr} {predicate : GroupId} (stored : memo.exprs[number]? = some expr)
    (last : expr.children[2]? = some predicate)
    (done : query.joinTree memo number algorithm left right = .ok tree) :
    ∃ conditions, query.conditions memo predicate left.tables = .ok conditions ∧
      tree = .join algorithm conditions left right := by
  obtain ⟨third, found, done⟩ := bind_eq_ok_iff.1 done
  obtain ⟨conditions, shown, done⟩ := bind_eq_ok_iff.1 done
  obtain ⟨expression, there, child⟩ := bind_eq_ok_iff.1 (lift_requestError_eq_ok_iff.1 found)
  cases pure_eq_ok_iff.1 done
  obtain rfl := Option.some.inj (stored.symm.trans (expr_ok_iff.1 there))
  obtain rfl := Option.some.inj (last.symm.trans (Expr.child_ok_iff.1 child))
  exact ⟨conditions, lift_requestError_eq_ok_iff.1 shown, rfl⟩

/-! ### The tree of a plan -/

theorem Stocked.mono {less : Multiset GroupId} (stocked : Stocked memo placed edges held)
    (within : ∀ atom ∈ less, atom ∈ held) : Stocked memo placed edges less :=
  fun atom inside => stocked atom (within atom inside)

/-- A predicate among tables and equalities is an equality. -/
theorem Stocked.exists_edge (stocked : Stocked memo placed edges held)
    (places : query.Places memo placed) (sound : memo.Sound I) (inside : id ∈ held)
    (predicate : memo.IsPredicate I id) : ∃ edge ∈ edges, Equates memo placed edge id := by
  rcases stocked id inside with ⟨table, member, rfl⟩ | equates
  · have relational := (places.isRelation sound member).2
    rw [predicate.2] at relational
    cases relational
  · exact equates

/-- A relation among tables and equalities is a table. -/
theorem Stocked.exists_table (stocked : Stocked memo placed edges held) (sound : memo.Sound I)
    (inside : id ∈ held) (relation : memo.IsRelation I id) :
    ∃ table ∈ placed, table.group = id := by
  rcases stocked id inside with table | ⟨_, _, _, _, _, _, equality⟩
  · exact table
  · have scalar := (equality.isConjunct sound).isPredicate.2
    rw [relation.2] at scalar
    cases scalar

section Plans

variable (places : query.Places memo placed) (sound : memo.Sound I)
  (gathered : memo.Gathered I strict) {number : ExprId} {expr : Expr} {operator : PhysicalOp}
  (stored : memo.exprs[number]? = some expr) (physical : expr.operator = .physical operator)
  (stocked : Stocked memo placed edges (memo.contents expr.group))

include places sound gathered stored physical stocked

/-- The tree of a scan. -/
theorem shows_scan (alone : operator.logical.isJoining = false) (other : String) :
    query.Shows strict memo (memo.contents expr.group)
      (.table ((query.tableNames.lookup expr.group).getD other)) := by
  have computes : expr.operator.logical? = some operator.logical := by rw [physical]; rfl
  have contents : memo.contents expr.group = {expr.group} := by
    rw [← (gathered number expr stored).holds]
    exact Operator.gather_of_not_gathers ((Operator.gathers_of_logical computes).trans alone)
  rw [contents] at stocked ⊢
  obtain ⟨_, there, _⟩ := sound.placed stored
  have relation : memo.IsRelation I expr.group := by
    refine ⟨lt_of_group there, ?_⟩
    rw [← sound.same stored, exprSense, isScalar_sense, physical]
    rfl
  obtain ⟨table, member, same⟩ :=
    stocked.exists_table sound (Multiset.mem_singleton_self _) relation
  rw [← same]
  exact places.shows_table sound member other

/-- The tree of a join over the trees of its inputs. -/
theorem shows_joinTree (joining : operator.logical.isJoining = true) {left right : GroupId}
    (inputs : memo.relationalChildren expr = [left, right]) {leftTree rightTree tree : AnswerTree}
    {algorithm : String} (leftShows : query.Shows strict memo (memo.contents left) leftTree)
    (rightShows : query.Shows strict memo (memo.contents right) rightTree)
    (done : query.joinTree memo number algorithm leftTree rightTree = .ok tree) :
    query.Shows strict memo (memo.contents expr.group) tree := by
  have computes : expr.operator.logical? = some operator.logical := by rw [physical]; rfl
  obtain ⟨sources, predicate, shape, same, isPredicate, contents, across⟩ :=
    gathered.joining sound stored computes joining
  obtain rfl : sources = [left, right] := same.symm.trans inputs
  obtain ⟨conditions, shown, rfl⟩ := joinTree_eq_ok stored (by rw [shape]; rfl) done
  have holds : memo.contents expr.group =
      memo.contents left + memo.contents right + memo.contents predicate := by
    rw [contents]
    simp
  rw [holds] at stocked ⊢
  have names := places.filterMap_predicate sound isPredicate
  have leftStocked := stocked.mono fun atom (inside : atom ∈ memo.contents left) =>
    Multiset.mem_add.2 (Or.inl (Multiset.mem_add.2 (Or.inl inside)))
  have rightStocked := stocked.mono fun atom (inside : atom ∈ memo.contents right) =>
    Multiset.mem_add.2 (Or.inl (Multiset.mem_add.2 (Or.inr inside)))
  refine leftShows.join rightShows names algorithm
    ((memo.conjuncts predicate).filterMap (query.ends? memo)) (fun asked => ?_) ?_
  · refine places.conditions_applies sound.toValid shown fun conjunct member => ?_
    have inside : conjunct ∈ memo.contents predicate := by
      rwa [← sound.conjuncts_eq isPredicate]
    obtain ⟨edge, _, equates⟩ := stocked.exists_edge places sound
      (Multiset.mem_add.2 (Or.inr inside))
      (isPredicate.of_mem_contents sound conjunct inside).isPredicate
    exact ⟨edge, equates, leftShows.orients rightShows places sound leftStocked rightStocked equates
      (across asked conjunct inside)⟩
  · rw [← sound.conjuncts_eq isPredicate, Multiset.filterMap_coe]

omit stocked in
/-- The tree of a selection over the tree of its input. -/
theorem shows_selection (joining : operator.logical.isJoining = true) {input : GroupId}
    (inputs : memo.relationalChildren expr = [input]) {tree : AnswerTree}
    (below : query.Shows strict memo (memo.contents input) tree) :
    query.Shows strict memo (memo.contents expr.group) tree := by
  have computes : expr.operator.logical? = some operator.logical := by rw [physical]; rfl
  obtain ⟨sources, predicate, shape, same, isPredicate, contents, across⟩ :=
    gathered.joining sound stored computes joining
  obtain rfl : sources = [input] := same.symm.trans inputs
  rw [contents, List.map_singleton, List.sum_singleton]
  refine below.filter (places.filterMap_predicate sound isPredicate) fun asked => ?_
  exact Multiset.eq_zero_of_forall_notMem fun conjunct inside =>
    not_across_single (across asked conjunct inside)

end Plans

/-- **The tree of a plan** shows the tables and the equalities that the group of the plan holds. -/
theorem shows_treeOf {setting : Plan.Setting} {group : GroupId} {plan : Plan}
    (linked : setting.memo.Linked) (grows : setting.memo.Grows memo)
    (places : query.Places memo placed) (sound : memo.Sound I) (gathered : memo.Gathered I strict)
    (planned : Plan.Tree setting group plan) (stocked : Stocked memo placed edges (memo.contents group))
    {tree : AnswerTree} (done : query.treeOf memo plan = .ok tree) :
    query.Shows strict memo (memo.contents group) tree := by
  induction planned generalizing tree with
  | @member number expr operator output inputs plan early physical _ count _ made ih =>
    obtain ⟨_, _, same⟩ := bind_eq_ok_iff.1 made
    obtain rfl := pure_eq_ok_iff.1 same
    have stored := grows.exprs early
    have children := grows.relationalChildren linked early
    have computes : expr.operator.logical? = some operator.logical := by rw [physical]; rfl
    have part := gathered.mem_of_child sound stored computes
    rw [← children] at count ih
    rcases treeOf_cases done with ⟨table, columns, rfl, rfl⟩ |
      ⟨type, algorithm, left, right, leftTree, rightTree, isJoin, rfl, one, two, joined⟩ |
      ⟨input, rfl, rfl, one⟩
    · exact shows_scan places sound gathered stored physical stocked rfl _
    · obtain ⟨first, second, both⟩ := List.length_eq_two.1 count
      have joining : operator.logical.isJoining = true := by
        rcases (gathered number expr stored).plain _ computes with joining | ⟨_, _, isGet⟩
        · exact joining
        · rw [isJoin] at isGet
          cases isGet
      rw [both] at ih part
      have below := stocked.mono (part joining first (by simp))
      have beside := stocked.mono (part joining second (by simp))
      exact shows_joinTree places sound gathered stored physical stocked joining both
        (ih (by simp) below one) (ih (by simp) beside two) joined
    · obtain ⟨only, single⟩ := List.length_eq_one_iff.1 count
      rw [single] at ih part
      have below := stocked.mono (part rfl only (by simp))
      exact shows_selection places sound gathered stored physical rfl single
        (ih (by simp) below one)

end JoinQuery

end Cascades
