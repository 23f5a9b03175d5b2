/-
**Statistics and output columns.**

The output columns of a group and the columns that its statistics know follow from its operators by two
recursions. They differ in the columns that a projection or an aggregation computes: these are in the
output, but nothing is known of them. So statistics see the equalities across the inputs of a join that
the rule for hash joins sees, where no column of them is computed below.

* `Valid.told`: the output columns of a group come from tables or are computed;
* `orientWithin?`, `hasEqualityAcross_eq`: the equalities across two sets of columns;
* `columns_agree`: what statistics know of output columns and of equalities;
* `columns_disagree`: a join that can be hashed, where they know no equality.
-/

import Cascades.Proofs.Property.Dependence
import Cascades.Proofs.Statistics.Columns
import Cascades.Rule.Implementation

namespace Cascades

theorem Scope.columns_ofScalar {operator : ScalarOp} {inputs : List Scope} :
    (Scope.ofScalar operator inputs).columns =
      operator.defines.addAll ((Scope.scalars inputs).map Scope.columns) := by
  cases operator <;> rfl

namespace Memo

variable {memo : Memo} {id : GroupId} {expr : Expr}

/-! ### Columns of groups -/

/-- The columns of a group are those that come from tables and those that are computed. -/
def Sourced (memo : Memo) (catalog : Catalog) (id : GroupId) : Prop :=
  ∀ column, column ∈ (memo.profile catalog id).scope.columns ↔
    column ∈ (memo.sources id).tables ∨ column ∈ (memo.sources id).computed

/-- A value has no columns of tables, and its columns are those that it computes. -/
def Told (memo : Memo) (catalog : Catalog) (id : GroupId) : Prop :=
  memo.Sourced catalog id ∧
    (memo.profile catalog id).scope.isScalar = (memo.sources id).isScalar ∧
    ((memo.sources id).isScalar = true → (memo.sources id).tables = .empty)

section Children

variable {catalog : Catalog} {children : List GroupId} {column : ColumnId}
  (below : ∀ child ∈ children, memo.Told catalog child)
include below

/-- The columns that values define. -/
theorem values_iff :
    (∃ set ∈ (Scope.scalars (children.map fun child =>
        (memo.profile catalog child).scope)).map Scope.columns, column ∈ set) ↔
      column ∈ Sources.listed (children.map memo.sources) := by
  simp only [Scope.scalars, Sources.listed, List.filter_map, List.map_map, SortedSet.mem_addAll,
    SortedSet.not_mem_empty, false_or, List.mem_map, List.mem_filter, exists_exists_and_eq_and,
    Function.comp_apply]
  simp only [and_assoc]
  refine exists_congr fun child => and_congr_right fun member => ?_
  obtain ⟨sourced, family, none⟩ := below child member
  rw [family, sourced]
  refine and_congr_right fun scalar => ?_
  simp [none scalar]

/-- The columns of relations. -/
theorem relations_iff :
    column ∈ SortedSet.empty.addAll ((Scope.relations (children.map fun child =>
        (memo.profile catalog child).scope)).map Scope.columns) ↔
      column ∈ SortedSet.empty.addAll
          ((Sources.relations (children.map memo.sources)).map Sources.tables) ∨
        column ∈ SortedSet.empty.addAll
          ((Sources.relations (children.map memo.sources)).map Sources.computed) := by
  simp only [Scope.relations, Sources.relations, List.filter_map, List.map_map, SortedSet.mem_addAll,
    SortedSet.not_mem_empty, false_or, List.mem_map, List.mem_filter, exists_exists_and_eq_and,
    Function.comp_apply, Bool.not_eq_true', ← exists_or, ← and_or_left]
  simp only [and_assoc]
  refine exists_congr fun child => and_congr_right fun member => ?_
  obtain ⟨sourced, family, none⟩ := below child member
  rw [family, sourced]

theorem sourced_ofLogical {operator : LogicalOp} :
    column ∈ (Scope.ofLogical operator
        (children.map fun child => (memo.profile catalog child).scope)).columns ↔
      column ∈ (Sources.ofLogical (children.map memo.sources) operator).tables ∨
        column ∈ (Sources.ofLogical (children.map memo.sources) operator).computed := by
  have passed : column ∈ (((children.map fun child => (memo.profile catalog child).scope)[0]?).map
        Scope.columns).getD .empty ↔
      column ∈ (Sources.passed (children.map memo.sources)).tables ∨
        column ∈ (Sources.passed (children.map memo.sources)).computed := by
    cases children with
    | nil => simp [Sources.passed, Sources.nothing]
    | cons child rest => exact (below child (.head _)).1 column
  cases operator with
  | get table columns => simp [Scope.ofLogical, Scope.output, Sources.ofLogical, columnSet]
  | select | naryJoin | limit => exact relations_iff below
  | join type => cases type <;> first | exact relations_iff below | exact passed
  | project =>
    show column ∈ SortedSet.addAll _ _ ↔ _
    rw [SortedSet.mem_addAll, passed, values_iff below]
    simp only [Sources.ofLogical, SortedSet.mem_union, or_assoc]
  | aggregate keys =>
    show column ∈ SortedSet.addAll _ _ ↔ _
    rw [SortedSet.mem_addAll, values_iff below]
    simp only [Sources.ofLogical, SortedSet.mem_union, columnSet, SortedSet.mem_ofList, ← or_assoc]
    refine or_congr_left ?_
    simp only [List.mem_map, List.mem_filter, decide_eq_true_eq]
    constructor
    · rintro ⟨key, member, rfl⟩
      by_cases known : key.id ∈ (Sources.passed (children.map memo.sources)).tables
      · exact .inl ⟨key, ⟨member, known⟩, rfl⟩
      · exact .inr ⟨key, ⟨member, known⟩, rfl⟩
    · rintro (⟨key, ⟨member, _⟩, rfl⟩ | ⟨key, ⟨member, _⟩, rfl⟩) <;> exact ⟨key, member, rfl⟩

end Children

/-- **The columns of a group** come from tables or are computed. -/
theorem Valid.told (valid : memo.Valid) (catalog : Catalog) :
    ∀ {id : GroupId}, id < memo.groups.size → memo.Told catalog id := by
  intro id
  induction id using Nat.strongRecOn with
  | ind id ih =>
    intro inside
    obtain ⟨expr, found⟩ := valid.exists_firstMember inside
    obtain ⟨_, number, _, _, stored⟩ := firstMember_ok_iff.1 found
    have older := (valid.of_firstMember found).2
    have below : ∀ child ∈ expr.children, memo.Told catalog child :=
      fun child member => ih child (older child member) (valid.childExists stored member)
    have scope := valid.scope_eq catalog found
    have sources := valid.sources_eq found
    refine ⟨fun column => ?_, ?_, fun scalar => ?_⟩
    · rw [scope, sources]
      cases expr.operator with
      | logical operator => exact sourced_ofLogical below
      | physical operator => exact sourced_ofLogical below
      | scalar operator =>
        show column ∈ (Scope.ofScalar operator _).columns ↔
          column ∈ SortedSet.empty ∨ column ∈ operator.defines.union _
        rw [Scope.columns_ofScalar, SortedSet.mem_addAll, values_iff below]
        simp
    · rw [valid.isScalar_profile inside, valid.isScalar_sources inside]
    · rw [sources, Sources.isScalar_of] at scalar
      rw [sources]
      cases kind : expr.operator with
      | scalar operator => rfl
      | logical operator | physical operator =>
        rw [kind] at scalar
        cases scalar

end Memo

/-- The output columns that are known of a group are the columns of its profile. -/
theorem Context.Fresh.output_eq {context : Context} (fresh : context.Fresh) {id : GroupId}
    {columns : ColumnSet}
    (known : (context.facts.relational id).get? .outputColumns = some columns) :
    columns = (context.memo.profile context.catalog id).scope.columns := by
  have valid := fresh.valid
  have relational := (fresh.current.relational known).1
  obtain ⟨expr, found⟩ := valid.exists_firstMember relational.inside
  obtain ⟨_, number, _, _, stored⟩ := Memo.firstMember_ok_iff.1 found
  obtain ⟨operator, kind, first, derived⟩ := fresh.derive_relational found known nofun
  rw [valid.scope_eq context.catalog found, kind]
  exact Context.derive_output (fresh.reflects_children stored) (Context.derived_from_first first derived)

/-! ### Equalities across two inputs -/

/-- An equality turned round so that its left column is in the left set. -/
def orientWithin? (left right : ColumnSet) (pair : ColumnId × ColumnId) :
    Option (ColumnId × ColumnId) :=
  if pair.1 ∈ left ∧ pair.2 ∈ right then some pair
  else if pair.2 ∈ left ∧ pair.1 ∈ right then some (pair.2, pair.1)
  else none

/-- A conjunct equates columns of two sets where one of the equalities can be turned round. -/
theorem Rule.hasEqualityAcross_eq {memo : Memo} {left right : ColumnSet} {conjuncts : List GroupId}
    {equalities : List (ColumnId × ColumnId)} (done : memo.equalities conjuncts = .ok equalities) :
    hasEqualityAcross memo left right conjuncts =
      .ok (decide (equalities.filterMap (orientWithin? left right) ≠ [])) := by
  obtain ⟨found, run, same⟩ := bind_eq_ok_iff.1 done
  cases pure_eq_ok_iff.1 same
  have each := mapM_eq_ok_iff.1 run
  clear run done same
  induction each with
  | nil => rfl
  | @cons conjunct pair rest others one _ ih =>
    unfold hasEqualityAcross
    rw [one]
    cases pair with
    | none => exact ih
    | some pair =>
      obtain ⟨first, second⟩ := pair
      show (if (first ∈ left ∧ second ∈ right) ∨ (second ∈ left ∧ first ∈ right) then pure true
        else hasEqualityAcross memo left right rest) = _
      rw [ih]
      by_cases straight : first ∈ left ∧ second ∈ right
      · simp [orientWithin?, straight, pure, Except.pure]
      · by_cases turned : second ∈ left ∧ first ∈ right
        · simp [orientWithin?, straight, turned, pure, Except.pure]
        · simp [orientWithin?, straight, turned]

namespace Statistics

variable {memo : Memo} {catalog : Catalog}

/-- Whether the catalog knows only columns that are listed. -/
def isListed (memo : Memo) (catalog : Catalog) : Bool :=
  memo.exprs.all fun expr =>
    match expr.operator with
    | .logical (.get table columns) =>
      ((catalog.statistics? table).map fun known =>
        known.columns.entries.all fun entry => entry.1 ∈ columns.map Column.id).getD true
    | _ => true

theorem listed_of_isListed (checked : isListed memo catalog = true) : Listed memo catalog := by
  intro number expr table columns stored reading known recorded column there
  obtain ⟨inside, rfl⟩ := Array.getElem?_eq_some_iff.1 stored
  have each := Array.all_eq_true.1 checked number inside
  rw [reading] at each
  simp only [recorded, Option.map_some, Option.getD_some] at each
  obtain ⟨value, member⟩ := ColumnMap.contains_iff_mem.1 there
  exact of_decide_eq_true (List.all_eq_true.1 each _ member)

/-- The equalities that statistics turn round, where they know the same of their columns as some sets. -/
theorem orient?_eq {left right : Statistics} {leftColumns rightColumns : ColumnSet}
    {pair : ColumnId × ColumnId}
    (same : ∀ column ∈ [pair.1, pair.2], (left.hasColumn column = true ↔ column ∈ leftColumns) ∧
      (right.hasColumn column = true ↔ column ∈ rightColumns)) :
    orient? left right pair = orientWithin? leftColumns rightColumns pair := by
  obtain ⟨firstLeft, firstRight⟩ := same pair.1 (by simp)
  obtain ⟨secondLeft, secondRight⟩ := same pair.2 (by simp)
  simp only [orient?, orientWithin?, Bool.and_eq_true, firstLeft, firstRight, secondLeft, secondRight]

/-- An equality that statistics turn round can be turned round by larger sets. -/
theorem orientWithin?_of_orient? {left right : Statistics} {leftColumns rightColumns : ColumnSet}
    (more : ∀ column, left.hasColumn column = true → column ∈ leftColumns)
    (moreToo : ∀ column, right.hasColumn column = true → column ∈ rightColumns)
    {pair turned : ColumnId × ColumnId} (done : orient? left right pair = some turned) :
    ∃ other, orientWithin? leftColumns rightColumns pair = some other := by
  unfold orient? at done
  unfold orientWithin?
  split at done
  · rename_i both
    obtain ⟨first, second⟩ := Bool.and_eq_true_iff.1 both
    exact ⟨pair, if_pos ⟨more _ first, moreToo _ second⟩⟩
  · split at done
    · rename_i both
      obtain ⟨first, second⟩ := Bool.and_eq_true_iff.1 both
      rw [if_pos (⟨more _ first, moreToo _ second⟩ : pair.2 ∈ leftColumns ∧ pair.1 ∈ rightColumns)]
      split <;> exact ⟨_, rfl⟩
    · cases done

/-- **Statistics know the output columns of a group that no operator computes.** So a join on columns of
tables has the equalities for which it can be hashed. -/
theorem columns_agree (valid : memo.Valid) (laid : memo.Laid) (headed : memo.LogicalFirst)
    (listed : Listed memo catalog) {guard : Guard} {log : List Derivation} {context : Context}
    (derives : Context.Derives { memo, catalog, guard } log context) :
    -- The statistics of a relation know its output columns, but for computed ones.
    (∀ id, memo.Relational id → ∃ statistics, ofGroup memo catalog id = .ok statistics ∧
      (∀ column, statistics.hasColumn column = true ↔ column ∈ (memo.sources id).tables) ∧
      ∀ columns, (context.facts.relational id).get? .outputColumns = some columns →
        ∀ column, column ∈ columns ↔
          statistics.hasColumn column = true ∨ column ∈ (memo.sources id).computed) ∧
    -- An equality that they see across the inputs of a join is seen by the output columns, and the other
    -- way round where no column of the equalities is computed below.
    ∀ (number : ExprId) (expr : Expr) (type : JoinType) (left right predicate : GroupId),
      memo.exprs[number]? = some expr → expr.operator = .logical (.join type) →
      expr.children = [left, right, predicate] →
      ∃ leftRows rightRows equalities pairs, ofGroup memo catalog left = .ok leftRows ∧
        ofGroup memo catalog right = .ok rightRows ∧
        memo.equalities (memo.conjuncts predicate) = .ok equalities ∧
        equalPairs memo leftRows rightRows (memo.conjuncts predicate) = .ok pairs ∧
        ∀ leftColumns rightColumns,
          (context.facts.relational left).get? .outputColumns = some leftColumns →
          (context.facts.relational right).get? .outputColumns = some rightColumns →
          (pairs ≠ [] → Rule.hasEqualityAcross memo leftColumns rightColumns
            (memo.conjuncts predicate) = .ok true) ∧
          ((∀ pair ∈ equalities, ∀ column ∈ [pair.1, pair.2],
              column ∉ (memo.sources left).computed ∧ column ∉ (memo.sources right).computed) →
            pairs = equalities.filterMap (orientWithin? leftColumns rightColumns) ∧
            Rule.hasEqualityAcross memo leftColumns rightColumns (memo.conjuncts predicate) =
              .ok (decide (pairs ≠ []))) := by
  have fresh : context.Fresh := .derive ⟨valid, headed, Context.current_of_blank⟩ derives
  obtain rfl : context.memo = memo := derives.sameMemo.memo
  have output : ∀ {id : GroupId} {statistics : Statistics} {columns : ColumnSet},
      context.memo.Relational id → Covers context.memo id statistics →
      (context.facts.relational id).get? .outputColumns = some columns →
      ∀ column, column ∈ columns ↔
        statistics.hasColumn column = true ∨ column ∈ (context.memo.sources id).computed := by
    intro id statistics columns relational covers known column
    rw [fresh.output_eq known, (valid.told context.catalog relational.inside).1, covers column]
  refine ⟨fun id relational => ?_, fun number expr type left right predicate stored kind shown => ?_⟩
  · obtain ⟨statistics, done, covers⟩ := exists_ofGroup valid laid listed headed relational
    exact ⟨statistics, done, covers, fun columns => output relational covers⟩
  · have layout := laid.logical valid.toLinked stored kind
    rw [shown] at layout
    obtain ⟨_, _, _, ⟨⟩, relational, relationalToo, scalar⟩ := layout
    obtain ⟨leftRows, foundLeft, coversLeft⟩ := exists_ofGroup valid laid listed headed relational
    obtain ⟨rightRows, foundRight, coversRight⟩ := exists_ofGroup valid laid listed headed relationalToo
    have total : Ends (fun _ => False) (equalPairs context.memo leftRows rightRows
        (context.memo.conjuncts predicate)) fun _ => True := equalPairs_ends laid scalar
    obtain ⟨pairs, turned, _⟩ := total.exists_ok
    obtain ⟨equalities, read, same⟩ := bind_eq_ok_iff.1 turned
    cases pure_eq_ok_iff.1 same
    refine ⟨leftRows, rightRows, equalities, _, foundLeft, foundRight, read, turned,
      fun leftColumns rightColumns knownLeft knownRight => ?_⟩
    have outLeft := output relational coversLeft knownLeft
    have outRight := output relationalToo coversRight knownRight
    rw [Rule.hasEqualityAcross_eq read]
    refine ⟨fun found => ?_, fun plain => ?_⟩
    · obtain ⟨oriented, member⟩ := List.exists_mem_of_ne_nil _ found
      obtain ⟨pair, inside, done⟩ := List.mem_filterMap.1 member
      obtain ⟨other, again⟩ := orientWithin?_of_orient?
        (fun column there => (outLeft column).2 (.inl there))
        (fun column there => (outRight column).2 (.inl there)) done
      have across := List.ne_nil_of_mem (List.mem_filterMap.2 ⟨pair, inside, again⟩)
      exact congrArg Except.ok (decide_eq_true across)
    · have same : equalities.filterMap (orient? leftRows rightRows) =
          equalities.filterMap (orientWithin? leftColumns rightColumns) := by
        refine List.filterMap_congr fun pair member => orient?_eq fun column among => ?_
        obtain ⟨notLeft, notRight⟩ := plain pair member column among
        exact ⟨((outLeft column).trans (or_iff_left notLeft)).symm,
          ((outRight column).trans (or_iff_left notRight)).symm⟩
      exact ⟨same, by rw [same]⟩

/-- Orders with their amounts in another column, items, and two joins of these: on the number of an order
and on that column. -/
def amountsOfOrders : List (Operator × List GroupId) :=
  [(.logical (.get ⟨"shop", "orders"⟩ [⟨1, none, "id"⟩]), []),
    (.scalar (.column ⟨1, none, "id"⟩), []), (.scalar (.projectElement ⟨10, none, "amount"⟩), [1]),
    (.scalar .projectList, [2]), (.logical .project, [0, 3]),
    (.logical (.get ⟨"shop", "items"⟩ [⟨2, none, "order"⟩]), []),
    (.scalar (.column ⟨10, none, "amount"⟩), []), (.scalar (.column ⟨2, none, "order"⟩), []),
    (.scalar (.binary .eq), [1, 7]), (.logical (.join .inner), [4, 5, 8]),
    (.scalar (.binary .eq), [6, 7]), (.logical (.join .inner), [4, 5, 10])]

/-- What is derived of them and found for them, for the equality of a join. -/
theorem amountsOfOrders_found : ∃ (memo : Memo) (context : Context) (log : List Derivation)
    (rows items : Statistics) (columns others : ColumnSet),
    Memo.empty.build? amountsOfOrders = some memo ∧ memo.Built ∧
    Context.Derives { memo } log context ∧ Listed memo {} ∧
    ofGroup memo {} 4 = .ok rows ∧ ofGroup memo {} 5 = .ok items ∧
    (context.facts.relational 4).get? .outputColumns = some columns ∧
    (context.facts.relational 5).get? .outputColumns = some others ∧
    10 ∈ columns ∧ rows.hasColumn 10 = false ∧
    equalPairs memo rows items (memo.conjuncts 8) = .ok [(1, 2)] ∧
    equalPairs memo rows items (memo.conjuncts 10) = .ok [] ∧
    Rule.hasEqualityAcross memo columns others (memo.conjuncts 10) = .ok true ∧
    ∃ expr, memo.exprs[9]? = some expr ∧ expr.operator = .logical (.join .inner) ∧
      expr.children = [4, 5, 8] := by
  have shown : (Memo.empty.build? amountsOfOrders).bind (fun memo =>
      (Context.deriveAll { memo }).toOption.bind fun ended =>
        (ofGroup memo {} 4).toOption.bind fun rows => (ofGroup memo {} 5).toOption.bind fun items =>
          ((ended.2.facts.relational 4).get? .outputColumns).bind fun columns =>
            ((ended.2.facts.relational 5).get? .outputColumns).map fun others =>
              [isListed memo {}, 10 ∈ columns, !rows.hasColumn 10,
                (equalPairs memo rows items (memo.conjuncts 8)).toOption = some [(1, 2)],
                (equalPairs memo rows items (memo.conjuncts 10)).toOption = some [],
                (Rule.hasEqualityAcross memo columns others (memo.conjuncts 10)).toOption = some true,
                (memo.exprs[9]?).any fun expr =>
                  expr.operator == .logical (.join .inner) && expr.children == [4, 5, 8]]) =
      some [true, true, true, true, true, true, true] := by decide +kernel
  obtain ⟨memo, made, shown⟩ := Option.bind_eq_some_iff.1 shown
  obtain ⟨ended, done, shown⟩ := Option.bind_eq_some_iff.1 shown
  obtain ⟨rows, foundRows, shown⟩ := Option.bind_eq_some_iff.1 shown
  obtain ⟨items, foundItems, shown⟩ := Option.bind_eq_some_iff.1 shown
  obtain ⟨columns, known, shown⟩ := Option.bind_eq_some_iff.1 shown
  obtain ⟨others, knownToo, shown⟩ := Option.map_eq_some_iff.1 shown
  simp only [List.cons.injEq, decide_eq_true_eq, Bool.not_eq_true', and_true] at shown
  obtain ⟨listed, inside, unknown, one, none, across, joined⟩ := shown
  obtain ⟨expr, stored, joined⟩ := (Option.any_eq_true _ _).1 joined
  obtain ⟨kind, inputs⟩ := Bool.and_eq_true_iff.1 joined
  have built := Memo.Built.empty.build? made
  obtain ⟨_, formed⟩ := built.formed
  obtain ⟨log, derives⟩ := Context.deriveAll_derives formed.toValid (toOption_eq_some_iff.1 done)
  exact ⟨memo, ended.2, log, rows, items, columns, others, made, built, derives,
    listed_of_isListed listed, toOption_eq_some_iff.1 foundRows, toOption_eq_some_iff.1 foundItems,
    known, knownToo, inside, unknown, toOption_eq_some_iff.1 one, toOption_eq_some_iff.1 none,
    toOption_eq_some_iff.1 across, expr, stored, Operator.eq_of_beq kind rfl, beq_iff_eq.1 inputs⟩

/-- The join on the number of an order can be hashed, and its statistics are those of a join on it. -/
theorem columns_agree_amountsOfOrders :
    ∃ (memo : Memo) (context : Context) (log : List Derivation) (columns others : ColumnSet)
      (rows items : Statistics),
      Memo.empty.build? amountsOfOrders = some memo ∧ Context.Derives { memo } log context ∧
      (context.facts.relational 4).get? .outputColumns = some columns ∧
      (context.facts.relational 5).get? .outputColumns = some others ∧
      ofGroup memo {} 4 = .ok rows ∧ ofGroup memo {} 5 = .ok items ∧
      equalPairs memo rows items (memo.conjuncts 8) = .ok [(1, 2)] ∧
      Rule.hasEqualityAcross memo columns others (memo.conjuncts 8) = .ok true := by
  obtain ⟨memo, context, log, rows, items, columns, others, made, built, derives, listed, foundRows,
    foundItems, known, knownToo, _, _, one, _, _, expr, stored, kind, inputs⟩ := amountsOfOrders_found
  obtain ⟨_, formed⟩ := built.formed
  refine ⟨memo, context, log, columns, others, rows, items, made, derives, known, knownToo, foundRows,
    foundItems, one, ?_⟩
  obtain ⟨left, right, equalities, pairs, foundLeft, foundRight, read, turned, across⟩ :=
    (columns_agree formed.toValid formed.laid formed.logicalFirst listed derives).2 9 expr .inner 4 5 8
      stored kind inputs
  cases foundLeft.symm.trans foundRows
  cases foundRight.symm.trans foundItems
  cases turned.symm.trans one
  exact (across columns others known knownToo).1 (List.cons_ne_nil _ _)

/-- **Statistics do not know a column that a projection computes**, although it is an output column. So
where a join has an equality for which it can be hashed, they may see none. -/
theorem columns_disagree :
    ∃ (memo : Memo) (context : Context) (log : List Derivation) (rows items : Statistics)
      (columns others : ColumnSet),
      Memo.empty.build? amountsOfOrders = some memo ∧ memo.Built ∧
      Context.Derives { memo } log context ∧ Listed memo {} ∧
      ofGroup memo {} 4 = .ok rows ∧ ofGroup memo {} 5 = .ok items ∧
      (context.facts.relational 4).get? .outputColumns = some columns ∧
      (context.facts.relational 5).get? .outputColumns = some others ∧
      10 ∈ columns ∧ rows.hasColumn 10 = false ∧
      equalPairs memo rows items (memo.conjuncts 10) = .ok [] ∧
      Rule.hasEqualityAcross memo columns others (memo.conjuncts 10) = .ok true := by
  obtain ⟨memo, context, log, rows, items, columns, others, made, built, derives, listed, foundRows,
    foundItems, known, knownToo, inside, unknown, _, none, across, _⟩ := amountsOfOrders_found
  exact ⟨memo, context, log, rows, items, columns, others, made, built, derives, listed, foundRows,
    foundItems, known, knownToo, inside, unknown, none, across⟩

end Statistics

end Cascades
