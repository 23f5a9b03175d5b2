/-
**The properties of a scalar agree with one another.**

Each property is derived by a recursion of its own. As all of them go through the same inputs, some say
the same in other words, some bound others, and most only rise from an input to the scalar above it.

* `FunctionTraits.AtMost`: traits that others are at least as restrictive as;
* `Context.ReadsInputs`: what is read of the scalar inputs of an expression;
* `Fresh.hasSetFunction_eq`, `Fresh.defined_of_setReturning`: by induction over the groups;
* `Fresh.element_returns_iff`, `Fresh.list_returns_iff`: project elements and their lists;
* `distinctAggregateCalls_arguments`: aggregates in one group have one list of arguments;
* `Fresh.rises`: what rises from an input;
* `scalars_agree`: all of it, for whatever is derived of a memo.
-/

import Cascades.Proofs.Distinct
import Cascades.Proofs.Property.Dependence

namespace Cascades

/-! ### Traits of functions -/

theorem Volatility.rank_max {first second : Volatility} :
    (first.max second).rank = Nat.max first.rank second.rank := by
  cases first <;> cases second <;> rfl

theorem DataAccess.rank_max {first second : DataAccess} :
    (first.max second).rank = Nat.max first.rank second.rank := by
  cases first <;> cases second <;> rfl

namespace FunctionTraits

/-- Traits that others are at least as restrictive as. -/
structure AtMost (traits others : FunctionTraits) : Prop where
  volatility : traits.volatility.rank ≤ others.volatility.rank
  access : traits.access.rank ≤ others.access.rank

variable {first second third own : FunctionTraits} {all : List FunctionTraits}

theorem AtMost.refl (traits : FunctionTraits) : traits.AtMost traits := ⟨Nat.le_refl _, Nat.le_refl _⟩

theorem AtMost.trans (one : first.AtMost second) (two : second.AtMost third) : first.AtMost third :=
  ⟨Nat.le_trans one.volatility two.volatility, Nat.le_trans one.access two.access⟩

theorem atMost_combine :
    first.AtMost (first.combine second) ∧ second.AtMost (first.combine second) := by
  refine ⟨⟨?_, ?_⟩, ⟨?_, ?_⟩⟩ <;> simp only [combine, Volatility.rank_max, DataAccess.rank_max]
  · exact Nat.le_max_left _ _
  · exact Nat.le_max_left _ _
  · exact Nat.le_max_right _ _
  · exact Nat.le_max_right _ _

/-- Traits that are combined are at least as restrictive as each of them. -/
theorem atMost_foldl :
    own.AtMost (all.foldl combine own) ∧ ∀ traits ∈ all, traits.AtMost (all.foldl combine own) := by
  induction all generalizing own with
  | nil => exact ⟨.refl own, fun _ none => absurd none List.not_mem_nil⟩
  | cons head tail ih =>
    obtain ⟨kept, each⟩ := @ih (own.combine head)
    have both : own.AtMost (own.combine head) ∧ head.AtMost (own.combine head) := atMost_combine
    exact ⟨both.1.trans kept, List.forall_mem_cons.2 ⟨both.2.trans kept, each⟩⟩

/-- Some of the traits that are combined belong to a function that returns a set. -/
theorem returnsSet_foldl :
    (all.foldl combine own).returnsSet = (own.returnsSet || all.any FunctionTraits.returnsSet) := by
  induction all generalizing own with
  | nil => simp
  | cons head tail ih =>
    rw [List.foldl_cons, ih, List.any_cons, ← Bool.or_assoc]
    rfl

end FunctionTraits

/-- The traits of the function that an operator calls. -/
def Catalog.traitsOf (catalog : Catalog) : Operator → FunctionTraits
  | .scalar (.call name) => (catalog.function? name).getD .unknown
  | _ => .harmless

/-! ### Distinct aggregates -/

namespace Memo

variable {memo : Memo} {expr : Expr}

/-- The children of the first member of a group. -/
def arguments (memo : Memo) (group : GroupId) : List GroupId :=
  match memo.firstMember group with
  | .ok expr => expr.children
  | .error _ => []

/-- **Distinct aggregates in one group have one list of arguments.** -/
theorem distinctAggregateCalls_arguments {calls : List (GroupId × List GroupId)}
    (done : distinctAggregateCalls memo expr = .ok calls) :
    ∀ call ∈ calls, call.2 = memo.arguments call.1 := by
  obtain ⟨elements, run, done⟩ := bind_eq_ok_iff.1 done
  cases pure_eq_ok_iff.1 done
  intro call member
  obtain ⟨listed, inside, among⟩ := List.mem_flatten.1 member
  obtain ⟨child, _, one⟩ := (mem_mapM_iff run).1 inside
  obtain ⟨element, _, one⟩ := bind_eq_ok_iff.1 one
  split at one
  · obtain ⟨values, runs, one⟩ := bind_eq_ok_iff.1 one
    cases pure_eq_ok_iff.1 one
    obtain ⟨found, there, single⟩ := List.mem_flatten.1 among
    obtain ⟨group, _, two⟩ := (mem_mapM_iff runs).1 there
    obtain ⟨value, first, two⟩ := bind_eq_ok_iff.1 two
    split at two
    · cases pure_eq_ok_iff.1 two
      obtain rfl := List.mem_singleton.1 single
      simp only [arguments, first]
    · cases pure_eq_ok_iff.1 two
      cases single
  · cases pure_eq_ok_iff.1 one
    cases among

/-- Whether the first member of a group is a project element. -/
def isElement (memo : Memo) (group : GroupId) : Bool :=
  match memo.firstMember group with
  | .ok expr =>
    match expr.operator with
    | .scalar (.projectElement _) => true
    | _ => false
  | .error _ => false

theorem exists_of_isElement {group : GroupId} (checked : memo.isElement group = true) :
    ∃ element column, memo.firstMember group = .ok element ∧
      element.operator = .scalar (.projectElement column) := by
  unfold isElement at checked
  split at checked
  · rename_i element found
    split at checked
    · rename_i column kind
      exact ⟨element, column, found, kind⟩
    · cases checked
  · cases checked

end Memo

/-! ### What is derived over known inputs -/

namespace Context

variable {context : Context} {id : GroupId} {expr : Expr} {values : ScalarProperties}
  {inner : GroupId → ScalarProperties}

/-- What is read of the scalar inputs of an expression. -/
def ReadsInputs (context : Context) (expr : Expr) (inner : GroupId → ScalarProperties) : Prop :=
  ∀ child ∈ context.memo.scalarChildren expr, context.scalarProperties child = .ok (inner child)

theorem ReadsInputs.ample (inputs : context.ReadsInputs expr inner) :
    context.ample.ReadsInputs expr inner := inputs

section Inputs

variable (inputs : context.ReadsInputs expr inner)
include inputs

theorem gather_inputs {α : Type} [Ord α] [Std.TransOrd α] [Std.LawfulEqOrd α]
    {start found : SortedSet α} {view : ScalarProperties → SortedSet α}
    (done : gather start (context.memo.scalarChildren expr)
      (fun child => return view (← context.scalarProperties child)) = .ok found) :
    found =
      start.addAll ((context.memo.scalarChildren expr).map fun child => view (inner child)) := by
  refine gather_eq (fun child member set given => ?_) done
  rw [inputs child member] at given
  exact (pure_eq_ok_iff.1 given).symm

theorem any_inputs {found : Bool} {view : ScalarProperties → Bool}
    (done : ((context.memo.scalarChildren expr).anyM fun child => do
      return view (← context.scalarProperties child)) = .ok found) :
    found = (context.memo.scalarChildren expr).any fun child => view (inner child) := by
  refine anyM_eq_any (fun child member result given => ?_) done
  rw [inputs child member] at given
  exact (pure_eq_ok_iff.1 given).symm

theorem deriveTraits_eq : ScalarProperty.deriveTraits context expr =
    .ok (((context.memo.scalarChildren expr).map fun child => inner child .functionTraits).foldl
      .combine (context.catalog.traitsOf expr.operator)) := by
  rw [List.foldl_map]
  refine foldlM_eq_foldl fun child member traits => ?_
  rw [inputs child member]
  rfl

end Inputs

/-! ### Groups of which nothing is out of date -/

section Group

variable (fresh : context.Fresh) (found : context.memo.firstMember id = .ok expr)
  (read : context.scalarProperties id = .ok values)
include fresh found read

theorem Fresh.derived (property : ScalarProperty) :
    property.derive context.ample expr = .ok (values property) :=
  fresh.derive_scalar found (known_of_scalarProperties read property)

/-- The scalar inputs of a complete group can be read. -/
theorem Fresh.exists_inputs : ∃ inner, context.ReadsInputs expr inner := by
  have each := gather_read (fresh.derived found read .definedColumns)
  have : Nonempty ScalarProperties := ⟨values⟩
  choose! inner inputs using each
  exact ⟨inner, inputs⟩

variable (inputs : context.ReadsInputs expr inner)
include inputs

/-- The traits of a scalar are those of the function that it calls and of its inputs. -/
theorem Fresh.functionTraits_eq : values .functionTraits =
    ((context.memo.scalarChildren expr).map fun child => inner child .functionTraits).foldl .combine
      (context.catalog.traitsOf expr.operator) :=
  Except.ok.inj ((fresh.derived found read .functionTraits).symm.trans (deriveTraits_eq inputs.ample))

theorem Fresh.returnsSet_eq : (values .functionTraits).returnsSet =
    ((context.catalog.traitsOf expr.operator).returnsSet ||
      (context.memo.scalarChildren expr).any fun child =>
        (inner child .functionTraits).returnsSet) := by
  rw [fresh.functionTraits_eq found read inputs, FunctionTraits.returnsSet_foldl, List.any_map]
  rfl

/-- **What rises from an input** to a scalar: subqueries, comparisons with arrays, and traits. -/
theorem Fresh.rises : ∀ child ∈ context.memo.scalarChildren expr,
    (inner child .hasSubquery = true → values .hasSubquery = true) ∧
      (inner child .hasArrayComparison = true → values .hasArrayComparison = true) ∧
      (inner child .functionTraits).AtMost (values .functionTraits) := by
  intro child member
  refine ⟨fun below => ?_, fun below => ?_, ?_⟩
  · have derived : ScalarProperty.deriveHasSubquery context.ample expr = _ :=
      fresh.derived found read .hasSubquery
    unfold ScalarProperty.deriveHasSubquery at derived
    split at derived
    · exact (pure_eq_ok_iff.1 derived).symm
    · exact (pure_eq_ok_iff.1 derived).symm
    · rw [any_inputs inputs.ample derived]
      exact List.any_eq_true.2 ⟨child, member, below⟩
  · have derived : ScalarProperty.deriveHasArrayComparison context.ample expr = _ :=
      fresh.derived found read .hasArrayComparison
    unfold ScalarProperty.deriveHasArrayComparison at derived
    split at derived
    · exact (pure_eq_ok_iff.1 derived).symm
    · rw [any_inputs inputs.ample derived]
      exact List.any_eq_true.2 ⟨child, member, below⟩
  · rw [fresh.functionTraits_eq found read inputs]
    exact FunctionTraits.atMost_foldl.2 _ (List.mem_map_of_mem member)

/-- **A project element returns a set** if its value does. -/
theorem Fresh.element_returns_iff {column : Column}
    (element : expr.operator = .scalar (.projectElement column)) :
    (∃ other, other ∈ values .setReturningColumns) ↔ (values .functionTraits).returnsSet = true := by
  have derived : ScalarProperty.deriveSetReturning context.ample expr = _ :=
    fresh.derived found read .setReturningColumns
  unfold ScalarProperty.deriveSetReturning at derived
  rw [element] at derived
  rw [gather_inputs inputs.ample derived, fresh.returnsSet_eq found read inputs, element]
  simp only [SortedSet.mem_addAll, SortedSet.not_mem_empty, false_or, List.mem_map,
    exists_exists_and_eq_and, Catalog.traitsOf, FunctionTraits.harmless, Bool.false_or,
    List.any_eq_true]
  constructor
  · rintro ⟨other, child, member, there⟩
    refine ⟨child, member, ?_⟩
    by_contra none
    rw [if_neg none] at there
    exact SortedSet.not_mem_empty other there
  · rintro ⟨child, member, returns⟩
    refine ⟨column.id, child, member, ?_⟩
    rw [if_pos returns]
    exact SortedSet.mem_insert.2 (.inl rfl)

/-- The columns of a list whose values are sets are those of its elements. -/
theorem Fresh.mem_list_iff (list : expr.operator = .scalar .projectList) {column : ColumnId} :
    column ∈ values .setReturningColumns ↔
      ∃ child ∈ context.memo.scalarChildren expr, column ∈ inner child .setReturningColumns := by
  have derived : ScalarProperty.deriveSetReturning context.ample expr = _ :=
    fresh.derived found read .setReturningColumns
  unfold ScalarProperty.deriveSetReturning at derived
  rw [list] at derived
  rw [gather_inputs inputs.ample derived]
  simp only [SortedSet.mem_addAll, SortedSet.not_mem_empty, false_or, List.mem_map,
    exists_exists_and_eq_and]
  rfl

/-- The columns that are defined are the own one of a project element and those of the inputs. -/
theorem Fresh.mem_defined_iff {column : ColumnId} : column ∈ values .definedColumns ↔
    (∃ own, expr.operator = .scalar (.projectElement own) ∧ column = own.id) ∨
      ∃ child ∈ context.memo.scalarChildren expr, column ∈ inner child .definedColumns := by
  have derived : ScalarProperty.deriveDefined context.ample expr = _ :=
    fresh.derived found read .definedColumns
  unfold ScalarProperty.deriveDefined at derived
  rw [gather_inputs inputs.ample derived, SortedSet.mem_addAll]
  simp only [List.mem_map, exists_exists_and_eq_and]
  refine or_congr ?_ Iff.rfl
  split
  · rename_i own element
    simp [element, SortedSet.mem_insert, SortedSet.not_mem_empty]
  · rename_i other
    constructor
    · exact fun none => absurd none (SortedSet.not_mem_empty column)
    · rintro ⟨own, element, _⟩
      exact absurd element (other own)

omit inputs in
/-- **Distinct aggregates** are counted in a project list only. There are at least as many as lists of
arguments. -/
theorem Fresh.distinct_agree :
    (values .multipleDistinctAggregates = true → 2 ≤ values .distinctAggregates) ∧
      (expr.operator ≠ .scalar .projectList →
        values .distinctAggregates = 0 ∧ values .multipleDistinctAggregates = false) := by
  have count : ScalarProperty.deriveDistinctAggregates context.ample expr = _ :=
    fresh.derived found read .distinctAggregates
  have several : ScalarProperty.deriveMultipleDistinct context.ample expr = _ :=
    fresh.derived found read .multipleDistinctAggregates
  unfold ScalarProperty.deriveDistinctAggregates at count
  unfold ScalarProperty.deriveMultipleDistinct at several
  split at count
  · rename_i list
    rw [list] at several
    obtain ⟨calls, given, count⟩ := bind_eq_ok_iff.1 count
    obtain ⟨again, same, several⟩ := bind_eq_ok_iff.1 several
    obtain rfl := Except.ok.inj (given.symm.trans same)
    rw [← pure_eq_ok_iff.1 count, ← pure_eq_ok_iff.1 several]
    refine ⟨fun many => Nat.le_trans (of_decide_eq_true many) ?_, fun other => absurd list other⟩
    have arguments : calls.map (·.2) = (calls.map (·.1)).map context.memo.arguments := by
      rw [List.map_map]
      exact List.map_congr_left (Memo.distinctAggregateCalls_arguments given)
    rw [arguments]
    exact length_eraseDups_map_le context.memo.arguments (calls.map (·.1))
  · rename_i other
    have none : ¬ expr.operator = .scalar .projectList := fun list => other list
    split at several
    · exact absurd ‹_› none
    · rw [← pure_eq_ok_iff.1 count, ← pure_eq_ok_iff.1 several]
      exact ⟨nofun, fun _ => ⟨rfl, rfl⟩⟩

end Group

/-! ### All scalar groups -/

section Fresh

variable (fresh : context.Fresh)
include fresh

/-- A complete scalar group with what is read of the inputs of its first member. -/
theorem Fresh.exists_group (read : context.scalarProperties id = .ok values) :
    ∃ expr inner, context.memo.firstMember id = .ok expr ∧ context.ReadsInputs expr inner ∧
      ∀ child ∈ context.memo.scalarChildren expr, child < id := by
  have valid := fresh.valid
  obtain ⟨_, expr, found, _⟩ :=
    Memo.Scalar.exists_scalarFirst? (scalarProperties_cases read).1 valid
  obtain ⟨inner, inputs⟩ := fresh.exists_inputs found read
  exact ⟨expr, inner, found, inputs, fun child member =>
    (valid.of_firstMember found).2 child (List.mem_of_mem_filter member)⟩

/-- **A function that returns a set occurs** where the traits say so. -/
theorem Fresh.hasSetFunction_eq (read : context.scalarProperties id = .ok values) :
    values .hasSetFunction = (values .functionTraits).returnsSet := by
  induction id using Nat.strongRecOn generalizing values with
  | ind id ih =>
    obtain ⟨expr, inner, found, inputs, older⟩ := fresh.exists_group read
    rw [fresh.returnsSet_eq found read inputs]
    -- A function that the catalog does not know is taken to return no set.
    have own : (match expr.operator with
        | .scalar (.call name) =>
          ((context.catalog.function? name).map FunctionTraits.returnsSet).getD false
        | _ => false) = (context.catalog.traitsOf expr.operator).returnsSet := by
      unfold Catalog.traitsOf
      split
      · cases context.catalog.function? _ <;> rfl
      · rfl
    have derived : (if (context.catalog.traitsOf expr.operator).returnsSet = true then return true
        else (context.memo.scalarChildren expr).anyM fun child => do
          return (← context.scalarProperties child) .hasSetFunction) =
        Except.ok (values .hasSetFunction) := by
      rw [← own]
      exact fresh.derived found read .hasSetFunction
    split at derived
    · rename_i returns
      rw [returns, Bool.true_or]
      exact (pure_eq_ok_iff.1 derived).symm
    · rename_i none
      rw [any_inputs inputs derived, Bool.eq_false_iff.2 none, Bool.false_or]
      rw [Bool.eq_iff_iff, List.any_eq_true, List.any_eq_true]
      refine exists_congr fun child => and_congr_right fun member => ?_
      rw [ih child (older child member) (inputs child member)]

/-- **Columns whose values are sets are defined.** -/
theorem Fresh.defined_of_setReturning (read : context.scalarProperties id = .ok values)
    {column : ColumnId} (member : column ∈ values .setReturningColumns) :
    column ∈ values .definedColumns := by
  induction id using Nat.strongRecOn generalizing values with
  | ind id ih =>
    obtain ⟨expr, inner, found, inputs, older⟩ := fresh.exists_group read
    have derived : ScalarProperty.deriveSetReturning context.ample expr = _ :=
      fresh.derived found read .setReturningColumns
    rw [fresh.mem_defined_iff found read inputs]
    unfold ScalarProperty.deriveSetReturning at derived
    split at derived
    · rename_i own element
      rw [gather_inputs inputs.ample derived, SortedSet.mem_addAll] at member
      obtain ⟨_, listed, there⟩ := member.resolve_left (SortedSet.not_mem_empty column)
      obtain ⟨child, _, rfl⟩ := List.mem_map.1 listed
      split at there
      · have same := (SortedSet.mem_insert.1 there).resolve_right (SortedSet.not_mem_empty column)
        exact .inl ⟨own, element, same⟩
      · exact absurd there (SortedSet.not_mem_empty column)
    · rename_i list
      obtain ⟨child, below, there⟩ := (fresh.mem_list_iff found read inputs list).1 member
      exact .inr ⟨child, below, ih child (older child below) (inputs child below) there⟩
    · rw [← pure_eq_ok_iff.1 derived] at member
      exact absurd member (SortedSet.not_mem_empty column)

/-- **A list of project elements returns a set** if a function in it does. -/
theorem Fresh.list_returns_iff (found : context.memo.firstMember id = .ok expr)
    (read : context.scalarProperties id = .ok values) (list : expr.operator = .scalar .projectList)
    (elements : ∀ child ∈ expr.children, context.memo.isElement child = true) :
    (∃ column, column ∈ values .setReturningColumns) ↔ values .hasSetFunction = true := by
  obtain ⟨inner, inputs⟩ := fresh.exists_inputs found read
  rw [fresh.hasSetFunction_eq read, fresh.returnsSet_eq found read inputs, list]
  simp only [fresh.mem_list_iff found read inputs list, Catalog.traitsOf, FunctionTraits.harmless,
    Bool.false_or, List.any_eq_true]
  rw [exists_comm]
  refine exists_congr fun child => exists_and_left.trans (and_congr_right fun member => ?_)
  obtain ⟨element, column, first, kind⟩ :=
    Memo.exists_of_isElement (elements child (List.mem_of_mem_filter member))
  obtain ⟨below, others⟩ := fresh.exists_inputs first (inputs child member)
  exact fresh.element_returns_iff first (inputs child member) others kind

end Fresh

/-- **The properties of a scalar agree with one another.** The properties of a memo whose relational
groups begin with logical members are derived in any order. In every scalar group all of whose
properties are known, they are related as follows, through the first member of the group and its
inputs. -/
theorem scalars_agree {memo : Memo} (valid : memo.Valid) (headed : memo.LogicalFirst)
    {catalog : Catalog} {guard : Guard} {log : List Derivation}
    (derives : Derives { memo, catalog, guard } log context)
    (read : context.scalarProperties id = .ok values) (found : memo.firstMember id = .ok expr) :
    -- functions that return sets
    values .hasSetFunction = (values .functionTraits).returnsSet ∧
    -- columns whose values are sets
    (∀ column, column ∈ values .setReturningColumns → column ∈ values .definedColumns) ∧
    (expr.operator = .scalar .projectList → (∀ child ∈ expr.children, memo.isElement child = true) →
      ((∃ column, column ∈ values .setReturningColumns) ↔ values .hasSetFunction = true)) ∧
    -- distinct aggregates
    (values .multipleDistinctAggregates = true → 2 ≤ values .distinctAggregates) ∧
    (expr.operator ≠ .scalar .projectList →
      values .distinctAggregates = 0 ∧ values .multipleDistinctAggregates = false) ∧
    -- what rises from the inputs
    ∀ child ∈ memo.scalarChildren expr, ∃ inner, context.scalarProperties child = .ok inner ∧
      (inner .hasSubquery = true → values .hasSubquery = true) ∧
      (inner .hasArrayComparison = true → values .hasArrayComparison = true) ∧
      (inner .functionTraits).volatility.rank ≤ (values .functionTraits).volatility.rank ∧
      (inner .functionTraits).access.rank ≤ (values .functionTraits).access.rank := by
  have fresh : context.Fresh := .derive ⟨valid, headed, current_of_blank⟩ derives
  obtain rfl : context.memo = memo := derives.sameMemo.memo
  obtain ⟨inner, inputs⟩ := fresh.exists_inputs found read
  obtain ⟨several, counted⟩ := fresh.distinct_agree found read
  refine ⟨fresh.hasSetFunction_eq read, fun column => fresh.defined_of_setReturning read,
    fresh.list_returns_iff found read, several, counted, fun child member => ?_⟩
  obtain ⟨subquery, comparison, traits⟩ := fresh.rises found read inputs child member
  exact ⟨inner child, inputs child member, subquery, comparison, traits.volatility, traits.access⟩

/-- The parts of an order, the numbers of different items and kinds, and whether there are items. -/
def listedParts : List (Operator × List GroupId) :=
  [(.scalar (.column ⟨1, some "orders", "item"⟩), []),
    (.scalar (.column ⟨2, some "orders", "kind"⟩), []),
    (.scalar (.call "parts"), [0]), (.scalar (.projectElement ⟨10, none, "part"⟩), [2]),
    (.scalar (.aggregate .count true), [0]), (.scalar (.projectElement ⟨11, none, "items"⟩), [4]),
    (.scalar (.aggregate .count true), [1]), (.scalar (.projectElement ⟨12, none, "kinds"⟩), [6]),
    (.logical (.get ⟨"shop", "items"⟩ [⟨3, some "items", "id"⟩]), []),
    (.scalar .subqueryExists, [8]),
    (.scalar (.projectElement ⟨13, none, "any"⟩), [9]), (.scalar .projectList, [3, 5, 7, 10])]

/-- A catalog with a function that returns a set. -/
def partsCatalog : Catalog := Catalog.Entries.addFunction {} "parts" ⟨.stable, .readsSql, true⟩

theorem scalars_agree_listedParts :
    ∃ (memo : Memo) (context : Context) (log : List Derivation) (values : ScalarProperties),
      Memo.empty.build? listedParts = some memo ∧
      Derives { memo, catalog := partsCatalog } log context ∧
      context.scalarProperties 11 = .ok values ∧
      (values .setReturningColumns).toList = [10] ∧ values .multipleDistinctAggregates = true ∧
      10 ∈ values .definedColumns ∧ values .hasSetFunction = true ∧
      (values .functionTraits).returnsSet = true ∧ 2 ≤ values .distinctAggregates ∧
      ∀ child ∈ [3, 5, 7, 10], ∃ inner, context.scalarProperties child = .ok inner ∧
        (inner .hasSubquery = true → values .hasSubquery = true) ∧
        (inner .functionTraits).access.rank ≤ (values .functionTraits).access.rank := by
  have shown : ((Memo.empty.build? listedParts).bind fun memo =>
      (memo.firstMember 11).toOption.bind fun expr =>
        (deriveAll { memo, catalog := partsCatalog }).toOption.bind fun ended =>
          (ended.2.scalarProperties 11).toOption.map fun values =>
            ((expr.operator == .scalar .projectList, expr.children.all memo.isElement),
              memo.scalarChildren expr, (values .setReturningColumns).toList,
              values .multipleDistinctAggregates)) =
      some ((true, true), [3, 5, 7, 10], [10], true) := by decide +kernel
  obtain ⟨memo, made, shown⟩ := Option.bind_eq_some_iff.1 shown
  obtain ⟨expr, first, shown⟩ := Option.bind_eq_some_iff.1 shown
  obtain ⟨ended, done, shown⟩ := Option.bind_eq_some_iff.1 shown
  obtain ⟨values, given, shown⟩ := Option.map_eq_some_iff.1 shown
  simp only [Prod.mk.injEq] at shown
  obtain ⟨⟨operator, elements⟩, children, returned, many⟩ := shown
  have found := toOption_eq_some_iff.1 first
  have read := toOption_eq_some_iff.1 given
  have list : expr.operator = .scalar .projectList := Operator.eq_of_beq operator rfl
  obtain ⟨_, formed⟩ := (Memo.Built.empty.build? made).formed
  obtain ⟨log, derives⟩ := deriveAll_derives formed.toValid (toOption_eq_some_iff.1 done)
  obtain ⟨functions, defined, returns, several, _, rises⟩ :=
    scalars_agree formed.toValid formed.logicalFirst derives read found
  have part : 10 ∈ values .setReturningColumns := by
    show 10 ∈ (values .setReturningColumns).toList
    rw [returned]
    exact .head _
  have calls := (returns list (List.all_eq_true.1 elements)).1 ⟨10, part⟩
  refine ⟨memo, ended.2, log, values, made, derives, read, returned, many, defined 10 part, calls,
    functions.symm.trans calls, several many, fun child member => ?_⟩
  obtain ⟨inner, readToo, subquery, _, _, access⟩ := rises child (children ▸ member)
  exact ⟨inner, readToo, subquery, access⟩

end Context

end Cascades
