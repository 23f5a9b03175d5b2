/-
**Members of one group have one profile.**

A join of relations that are joins themselves makes the columns, takes the columns and scans the tables
of all that is held below, whatever way this is divided among the inputs. So what an expression that
gathers amounts to follows from what its group holds, and all members of a group that gathers amount to
the same. No other group has several logical members.

* `Spread`: a group amounts to what it holds, but for columns that it makes itself;
* `Collects`: so does an expression that gathers; `Laid.collects_of_logical`: every join does;
* `Formed.spread`: every group does;
* `Formed.contents_ne`: where a member gathers, the group does not hold itself;
* `Rearranged.profile_eq`: **every logical member has the profile of its group**.
-/

import Cascades.Proofs.Property.Profile

namespace Cascades.Memo

variable {memo : Memo} {catalog : Catalog} {id : GroupId} {expr : Expr} {number : ExprId}

/-! ### What is held -/

theorem Scalar.not_relational (scalar : memo.Scalar id) : ¬ memo.Relational id := fun relational => by
  have family := (relational_iff.1 relational).2
  rw [scalar_iff.1 scalar] at family
  cases family

/-- The groups that a scalar group holds are scalar. -/
theorem Laid.scalar_contents (laid : memo.Laid) (valid : memo.Valid) (scalar : memo.Scalar id) :
    ∀ atom ∈ memo.contents id, memo.Scalar atom := by
  intro atom held
  rw [← laid.conjuncts_eq valid scalar, Multiset.mem_coe] at held
  exact laid.conjuncts scalar atom held

/-- A scalar expression that gathers has scalar children only. -/
theorem Laid.scalar_children (laid : memo.Laid) (stored : memo.exprs[number]? = some expr)
    {operator : ScalarOp} (kind : expr.operator = .scalar operator) (gathers : operator.gathers = true) :
    ∀ child ∈ expr.children, memo.Scalar child := by
  rcases ScalarOp.gathers_iff.1 gathers with rfl | rfl
  · exact laid.and stored kind
  · refine laid.values stored fun inputs breadth takes => ?_
    rw [kind] at takes
    cases takes with
    | scalar takes =>
    cases takes
    exact nofun

/-- **A group amounts to what it holds**: a relation makes the columns of the relations that it holds,
and what is taken from outside by what it holds, it takes itself, unless it makes it. -/
structure Spread (memo : Memo) (catalog : Catalog) (id : GroupId) : Prop where
  columns : memo.Relational id → ∀ column, column ∈ (memo.profile catalog id).scope.columns ↔
    ∃ atom ∈ memo.contents id, memo.Relational atom ∧
      column ∈ (memo.profile catalog atom).scope.columns
  free : ∀ column, (memo.Relational id → column ∉ (memo.profile catalog id).scope.columns) →
    (column ∈ (memo.profile catalog id).scope.free ↔
      ∃ atom ∈ memo.contents id, column ∈ (memo.profile catalog atom).scope.free)
  partitions : ∀ table, table ∈ (memo.profile catalog id).partitions ↔
    ∃ atom ∈ memo.contents id, table ∈ (memo.profile catalog atom).partitions

/-- A group that holds itself only. -/
theorem Spread.single (alone : memo.contents id = {id}) : memo.Spread catalog id := by
  refine ⟨fun relational column => ?_, fun column _ => ?_, fun table => ?_⟩
  · simp [alone, relational]
  · simp [alone]
  · simp [alone]

/-- **An expression that gathers amounts to what it holds.** -/
structure Collects (memo : Memo) (catalog : Catalog) (held : Multiset GroupId) (profile : Profile) :
    Prop where
  isScalar : profile.scope.isScalar = false
  columns : ∀ column, column ∈ profile.scope.columns ↔
    ∃ atom ∈ held, memo.Relational atom ∧ column ∈ (memo.profile catalog atom).scope.columns
  free : ∀ column, column ∈ profile.scope.free ↔
    (∃ atom ∈ held, column ∈ (memo.profile catalog atom).scope.free) ∧ column ∉ profile.scope.columns
  partitions : ∀ table, table ∈ profile.partitions ↔
    ∃ atom ∈ held, table ∈ (memo.profile catalog atom).partitions

/-- What is held tells what the expression amounts to. -/
theorem Collects.unique {held : Multiset GroupId} {profile other : Profile}
    (collects : memo.Collects catalog held profile) (again : memo.Collects catalog held other) :
    profile = other := by
  have columns : ∀ column, column ∈ profile.scope.columns ↔ column ∈ other.scope.columns :=
    fun column => (collects.columns column).trans (again.columns column).symm
  have scope : profile.scope = other.scope := by
    refine Scope.ext (collects.isScalar.trans again.isScalar.symm) columns fun column => ?_
    rw [collects.free, again.free, columns]
  have partitions : profile.partitions = other.partitions :=
    SortedSet.ext fun table => (collects.partitions table).trans (again.partitions table).symm
  cases profile
  cases other
  exact congrArg₂ Profile.mk scope partitions

/-- What a relational group amounts to by its first member, it amounts to by what it holds. -/
theorem Collects.spread (relational : memo.Relational id)
    (collects : memo.Collects catalog (memo.contents id) (memo.profile catalog id)) :
    memo.Spread catalog id where
  columns _ := collects.columns
  free column outside := (collects.free column).trans (and_iff_left (outside relational))
  partitions := collects.partitions

theorem exists_mem_sum {parts : List GroupId} {holds : GroupId → Prop} :
    (∃ atom ∈ (parts.map memo.contents).sum, holds atom) ↔
      ∃ part ∈ parts, ∃ atom ∈ memo.contents part, holds atom := by
  constructor
  · rintro ⟨atom, held, right⟩
    obtain ⟨_, listed, held⟩ := mem_sum.1 held
    obtain ⟨part, member, rfl⟩ := List.mem_map.1 listed
    exact ⟨part, member, atom, held, right⟩
  · rintro ⟨part, member, atom, held, right⟩
    exact ⟨atom, mem_sum.2 ⟨_, List.mem_map_of_mem member, held⟩, right⟩

/-- The relational inputs of an expression. -/
theorem Valid.exists_relations (valid : memo.Valid) (stored : memo.exprs[number]? = some expr)
    (holds : Scope → Prop) :
    (∃ input ∈ Scope.relations ((expr.children.map (memo.profile catalog)).map Profile.scope),
        holds input) ↔
      ∃ child ∈ expr.children, memo.Relational child ∧ holds (memo.profile catalog child).scope := by
  constructor
  · rintro ⟨input, member, right⟩
    obtain ⟨listed, family⟩ := List.mem_filter.1 member
    obtain ⟨profile, among, rfl⟩ := List.mem_map.1 listed
    obtain ⟨child, below, rfl⟩ := List.mem_map.1 among
    have inside := valid.childExists stored below
    rw [valid.isScalar_profile inside] at family
    exact ⟨child, below, relational_iff.2 ⟨inside, by simpa using family⟩, right⟩
  · rintro ⟨child, below, relational, right⟩
    refine ⟨_, List.mem_filter.2 ⟨List.mem_map_of_mem (List.mem_map_of_mem below), ?_⟩, right⟩
    rw [valid.isScalar_profile relational.inside, (relational_iff.1 relational).2]
    rfl

/-- The scalar inputs of an expression. -/
theorem Valid.exists_scalars (valid : memo.Valid) (stored : memo.exprs[number]? = some expr)
    (holds : Scope → Prop) :
    (∃ input ∈ Scope.scalars ((expr.children.map (memo.profile catalog)).map Profile.scope),
        holds input) ↔
      ∃ child ∈ expr.children, memo.Scalar child ∧ holds (memo.profile catalog child).scope := by
  constructor
  · rintro ⟨input, member, right⟩
    obtain ⟨listed, family⟩ := List.mem_filter.1 member
    obtain ⟨profile, among, rfl⟩ := List.mem_map.1 listed
    obtain ⟨child, below, rfl⟩ := List.mem_map.1 among
    rw [valid.isScalar_profile (valid.childExists stored below)] at family
    exact ⟨child, below, scalar_iff.2 family, right⟩
  · rintro ⟨child, below, scalar, right⟩
    refine ⟨_, List.mem_filter.2 ⟨List.mem_map_of_mem (List.mem_map_of_mem below), ?_⟩, right⟩
    rw [valid.isScalar_profile scalar.inside]
    exact scalar_iff.1 scalar

/-- What the inputs of an expression take from outside. -/
theorem Valid.exists_inputs (valid : memo.Valid) (stored : memo.exprs[number]? = some expr)
    (holds : Scope → Prop) :
    ((∃ input ∈ Scope.scalars ((expr.children.map (memo.profile catalog)).map Profile.scope),
        holds input) ∨
      ∃ input ∈ Scope.relations ((expr.children.map (memo.profile catalog)).map Profile.scope),
        holds input) ↔
      ∃ child ∈ expr.children, holds (memo.profile catalog child).scope := by
  rw [valid.exists_scalars stored, valid.exists_relations stored]
  constructor
  · rintro (⟨child, below, _, right⟩ | ⟨child, below, _, right⟩)
    · exact ⟨child, below, right⟩
    · exact ⟨child, below, right⟩
  · rintro ⟨child, below, right⟩
    cases family : memo.isScalarGroup child with
    | true => exact Or.inl ⟨child, below, scalar_iff.2 family, right⟩
    | false =>
      exact Or.inr ⟨child, below, relational_iff.2 ⟨valid.childExists stored below, family⟩, right⟩

section Laid

variable (laid : memo.Laid) (valid : memo.Valid) (stored : memo.exprs[number]? = some expr)
  (below : ∀ child ∈ expr.children, memo.Spread catalog child)
include laid valid stored below

/-- **A join amounts to what it holds**, where its children do. -/
theorem Laid.collects_of_logical {operator : LogicalOp} (kind : expr.operator = .logical operator)
    (joining : operator.isJoining = true) : memo.Collects catalog (expr.children.map memo.contents).sum
      (.of catalog expr.operator (expr.children.map (memo.profile catalog))) := by
  have scope : (Profile.of catalog expr.operator (expr.children.map (memo.profile catalog))).scope =
      .joined (Scope.relations ((expr.children.map (memo.profile catalog)).map Profile.scope))
        (Scope.scalars ((expr.children.map (memo.profile catalog)).map Profile.scope)) := by
    rw [Profile.of, kind]
    exact Scope.ofLogical_of_joining joining
  have own : Profile.scanned catalog expr.operator = .empty := by
    rw [kind]
    cases operator with
    | get => cases joining
    | _ => rfl
  refine ⟨by rw [scope]; rfl, fun column => ?_, fun column => ?_, fun table => ?_⟩
  · rw [scope, Scope.mem_columns_joined, valid.exists_relations stored, exists_mem_sum]
    refine exists_congr fun child => and_congr_right fun member => ?_
    constructor
    · rintro ⟨relational, made⟩
      exact ((below child member).columns relational column).1 made
    · rintro ⟨atom, held, relational, made⟩
      cases family : memo.isScalarGroup child with
      | true =>
        have scalar := laid.scalar_contents valid (scalar_iff.2 family) atom held
        exact absurd relational scalar.not_relational
      | false =>
        have input := relational_iff.2 ⟨valid.childExists stored member, family⟩
        exact ⟨input, ((below child member).columns input column).2 ⟨atom, held, relational, made⟩⟩
  · rw [scope, Scope.mem_free_joined, Scope.mem_columns_joined, valid.exists_inputs stored]
    refine and_congr_left fun outside => ?_
    rw [valid.exists_relations stored] at outside
    rw [exists_mem_sum]
    refine exists_congr fun child => and_congr_right fun member => ?_
    exact (below child member).free column fun relational made =>
      outside ⟨child, member, relational, made⟩
  · rw [Profile.of, own, SortedSet.mem_addAll, exists_mem_sum]
    simp only [List.mem_map, exists_exists_and_eq_and, SortedSet.not_mem_empty, false_or]
    exact exists_congr fun child => and_congr_right fun member => (below child member).partitions table

/-- A conjunction amounts to what it holds, where its children do. -/
theorem Laid.spread_of_scalar {operator : ScalarOp} (kind : expr.operator = .scalar operator)
    (gathers : operator.gathers = true) (first : memo.firstMember expr.group = .ok expr) :
    memo.Spread catalog expr.group := by
  have children := laid.scalar_children stored kind gathers
  have contents : memo.contents expr.group = (expr.children.map memo.contents).sum := by
    rw [valid.contents_eq first, kind]
    exact Operator.gather_of_gathers gathers
  have profile := valid.profile_eq catalog first
  have scalar : memo.Scalar expr.group := valid.scalar_of_stored stored (by rw [kind]; rfl)
  have own : ∀ column, column ∈ (Scope.ofScalar operator
      ((expr.children.map (memo.profile catalog)).map Profile.scope)).free ↔
        ∃ child ∈ expr.children, column ∈ (memo.profile catalog child).scope.free := by
    intro column
    refine Iff.trans ?_ (valid.exists_inputs stored fun scope => column ∈ scope.free)
    rcases ScalarOp.gathers_iff.1 gathers with rfl | rfl
    · simp [Scope.ofScalar]
    · simp [Scope.ofScalar]
  refine ⟨fun relational => absurd relational scalar.not_relational, fun column _ => ?_,
    fun table => ?_⟩
  · rw [contents, exists_mem_sum, profile, kind]
    refine (own column).trans (exists_congr fun child => and_congr_right fun member => ?_)
    exact (below child member).free column fun relational =>
      absurd relational (children child member).not_relational
  · rw [contents, exists_mem_sum, profile, kind, Profile.of, SortedSet.mem_addAll]
    simp only [Profile.scanned, List.mem_map, exists_exists_and_eq_and, SortedSet.not_mem_empty,
      false_or]
    exact exists_congr fun child => and_congr_right fun member => (below child member).partitions table

end Laid

/-! ### Members of one group -/

section Formed

variable {breadth : GroupId → Breadth} (formed : memo.Formed breadth)
include formed

/-- **Every group amounts to what it holds.** -/
theorem Formed.spread : ∀ {id : GroupId}, id < memo.groups.size → memo.Spread catalog id := by
  have valid := formed.toValid
  have laid : memo.Laid := formed.laid
  intro id
  induction id using Nat.strongRecOn with
  | ind id ih =>
    intro inside
    obtain ⟨expr, found⟩ := valid.exists_firstMember inside
    obtain ⟨_, number, there, place, stored⟩ := firstMember_ok_iff.1 found
    obtain ⟨rfl, older⟩ := valid.of_firstMember found
    obtain ⟨_, again, _, first⟩ := valid.listed there place
    obtain rfl := Option.some.inj (stored.symm.trans again)
    have below : ∀ child ∈ expr.children, memo.Spread catalog child := fun child member =>
      ih child (older child member) (valid.childExists stored member)
    cases gathers : expr.operator.gathers with
    | false =>
      exact .single ((valid.contents_eq found).trans (Operator.gather_of_not_gathers gathers))
    | true =>
      have head := (formed.seated stored).headed first
      cases kind : expr.operator with
      | scalar operator =>
        rw [kind] at gathers
        exact laid.spread_of_scalar valid stored below kind gathers found
      | logical operator =>
        have contents := (valid.contents_eq found).trans (Operator.gather_of_gathers gathers)
        rw [kind] at gathers
        have whole := laid.collects_of_logical valid stored below kind gathers
        rw [← contents, ← valid.profile_eq catalog found] at whole
        exact whole.spread (valid.relational_of_stored stored (by rw [kind]; rfl))
      | physical operator =>
        rw [kind] at head
        cases head

variable (holds : memo.Holds) (stored : memo.exprs[number]? = some expr)
include holds stored

/-- **Where one relational member gathers**, the group does not hold itself. -/
theorem Formed.contents_ne (family : expr.operator.isScalar = false)
    (gathers : expr.operator.gathers = true) : memo.contents expr.group ≠ {expr.group} := by
  intro alone
  have valid := formed.toValid
  have whole := holds number expr stored
  rw [Operator.gather_of_gathers gathers, alone] at whole
  -- One child holds the group, and nothing else is held. So it stands for as many tables, and is older.
  obtain ⟨_, listed, held⟩ := mem_sum.1 (whole ▸ Multiset.mem_singleton_self expr.group)
  obtain ⟨child, member, rfl⟩ := List.mem_map.1 listed
  have inside := valid.childExists stored member
  have relational := valid.relational_of_stored stored family
  have itself : memo.contents child = {expr.group} := by
    have part : memo.contents child ≤ {expr.group} :=
      Multiset.le_iff_exists_add.2 ⟨_, whole.symm.trans (List.sum_erase listed).symm⟩
    refine (Multiset.le_singleton.1 part).resolve_left fun nothing => ?_
    rw [nothing] at held
    exact Multiset.notMem_zero _ held
  have tables : (breadth child).tables = (breadth expr.group).tables := by
    rw [formed.tables_eq_contents inside, formed.tables_eq_contents relational.inside, itself, alone]
  have same : breadth child = breadth expr.group := by
    obtain ⟨count, relation⟩ := formed.breadth_of_relational relational
    have positive := formed.positive relational.inside relation
    rw [relation] at tables ⊢
    cases shown : breadth child with
    | scalar =>
      rw [shown] at tables
      exact absurd tables (Nat.ne_of_lt positive)
    | relation other =>
      rw [shown] at tables
      exact congrArg Breadth.relation tables
  have older := (formed.seated stored).older child member same
  exact absurd older (Nat.not_lt.2 (valid.of_mem_contents inside held).1)

end Formed

/-- An expression that was inserted is the first member of its group. -/
theorem Built.firstMember (built : memo.Built) (stored : memo.exprs[number]? = some expr) :
    memo.firstMember expr.group = .ok expr := by
  have position : expr.position = 0 := by
    induction built with
    | empty => simp [Memo.empty] at stored
    | insert _ _ _ done ih =>
      rcases stored_insert done stored with before | ⟨_, _, first, _⟩
      · exact ih before
      · exact first
  obtain ⟨_, formed⟩ := built.formed
  exact formed.toValid.firstMember_of_position stored position

/-- **Every logical member has the profile of its group**: it makes and takes the same columns and
scans the same tables. -/
theorem Rearranged.profile_eq {forms : Prop} {first : Memo} {breadth : GroupId → Breadth}
    (rearranged : Rearranged forms first memo) (built : first.Built) (formed : memo.Formed breadth)
    (catalog : Catalog) (stored : memo.exprs[number]? = some expr) {operator : LogicalOp}
    (logical : expr.operator = .logical operator) : memo.profile catalog expr.group =
      .of catalog expr.operator (expr.children.map (memo.profile catalog)) := by
  have valid := formed.toValid
  have laid : memo.Laid := formed.laid
  have family : expr.operator.isScalar = false := by rw [logical]; rfl
  have relational := valid.relational_of_stored stored family
  obtain ⟨head, found⟩ := valid.exists_firstMember relational.inside
  obtain ⟨_, other, _, _, storedHead⟩ := firstMember_ok_iff.1 found
  obtain ⟨named, _⟩ := valid.of_firstMember found
  have spreads : ∀ {expr : Expr} {number : ExprId}, memo.exprs[number]? = some expr →
      ∀ child ∈ expr.children, memo.Spread catalog child := fun stored child member =>
    formed.spread (valid.childExists stored member)
  cases gathers : expr.operator.gathers with
  | false =>
    -- No logical expression that does not gather was added.
    refine valid.profile_eq catalog ?_
    rcases rearranged.added stored with before | added
    · exact rearranged.grows.firstMember (built.firstMember before)
    · cases added with
      | conjunction operators =>
        rw [operators, isScalar_conjoining] at family
        cases family
      | join inner operators =>
        rw [operators] at gathers
        exact absurd (gathers.symm.trans inner) nofun
      | select _ operators =>
        rw [operators] at gathers
        cases gathers
      | physical _ _ operators =>
        rw [logical] at operators
        cases operators
  | true =>
    have several := formed.contents_ne rearranged.holds stored family gathers
    have whole := rearranged.holds number expr stored
    have wholeHead := rearranged.holds other head storedHead
    rw [named] at wholeHead
    have gathersHead : head.operator.gathers = true := by
      refine Bool.eq_true_of_not_eq_false fun alone => several ?_
      rwa [Operator.gather_of_not_gathers alone, eq_comm] at wholeHead
    rw [Operator.gather_of_gathers gathers] at whole
    rw [Operator.gather_of_gathers gathersHead] at wholeHead
    obtain ⟨operatorHead, logicalHead, _⟩ :=
      LogicalFirst.firstLogical_eq formed.logicalFirst relational found
    rw [logical] at gathers
    rw [logicalHead] at gathersHead
    have one := laid.collects_of_logical valid stored (spreads stored) logical gathers
    have two := laid.collects_of_logical valid storedHead (spreads storedHead) logicalHead gathersHead
    rw [whole] at one
    rw [wholeHead] at two
    exact (valid.profile_eq catalog found).trans (two.unique one)

end Cascades.Memo
