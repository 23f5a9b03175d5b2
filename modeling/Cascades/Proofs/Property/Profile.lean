/-
**What is derived of a group.**

The columns of a group and the partitioned tables that are scanned in it follow from its first member
alone. So they can be told without deriving anything, and where nothing that is known is out of date,
what is known of a group is just that.

* `Profile`, `Profile.of`: the scope and the partitioned tables of an operator over inputs;
* `Memo.profile`: those of a group;
* `Profiled`: what is known of a group is its profile; `Fresh.profiled`: it is, of all groups;
* `Fresh.knowsTables`: and its number of joined tables;
* `Fresh.derive_eq`, `Fresh.deriveDepth_eq`: what is derived from any expression over complete groups.
-/

import Cascades.Proofs.Gathering.Counting
import Cascades.Proofs.Property.Scratch

namespace Cascades

/-! ### Profiles -/

/-- The columns of a group and the partitioned tables that are scanned in it. -/
structure Profile where
  scope : Scope
  partitions : TableSet
  deriving DecidableEq

namespace Profile

/-- The profile of a group that is not there. -/
def nothing : Profile where
  scope := ⟨false, .empty, .empty⟩
  partitions := .empty

/-- The partitioned table that an operator scans, if it scans one. -/
def scanned (catalog : Catalog) : Operator → TableSet
  | .logical (.get table _) =>
    if catalog.isPartitioned table then SortedSet.empty.insert table else .empty
  | _ => .empty

/-- The profile of an operator over inputs. -/
def of (catalog : Catalog) (operator : Operator) (inputs : List Profile) : Profile where
  scope := Scope.of operator (inputs.map scope)
  partitions := (scanned catalog operator).addAll (inputs.map partitions)

end Profile

namespace Memo

variable {memo : Memo} {id : GroupId} {expr : Expr}

/-- **The profile of a group.** -/
def profile (catalog : Catalog) (memo : Memo) : GroupId → Profile :=
  memo.fold (Profile.of catalog) .nothing

theorem Linked.profile_eq (linked : memo.Linked) (catalog : Catalog)
    (found : memo.firstMember id = .ok expr) : memo.profile catalog id =
      .of catalog expr.operator (expr.children.map (memo.profile catalog)) :=
  linked.fold_eq found

theorem Linked.scope_eq (linked : memo.Linked) (catalog : Catalog)
    (found : memo.firstMember id = .ok expr) : (memo.profile catalog id).scope =
      .of expr.operator (expr.children.map fun child => (memo.profile catalog child).scope) := by
  rw [linked.profile_eq catalog found, Profile.of, List.map_map]
  rfl

end Memo

@[simp] theorem Scope.isScalar_of {operator : Operator} {inputs : List Scope} :
    (Scope.of operator inputs).isScalar = operator.isScalar := by
  cases operator <;> rfl

theorem Memo.Valid.isScalar_profile {memo : Memo} (valid : memo.Valid) {catalog : Catalog}
    {id : GroupId} (inside : id < memo.groups.size) :
    (memo.profile catalog id).scope.isScalar = memo.isScalarGroup id := by
  obtain ⟨expr, found⟩ := valid.exists_firstMember inside
  obtain ⟨_, number, there, _, stored⟩ := Memo.firstMember_ok_iff.1 found
  obtain ⟨rfl, _⟩ := valid.of_firstMember found
  rw [valid.scope_eq catalog found, Scope.isScalar_of, valid.family stored there, Memo.isScalarGroup,
    there]

/-- The rule for partitioned tables, in one piece. -/
theorem RelationalProperty.derivePartitions_scanned {context : Context} {expr : Expr}
    {operator : LogicalOp} : RelationalProperty.derivePartitions context expr operator = (do
      let scalars ← gather (Profile.scanned context.catalog (.logical operator))
        (context.memo.scalarChildren expr) fun child =>
          return (← context.scalarProperties child) .partitions
      gather scalars (context.memo.relationalChildren expr) fun child =>
        return (← context.relationalProperties child) .partitions) := by
  cases operator <;> rfl

namespace Context

variable {context : Context} {id : GroupId}

/-! ### What is known -/

/-- **What is known of a group** is its profile. -/
structure Profiled (context : Context) (id : GroupId) : Prop extends
    context.Reflects (fun id => (context.memo.profile context.catalog id).scope) id where
  scalarPartitions : ∀ {values : ScalarProperties}, context.scalarProperties id = .ok values →
    values .partitions = (context.memo.profile context.catalog id).partitions
  relationalPartitions : ∀ {values : RelationalProperties},
    context.relationalProperties id = .ok values →
      values .partitions = (context.memo.profile context.catalog id).partitions

section Children

variable {expr : Expr}

/-- The scalar children and the relational ones are all children. -/
theorem addAll_children {α : Type} [Ord α] [Std.TransOrd α] [Std.LawfulEqOrd α]
    {start : SortedSet α} {view : GroupId → SortedSet α} :
    (start.addAll ((context.memo.scalarChildren expr).map view)).addAll
        ((context.memo.relationalChildren expr).map view) =
      start.addAll (expr.children.map view) := by
  refine SortedSet.ext fun value => ?_
  simp only [SortedSet.mem_addAll, List.mem_map, exists_exists_and_eq_and, Memo.scalarChildren,
    Memo.relationalChildren, List.mem_filter, or_assoc]
  refine or_congr_right ⟨?_, ?_⟩
  · rintro (⟨child, ⟨member, _⟩, inside⟩ | ⟨child, ⟨member, _⟩, inside⟩)
    · exact ⟨child, member, inside⟩
    · exact ⟨child, member, inside⟩
  · rintro ⟨child, member, inside⟩
    cases family : context.memo.isScalarGroup child with
    | true => exact Or.inl ⟨child, ⟨member, family⟩, inside⟩
    | false => exact Or.inr ⟨child, ⟨member, by rw [family]; rfl⟩, inside⟩

variable (profiled : ∀ child ∈ expr.children, context.Profiled child)
include profiled

/-- The partitioned tables that are scanned below a set. -/
theorem gather_partitions {start found : TableSet}
    (done : (do
      let scalars ← gather start (context.memo.scalarChildren expr) fun child =>
        return (← context.scalarProperties child) .partitions
      gather scalars (context.memo.relationalChildren expr) fun child =>
        return (← context.relationalProperties child) .partitions) = .ok found) :
    found = start.addAll
      ((expr.children.map (context.memo.profile context.catalog)).map Profile.partitions) := by
  obtain ⟨scalars, first, done⟩ := bind_eq_ok_iff.1 done
  let view (child : GroupId) : TableSet := (context.memo.profile context.catalog child).partitions
  have early : scalars = start.addAll ((context.memo.scalarChildren expr).map view) := by
    refine gather_eq (fun child member set read => ?_) first
    obtain ⟨values, known, same⟩ := bind_eq_ok_iff.1 read
    cases pure_eq_ok_iff.1 same
    exact (profiled child (List.mem_of_mem_filter member)).scalarPartitions known
  have late : found = scalars.addAll ((context.memo.relationalChildren expr).map view) := by
    refine gather_eq (fun child member set read => ?_) done
    obtain ⟨values, known, same⟩ := bind_eq_ok_iff.1 read
    cases pure_eq_ok_iff.1 same
    exact (profiled child (List.mem_of_mem_filter member)).relationalPartitions known
  rw [late, early, addAll_children, List.map_map]
  rfl

end Children

section Fresh

variable (fresh : context.Fresh)
include fresh

/-- A scalar property that is known is the one that is derived from the first member. -/
theorem Fresh.derive_scalar {expr : Expr} (found : context.memo.firstMember id = .ok expr)
    {property : ScalarProperty} {value : property.Value}
    (known : (context.scalar id).get? property = some value) :
    property.derive context.ample expr = .ok value := by
  obtain ⟨_, again, derived⟩ :=
    bind_eq_ok_iff.1 (fresh.current.settle fresh.valid.toLinked known).2
  obtain rfl := Except.ok.inj (found.symm.trans again)
  exact derived

/-- A relational property that is known, but for the bound on the number of rows, is derived without
the constraint, and the first member is logical. -/
theorem Fresh.derive_relational {expr : Expr} (found : context.memo.firstMember id = .ok expr)
    {property : RelationalProperty} {value : property.Value}
    (known : (context.facts.relational id).get? property = some value)
    (plain : property ≠ .maxCardinality) :
    ∃ operator, expr.operator = .logical operator ∧
      context.memo.firstLogical id = .ok (expr, operator) ∧
      property.derive context.ample id none = .ok value := by
  obtain ⟨relational, settled⟩ := fresh.current.relational known
  obtain ⟨operator, logical, first⟩ := Memo.LogicalFirst.firstLogical_eq fresh.headed relational found
  rw [RelationalProperty.settle, if_neg plain] at settled
  exact ⟨operator, logical, first, settled⟩

omit fresh in
/-- What is derived through the first logical member is derived from it. -/
theorem derived_from_first {α : Type} {pair : Expr × LogicalOp}
    {rest : Expr × LogicalOp → Except Fault α} {value : α}
    (first : context.memo.firstLogical id = .ok pair)
    (done : (do
      let pair ← (context.memo.firstLogical id : Except Fault (Expr × LogicalOp))
      (rest pair : Except Fault α) : Except Failure α) = .ok value) : rest pair = .ok value := by
  obtain ⟨_, given, done⟩ := bind_eq_ok_iff.1 done
  cases first.symm.trans (lift_fault_eq_ok_iff.1 given)
  exact lift_fault_eq_ok_iff.1 done

/-- **What is known of a group is its profile**, where nothing is out of date. -/
theorem Fresh.profiled : ∀ {id : GroupId}, id < context.memo.groups.size → context.Profiled id := by
  intro id
  induction id using Nat.strongRecOn with
  | ind id ih =>
    intro inside
    have valid := fresh.valid
    obtain ⟨expr, found⟩ := valid.exists_firstMember inside
    obtain ⟨_, number, there, _, stored⟩ := Memo.firstMember_ok_iff.1 found
    obtain ⟨rfl, older⟩ := valid.of_firstMember found
    have below : ∀ child ∈ expr.children, context.Profiled child := fun child member =>
      ih child (older child member) (valid.childExists stored member)
    -- The guard does not matter for what is read.
    have reflects : ∀ child ∈ expr.children, context.ample.Reflects
        (fun id => (context.memo.profile context.catalog id).scope) child := fun child member =>
      ⟨(below child member).isScalar, (below child member).scalar, (below child member).relational⟩
    have scope := valid.scope_eq context.catalog found
    have whole := valid.profile_eq context.catalog found
    refine ⟨⟨valid.isScalar_profile inside, fun {values} read property => ?_,
      fun {values} read property => ?_⟩, fun {values} read => ?_, fun {values} read => ?_⟩
    · obtain ⟨operator, other, again, kind, _⟩ :=
        Memo.Scalar.exists_scalarFirst? (scalarProperties_cases read).1 valid
      obtain rfl := Except.ok.inj (found.symm.trans again)
      rw [scope]
      exact agrees_scalar reflects kind (fresh.derive_scalar found (known_of_scalarProperties read property))
    · cases property with
      | outputColumns =>
        obtain ⟨operator, kind, first, derived⟩ :=
          fresh.derive_relational found (known_of_relationalProperties read .outputColumns) nofun
        rw [scope, kind]
        exact derive_output reflects (derived_from_first first derived)
      | outerReferences =>
        obtain ⟨operator, kind, first, derived⟩ :=
          fresh.derive_relational found (known_of_relationalProperties read .outerReferences) nofun
        rw [scope, kind]
        exact derive_outer reflects (derived_from_first first derived)
      | _ => trivial
    · obtain ⟨operator, other, again, kind, _⟩ :=
        Memo.Scalar.exists_scalarFirst? (scalarProperties_cases read).1 valid
      obtain rfl := Except.ok.inj (found.symm.trans again)
      rw [whole, kind]
      exact gather_partitions below (fresh.derive_scalar found (known_of_scalarProperties read .partitions))
    · obtain ⟨operator, kind, first, derived⟩ :=
        fresh.derive_relational found (known_of_relationalProperties read .partitions) nofun
      have partitions : RelationalProperty.derivePartitions context.ample expr operator = _ :=
        derived_from_first first derived
      rw [RelationalProperty.derivePartitions_scanned] at partitions
      rw [whole, kind]
      exact gather_partitions below partitions

omit fresh in
/-- Numbers of joined tables that are added up. -/
theorem addDepths_sum {tables : GroupId → Nat} {children : List GroupId} {depth total : Nat}
    (each : ∀ child ∈ children, ∀ values, context.relationalProperties child = .ok values →
      values .joinDepth = tables child) (bounded : depth ≤ greatestCount)
    (done : (children.foldlM (fun depth child => do
      Count.add depth ((← context.relationalProperties child) .joinDepth)) depth) = .ok total) :
    total = depth + (children.map tables).sum ∧ total ≤ greatestCount := by
  induction children generalizing depth with
  | nil =>
    cases pure_eq_ok_iff.1 done
    exact ⟨rfl, bounded⟩
  | cons child children ih =>
    rw [List.foldlM_cons] at done
    obtain ⟨sum, one, done⟩ := bind_eq_ok_iff.1 done
    obtain ⟨values, read, one⟩ := bind_eq_ok_iff.1 one
    obtain ⟨rfl, counts⟩ := Count.add_eq_ok_iff.1 one
    obtain ⟨rfl, small⟩ :=
      ih (fun other member => each other (List.mem_cons_of_mem _ member)) counts done
    rw [each child List.mem_cons_self values read] at small ⊢
    rw [List.map_cons, List.sum_cons, ← Nat.add_assoc]
    exact ⟨rfl, small⟩

/-- **The numbers of joined tables that are known are right**, where nothing is out of date. -/
theorem Fresh.knowsTables {breadth : GroupId → Breadth} (formed : context.memo.Formed breadth) :
    context.KnowsTables fun id => (breadth id).tables := by
  intro id
  induction id using Nat.strongRecOn with
  | ind id ih =>
    intro property value known
    have relational := (fresh.current.relational known).1
    refine ⟨relational.inside, ?_⟩
    cases property with
    | joinDepth =>
      obtain ⟨expr, found⟩ := fresh.valid.exists_firstMember relational.inside
      obtain ⟨_, number, _, _, stored⟩ := Memo.firstMember_ok_iff.1 found
      obtain ⟨rfl, older⟩ := fresh.valid.of_firstMember found
      obtain ⟨operator, logical, first, derived⟩ := fresh.derive_relational found known nofun
      have derived : RelationalProperty.deriveDepth context.ample expr operator = _ :=
        derived_from_first first derived
      have below : ∀ child ∈ context.memo.relationalChildren expr, ∀ values,
          context.relationalProperties child = .ok values →
            values .joinDepth = (breadth child).tables := by
        intro child member values read
        have among := List.mem_of_mem_filter member
        exact (ih child (older child among) .joinDepth _ (known_of_relationalProperties read .joinDepth)).2.1
      cases operator with
      | get =>
        cases pure_eq_ok_iff.1 derived
        exact ⟨(formed.tables_single stored logical).symm, by decide⟩
      | _ =>
        obtain ⟨rfl, small⟩ := addDepths_sum below (Nat.zero_le _) derived
        rw [Nat.zero_add] at small ⊢
        exact ⟨(formed.tables_sum stored logical nofun).symm, small⟩
    | _ => trivial

end Fresh

/-! ### Expressions over complete groups -/

section Expressions

variable (fresh : context.Fresh) {breadth : GroupId → Breadth} (formed : context.memo.Formed breadth)
  {expr : Expr} {number : ExprId} (stored : context.memo.exprs[number]? = some expr)
  {operator : LogicalOp} (logical : expr.operator = .logical operator)
  (complete : ∀ child ∈ expr.children, context.Complete child)
include fresh formed stored logical complete

/-- **What is derived from an expression** is its profile over those of its children. -/
theorem Fresh.derive_eq {profile : Profile} (same : profile =
      .of context.catalog expr.operator (expr.children.map (context.memo.profile context.catalog))) :
    RelationalProperty.deriveOutput context expr operator = .ok profile.scope.columns ∧
      RelationalProperty.deriveOuter context expr operator = .ok profile.scope.free ∧
      RelationalProperty.derivePartitions context expr operator = .ok profile.partitions := by
  have valid := formed.toValid
  have below : ∀ child ∈ expr.children, context.Profiled child := fun child member =>
    fresh.profiled (valid.childExists stored member)
  have reflects : ∀ child ∈ expr.children, context.Reflects
      (fun id => (context.memo.profile context.catalog id).scope) child := fun child member =>
    (below child member).toReflects
  obtain ⟨columns, output, _⟩ := (deriveOutput_ends valid formed.laid stored logical complete).exists_ok
  obtain ⟨free, outer, _⟩ : ∃ free,
      RelationalProperty.deriveOuter context expr operator = .ok free ∧ True :=
    (deriveOuter_ends valid stored complete).exists_ok
  obtain ⟨tables, partitions, _⟩ : ∃ tables,
      RelationalProperty.derivePartitions context expr operator = .ok tables ∧ True :=
    (derivePartitions_ends valid stored complete).exists_ok
  have scope : profile.scope = .ofLogical operator
      (expr.children.map fun child => (context.memo.profile context.catalog child).scope) := by
    rw [same, logical, Profile.of, List.map_map]
    rfl
  refine ⟨?_, ?_, ?_⟩
  · rw [output, scope, derive_output reflects output]
    rfl
  · rw [outer, scope, derive_outer reflects outer]
  · rw [partitions, same, logical]
    rw [RelationalProperty.derivePartitions_scanned] at partitions
    rw [gather_partitions below partitions]
    rfl

/-- **The number of joined tables** that is derived from an expression is that of its group, unless it
is too great to be counted. -/
theorem Fresh.deriveDepth_eq : RelationalProperty.deriveDepth context expr operator =
    Count.add 0 (breadth expr.group).tables := by
  have knows := fresh.knowsTables formed
  have reads : ∀ {faulty : Fault → Prop}, ∀ child ∈ context.memo.relationalChildren expr,
      Ends faulty (context.relationalProperties child) fun _ => True :=
    relationalChild_ends formed.toValid stored complete
  have total : ∀ sum, sum =
        ((context.memo.relationalChildren expr).map fun child => (breadth child).tables).sum →
      ((context.memo.relationalChildren expr).foldlM (fun depth child => do
        Count.add depth ((← context.relationalProperties child) .joinDepth)) 0) =
          Count.add 0 sum := by
    intro sum same
    by_cases small : sum ≤ greatestCount
    · obtain ⟨depth, done, right⟩ := (addDepths_ends reads (fun _ : True => knows) (Nat.zero_le _)
        fun _ => ⟨trivial, by rw [Nat.zero_add, ← same]; exact small⟩).exists_ok
      obtain ⟨rfl, counts⟩ := right trivial
      rw [← same] at done counts
      rw [done, Count.add_eq_ok_iff.2 ⟨rfl, counts⟩]
    · let overflows (cause : Fault) : Prop := cause = .sumTooGreat
      have ends : Ends overflows _ _ := addDepths_ends reads (fun _ : True => knows) (Nat.zero_le _)
        (absurd rfl)
      rw [Count.add, if_neg (by rwa [Nat.zero_add])]
      cases done : (context.memo.relationalChildren expr).foldlM (fun depth child => do
          Count.add depth ((← context.relationalProperties child) .joinDepth)) 0 with
      | ok depth =>
        rw [done] at ends
        obtain ⟨rfl, counts⟩ := ends trivial
        rw [Nat.zero_add, ← same] at counts
        exact absurd counts small
      | error cause =>
        rw [done] at ends
        exact congrArg Except.error ends
  cases operator with
  | get =>
    rw [formed.tables_single stored logical]
    rfl
  | _ => exact total _ (formed.tables_sum stored logical nofun)

end Expressions

end Context

end Cascades
