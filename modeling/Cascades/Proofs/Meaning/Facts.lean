/-
**Known properties and scopes.**

The columns that are derived for a group are those of its scope: what a scalar defines and uses, and
what a relation puts out and takes from outside. Properties are derived from a first member or from a
first logical one, and in a sound memo every member has the scope of its group.

* `Coherent`: a sound memo, with true columns wherever they are known;
* `Coherent.scalarProperties`, `Coherent.relationalProperties`: what rules read;
* `Reflects`: a group of which a scope is known; `agrees_scalar`, `derive_output`, `derive_outer`: what
  is derived over such groups is the scope of the operator over theirs;
* `derive_scalar`, `derive_relational`: in a coherent context, what is derived is true.
-/

import Cascades.Proofs.Meaning.Sound
import Cascades.Proofs.Property.Reading

namespace Cascades

variable {V : Type} {I : Interpretation V}

/-! ### Sheets -/

theorem Facts.getD_setAt {α : Type} {blank : α} {values : Array α} {position other : Nat} {value : α} :
    (Facts.setAt blank values position value).getD other blank =
      if other = position then value else values.getD other blank := by
  unfold setAt
  by_cases inside : position < values.size
  · rw [if_pos inside]
    by_cases same : other = position
    · subst same
      simp [Array.getD_eq_getD_getElem?, inside]
    · simp [Array.getD_eq_getD_getElem?, same, Ne.symm same]
  · rw [if_neg inside]
    simp only [Array.getD_eq_getD_getElem?, Array.getElem?_push, Array.size_append,
      Array.size_replicate, Array.getElem?_append, Array.getElem?_replicate]
    by_cases same : other = position
    · rw [if_pos (by omega), if_pos same]
      rfl
    · rw [if_neg (by omega), if_neg same]
      by_cases old : other < values.size
      · rw [if_pos old]
      · rw [if_neg old, Array.getElem?_eq_none (Nat.le_of_not_lt old)]
        split <;> rfl

@[simp] theorem Facts.scalar_setScalar {facts : Facts} {sheet other : SheetId}
    {content : ScalarSheet} :
    (facts.setScalar sheet content).scalar other =
      if other = sheet then content else facts.scalar other :=
  Facts.getD_setAt

@[simp] theorem Facts.relational_setRelational {facts : Facts} {group other : GroupId}
    {content : RelationalSheet} :
    (facts.setRelational group content).relational other =
      if other = group then content else facts.relational other :=
  Facts.getD_setAt

@[simp] theorem Facts.scalarTally_tallyScalar {facts : Facts} {sheet other : SheetId} :
    (facts.tallyScalar sheet).scalarTally other =
      if other = sheet then facts.scalarTally sheet + 1 else facts.scalarTally other :=
  Facts.getD_setAt

@[simp] theorem Facts.relationalTally_tallyRelational {facts : Facts} {group other : GroupId} :
    (facts.tallyRelational group).relationalTally other =
      if other = group then facts.relationalTally group + 1 else facts.relationalTally other :=
  Facts.getD_setAt

namespace Context

variable {context : Context} {id : GroupId} {sheet : SheetId}

/-- What is known of a scalar group is what its sheet holds. -/
theorem scalar_eq (own : context.memo.sheet? id = some sheet) :
    context.scalar id = context.facts.scalar sheet := by
  simp [scalar, own]

/-- A group of which something is known has a sheet. -/
theorem exists_sheet {property : ScalarProperty} {value : property.Value}
    (known : (context.scalar id).get? property = some value) :
    ∃ sheet, context.memo.sheet? id = some sheet ∧
      (context.facts.scalar sheet).get? property = some value := by
  cases own : context.memo.sheet? id with
  | none => simp [scalar, own] at known
  | some sheet => exact ⟨sheet, rfl, scalar_eq own ▸ known⟩

theorem scalarExpr_eq {after : Context} (same : after.memo = context.memo) (number : ExprId) :
    after.scalarExpr number = context.scalarExpr number := by
  unfold scalarExpr
  rw [same]

/-- A scalar expression and the sheet of its group. -/
theorem scalarExpr_cases (linked : context.memo.Linked) {id : ExprId} {expr : Expr} {sheet : SheetId}
    (done : context.scalarExpr id = .ok (expr, sheet)) :
    context.memo.exprs[id]? = some expr ∧ context.memo.sheet? expr.group = some sheet ∧
      ∃ operator, expr.operator = .scalar operator := by
  obtain ⟨stored, own⟩ := scalarExpr_ok_iff.1 done
  have family := linked.isSome_sheet stored
  rw [own] at family
  refine ⟨stored, (linked.sheet_eq stored).symm.trans own, ?_⟩
  cases kind : expr.operator with
  | scalar operator => exact ⟨operator, rfl⟩
  | logical operator =>
    rw [kind] at family
    cases family
  | physical operator =>
    rw [kind] at family
    cases family

theorem scalar_noteScalar {property : ScalarProperty} {value : property.Value} {other : SheetId} :
    (context.noteScalar sheet property value).facts.scalar other =
      if other = sheet then (context.facts.scalar sheet).put property value
      else context.facts.scalar other :=
  Facts.scalar_setScalar

theorem relational_noteRelational {property : RelationalProperty} {value : property.Value}
    {other : GroupId} :
    (context.noteRelational id property value).facts.relational other =
      if other = id then (context.facts.relational id).put property value
      else context.facts.relational other :=
  Facts.relational_setRelational

theorem scalar_completeScalar {values : ScalarProperties} {other : SheetId} :
    (context.completeScalar sheet values).facts.scalar other =
      if other = sheet then .complete values else context.facts.scalar other :=
  Facts.scalar_setScalar

theorem relational_completeRelational {values : RelationalProperties} {other : GroupId} :
    (context.completeRelational id values).facts.relational other =
      if other = id then .complete values else context.facts.relational other :=
  Facts.relational_setRelational

section Others

variable (linked : context.memo.Linked) (own : context.memo.sheet? id = some sheet) {other : GroupId}
  (different : other ≠ id)
include linked own different

/-- A sheet that is written into belongs to no other group. -/
theorem scalar_of_others {after : Context} (memo : after.memo = context.memo)
    (others : ∀ kept, kept ≠ sheet → after.facts.scalar kept = context.facts.scalar kept) :
    after.scalar other = context.scalar other := by
  unfold Context.scalar
  rw [memo]
  cases there : context.memo.sheet? other with
  | none => rfl
  | some kept =>
    refine others kept ?_
    rintro rfl
    exact different (linked.sheet?_unique there own)

theorem scalar_noteScalar_ne {property : ScalarProperty} {value : property.Value} :
    (context.noteScalar sheet property value).scalar other = context.scalar other :=
  scalar_of_others linked own different rfl fun _ kept => scalar_noteScalar.trans (if_neg kept)

theorem scalar_completeScalar_ne {values : ScalarProperties} :
    (context.completeScalar sheet values).scalar other = context.scalar other :=
  scalar_of_others linked own different rfl fun _ kept => scalar_completeScalar.trans (if_neg kept)

end Others

end Context

/-! ### Agreement -/

/-- The columns of a scalar are those of its scope. -/
def ScalarProperty.Agrees (scope : Scope) : (property : ScalarProperty) → property.Value → Prop
  | .definedColumns, value => value = scope.columns
  | .usedColumns, value => value = scope.free
  | _, _ => True

/-- The columns of a relation are those of its scope. -/
def RelationalProperty.Agrees (scope : Scope) :
    (property : RelationalProperty) → property.Value → Prop
  | .outputColumns, value => value = scope.columns
  | .outerReferences, value => value = scope.free
  | _, _ => True

namespace Context

/-- The memo is sound, and the columns that are known are those of the scopes. -/
structure Coherent (I : Interpretation V) (context : Context) : Prop where
  sound : context.memo.Sound I
  scalar : ∀ {sheet : SheetId} {property : ScalarProperty} {value : property.Value},
    (context.facts.scalar sheet).get? property = some value →
      ∃ id, context.memo.sheet? id = some sheet ∧
        property.Agrees (context.memo.sense I id).scope value
  relational : ∀ {id : GroupId} {property : RelationalProperty} {value : property.Value},
    (context.facts.relational id).get? property = some value → id < context.memo.groups.size ∧
      property.Agrees (context.memo.sense I id).scope value

variable {context : Context} {id : GroupId}

theorem scalarProperties_cases {values : ScalarProperties}
    (done : context.scalarProperties id = .ok values) :
    (∃ group, context.memo.groups[id]? = some group ∧ group.isScalar = true) ∧
      context.scalar id = .complete values := by
  unfold scalarProperties at done
  obtain ⟨group, there, done⟩ := bind_eq_ok_iff.1 done
  cases scalar : group.isScalar with
  | false =>
    rw [scalar] at done
    cases done
  | true =>
    rw [scalar] at done
    refine ⟨⟨group, Memo.group_ok_iff.1 there, scalar⟩, ?_⟩
    obtain ⟨first, place, done⟩ := bind_eq_ok_iff.1 done
    obtain ⟨⟨expr, sheet⟩, named, done⟩ := bind_eq_ok_iff.1 done
    obtain ⟨stored, own⟩ := scalarExpr_ok_iff.1 named
    rw [scalar_eq (Memo.sheet?_eq_some_iff.2 ⟨expr, Memo.firstMember_ok_iff.2 ⟨group, first,
      Memo.group_ok_iff.1 there, Group.first_ok_iff.1 place, stored⟩, own⟩)]
    cases known : context.facts.scalar sheet with
    | draft some =>
      simp only [known] at done
      cases done
    | complete others =>
      simp only [known] at done
      cases done
      rfl

theorem scalarProperties_ok {values : ScalarProperties} (scalar : context.memo.Scalar id)
    (complete : context.scalar id = .complete values) :
    context.scalarProperties id = .ok values := by
  obtain ⟨group, there, family⟩ := scalar
  cases own : context.memo.sheet? id with
  | none =>
    unfold Context.scalar at complete
    rw [own] at complete
    cases complete
  | some sheet =>
    rw [scalar_eq own] at complete
    obtain ⟨expr, found, own⟩ := Memo.sheet?_eq_some_iff.1 own
    obtain ⟨again, first, same, place, stored⟩ := Memo.firstMember_ok_iff.1 found
    cases there.symm.trans same
    unfold scalarProperties
    refine bind_eq_ok_iff.2 ⟨group, Memo.group_ok_iff.2 there, ?_⟩
    rw [if_pos family]
    refine bind_eq_ok_iff.2 ⟨first, Group.first_ok_iff.2 place, ?_⟩
    refine bind_eq_ok_iff.2 ⟨(expr, sheet), scalarExpr_ok_iff.2 ⟨stored, own⟩, ?_⟩
    simp only [complete]
    rfl

theorem relationalProperties_cases {values : RelationalProperties}
    (done : context.relationalProperties id = .ok values) :
    (∃ group, context.memo.groups[id]? = some group ∧ group.isScalar = false) ∧
      context.facts.relational id = .complete values := by
  unfold relationalProperties at done
  obtain ⟨group, there, done⟩ := bind_eq_ok_iff.1 done
  cases scalar : group.isScalar with
  | true =>
    rw [scalar] at done
    cases done
  | false =>
    rw [scalar] at done
    refine ⟨⟨group, Memo.group_ok_iff.1 there, scalar⟩, ?_⟩
    cases sheet : context.facts.relational id with
    | draft known =>
      rw [sheet] at done
      cases done
    | complete others =>
      rw [sheet] at done
      cases done
      rfl

theorem relationalProperties_ok {values : RelationalProperties} (relational : context.memo.Relational id)
    (complete : context.facts.relational id = .complete values) :
    context.relationalProperties id = .ok values := by
  obtain ⟨group, there, family⟩ := relational
  unfold relationalProperties
  refine bind_eq_ok_iff.2 ⟨group, Memo.group_ok_iff.2 there, ?_⟩
  rw [if_neg (by rw [family]; decide), complete]
  rfl

/-- What is read of a complete group is known. -/
theorem known_of_scalarProperties {values : ScalarProperties}
    (read : context.scalarProperties id = .ok values) (property : ScalarProperty) :
    (context.scalar id).get? property = some (values property) := by
  rw [(scalarProperties_cases read).2]
  rfl

theorem known_of_relationalProperties {values : RelationalProperties}
    (read : context.relationalProperties id = .ok values) (property : RelationalProperty) :
    (context.facts.relational id).get? property = some (values property) := by
  rw [(relationalProperties_cases read).2]
  rfl

namespace Coherent

variable (coherent : context.Coherent I)
include coherent

/-- What is known of a scalar group agrees with its scope. -/
theorem agrees {property : ScalarProperty} {value : property.Value}
    (known : (context.scalar id).get? property = some value) :
    property.Agrees (context.memo.sense I id).scope value := by
  obtain ⟨sheet, own, known⟩ := exists_sheet known
  obtain ⟨other, same, agrees⟩ := coherent.scalar known
  exact coherent.sound.sheet?_unique same own ▸ agrees

/-- The properties of a scalar group agree with its scope. -/
theorem scalarProperties {values : ScalarProperties}
    (done : context.scalarProperties id = .ok values) (property : ScalarProperty) :
    property.Agrees (context.memo.sense I id).scope (values property) :=
  coherent.agrees (known_of_scalarProperties done property)

/-- The properties of a relational group agree with its scope. -/
theorem relationalProperties {values : RelationalProperties}
    (done : context.relationalProperties id = .ok values) (property : RelationalProperty) :
    property.Agrees (context.memo.sense I id).scope (values property) :=
  (coherent.relational (known_of_relationalProperties done property)).2

end Coherent

/-! ### Scopes of groups -/

/-- **What is known of a group** is that of a scope that it is given. -/
structure Reflects (scope : GroupId → Scope) (context : Context) (id : GroupId) : Prop where
  isScalar : (scope id).isScalar = context.memo.isScalarGroup id
  scalar : ∀ {values : ScalarProperties}, context.scalarProperties id = .ok values →
    ∀ property : ScalarProperty, property.Agrees (scope id) (values property)
  relational : ∀ {values : RelationalProperties}, context.relationalProperties id = .ok values →
    ∀ property : RelationalProperty, property.Agrees (scope id) (values property)

/-- What is known of the groups of a coherent context is that of their meanings. -/
theorem Coherent.reflects (coherent : context.Coherent I) (inside : id < context.memo.groups.size) :
    context.Reflects (fun id => (context.memo.sense I id).scope) id where
  isScalar := (coherent.sound.isScalarGroup_eq inside).symm
  scalar := coherent.scalarProperties
  relational := coherent.relationalProperties

/-! ### Derivation -/

/-- Sets that are gathered group by group. -/
theorem gather_eq {α : Type} [Ord α] [Std.TransOrd α] [Std.LawfulEqOrd α] {start found : SortedSet α}
    {groups : List GroupId} {read : GroupId → Except Fault (SortedSet α)}
    {known : GroupId → SortedSet α} (each : ∀ group ∈ groups, ∀ set, read group = .ok set →
      set = known group) (done : gather start groups read = .ok found) :
    found = start.addAll (groups.map known) := by
  unfold gather at done
  induction groups generalizing start with
  | nil => exact (pure_eq_ok_iff.1 done).symm
  | cons group groups ih =>
    rw [List.foldlM_cons] at done
    obtain ⟨middle, first, done⟩ := bind_eq_ok_iff.1 done
    obtain ⟨set, given, same⟩ := bind_eq_ok_iff.1 first
    have equal := pure_eq_ok_iff.1 same
    rw [each group List.mem_cons_self set given] at equal
    subst equal
    exact ih (fun other member => each other (List.mem_cons_of_mem _ member)) done

theorem firstLogical_cases {expr : Expr} {operator : LogicalOp} (valid : context.memo.Valid)
    (done : context.memo.firstLogical id = .ok (expr, operator)) :
    (∃ number : ExprId, context.memo.exprs[number]? = some expr) ∧ expr.group = id ∧
      expr.operator = .logical operator := by
  unfold Memo.firstLogical at done
  obtain ⟨group, there, done⟩ := bind_eq_ok_iff.1 done
  cases first : (context.memo.logicalMembers group).head? with
  | none =>
    rw [first] at done
    cases done
  | some member =>
    rw [first] at done
    obtain ⟨found, stored, done⟩ := bind_eq_ok_iff.1 done
    have listed := List.mem_of_mem_filter (List.mem_of_head? first)
    obtain ⟨position, place⟩ := Array.mem_iff_getElem?.1 (Array.mem_toList_iff.1 listed)
    obtain ⟨again, same, named, _⟩ := valid.listed (Memo.group_ok_iff.1 there) place
    rw [Memo.expr_ok_iff.1 stored] at same
    cases same
    cases kind : found.operator with
    | logical other =>
      rw [kind] at done
      cases pure_eq_ok_iff.1 done
      exact ⟨⟨member, Memo.expr_ok_iff.1 stored⟩, named, kind⟩
    | physical other =>
      rw [kind] at done
      cases done
    | scalar other =>
      rw [kind] at done
      cases done

section Reflects

variable {scope : GroupId → Scope} {expr : Expr}

theorem Reflects.readScalar (reflects : context.Reflects scope id) (property : ScalarProperty)
    (view : Scope → property.Value)
    (agrees : ∀ {scope value}, property.Agrees scope value → value = view scope)
    {value : property.Value}
    (done : (do return (← context.scalarProperties id) property) = .ok value) :
    value = view (scope id) := by
  obtain ⟨values, read, done⟩ := bind_eq_ok_iff.1 done
  cases pure_eq_ok_iff.1 done
  exact agrees (reflects.scalar read property)

theorem Reflects.readRelational (reflects : context.Reflects scope id) (property : RelationalProperty)
    (view : Scope → property.Value)
    (agrees : ∀ {scope value}, property.Agrees scope value → value = view scope)
    {value : property.Value}
    (done : (do return (← context.relationalProperties id) property) = .ok value) :
    value = view (scope id) := by
  obtain ⟨values, read, done⟩ := bind_eq_ok_iff.1 done
  cases pure_eq_ok_iff.1 done
  exact agrees (reflects.relational read property)

variable (reflects : ∀ child ∈ expr.children, context.Reflects scope child)
include reflects

theorem map_scalarChildren {α : Type} (view : Scope → α) :
    (context.memo.scalarChildren expr).map (fun child => view (scope child)) =
      (Scope.scalars (expr.children.map scope)).map view := by
  have families : context.memo.scalarChildren expr =
      expr.children.filter fun child => (scope child).isScalar :=
    List.filter_congr fun child member => (reflects child member).isScalar.symm
  rw [families, Scope.scalars, List.filter_map, List.map_map]
  rfl

theorem map_relationalChildren {α : Type} (view : Scope → α) :
    (context.memo.relationalChildren expr).map (fun child => view (scope child)) =
      (Scope.relations (expr.children.map scope)).map view := by
  have families : context.memo.relationalChildren expr =
      expr.children.filter fun child => !(scope child).isScalar := by
    refine List.filter_congr fun child member => ?_
    rw [(reflects child member).isScalar]
  rw [families, Scope.relations, List.filter_map, List.map_map]
  rfl

/-- The columns that are defined below a set. -/
theorem gather_defined {start found : ColumnSet}
    (done : gather start (context.memo.scalarChildren expr) (fun child =>
      return (← context.scalarProperties child) .definedColumns) = .ok found) :
    found = start.addAll ((Scope.scalars (expr.children.map scope)).map Scope.columns) := by
  rw [← map_scalarChildren reflects Scope.columns]
  refine gather_eq (fun child member _ => ?_) done
  exact (reflects child (List.mem_of_mem_filter member)).readScalar .definedColumns Scope.columns id

/-- The columns that are used below a set. -/
theorem gather_used {start found : ColumnSet}
    (done : gather start (context.memo.scalarChildren expr) (fun child =>
      return (← context.scalarProperties child) .usedColumns) = .ok found) :
    found = start.addAll ((Scope.scalars (expr.children.map scope)).map Scope.free) := by
  rw [← map_scalarChildren reflects Scope.free]
  refine gather_eq (fun child member _ => ?_) done
  exact (reflects child (List.mem_of_mem_filter member)).readScalar .usedColumns Scope.free id

/-- **What is derived for a scalar** agrees with its operator over the scopes of its inputs. -/
theorem agrees_scalar {operator : ScalarOp} (isScalar : expr.operator = .scalar operator)
    {property : ScalarProperty} {value : property.Value}
    (done : property.derive context expr = .ok value) :
    property.Agrees (Scope.of expr.operator (expr.children.map scope)) value := by
  rw [isScalar]
  cases property with
  | definedColumns =>
    have found := gather_defined reflects done
    rw [isScalar] at found
    show value = (Scope.ofScalar operator (expr.children.map scope)).columns
    rw [found]
    cases operator <;> rfl
  | usedColumns =>
    obtain ⟨scalars, first, done⟩ := bind_eq_ok_iff.1 done
    have used := gather_used reflects first
    have all : value = scalars.addAll ((context.memo.relationalChildren expr).map fun child =>
        (scope child).free) := by
      refine gather_eq (fun child member _ => ?_) done
      exact (reflects child (List.mem_of_mem_filter member)).readRelational .outerReferences
        Scope.free id
    rw [map_relationalChildren reflects Scope.free, used, isScalar] at all
    show value = (Scope.ofScalar operator (expr.children.map scope)).free
    rw [all]
    cases operator <;> rfl
  | _ => trivial

/-- The columns of the child at a position. -/
theorem output_child {position : Nat} {found : ColumnSet}
    (done : (do RelationalProperty.outputOf context (← expr.child position)) = .ok found) :
    found = ((expr.children.map scope)[position]?.map Scope.columns).getD .empty := by
  obtain ⟨child, there, done⟩ := bind_eq_ok_iff.1 done
  have place := Expr.child_ok_iff.1 there
  rw [List.getElem?_map, place]
  exact (reflects child (List.mem_of_getElem? place)).readRelational .outputColumns Scope.columns id
    done

/-- **The columns of a row** are those that the operator makes over the scopes of its inputs. -/
theorem derive_output {operator : LogicalOp} {found : ColumnSet}
    (done : RelationalProperty.deriveOutput context expr operator = .ok found) :
    found = Scope.output (expr.children.map scope) operator := by
  have all : ∀ {start found : ColumnSet},
      gather start (context.memo.relationalChildren expr) (RelationalProperty.outputOf context) =
        .ok found →
      found = start.addAll ((Scope.relations (expr.children.map scope)).map Scope.columns) := by
    intro start found done
    rw [← map_relationalChildren reflects Scope.columns]
    refine gather_eq (fun child member _ => ?_) done
    exact (reflects child (List.mem_of_mem_filter member)).readRelational .outputColumns
      Scope.columns id
  cases operator with
  | get table columns => exact (pure_eq_ok_iff.1 done).symm
  | select | naryJoin => exact all done
  | limit => exact all done
  | aggregate keys => exact gather_defined reflects done
  | project =>
    obtain ⟨child, there, done⟩ := bind_eq_ok_iff.1 done
    obtain ⟨columns, read, done⟩ := bind_eq_ok_iff.1 done
    have input := output_child reflects (bind_eq_ok_iff.2 ⟨child, there, read⟩)
    rw [gather_defined reflects done, input]
    rfl
  | join type =>
    cases type with
    | semi | anti => exact output_child reflects done
    | inner | left | right | full | cross => exact all done

/-- **The columns that are taken from outside** are those that the operator takes over the scopes of
its inputs. -/
theorem derive_outer {operator : LogicalOp} {found : ColumnSet}
    (done : RelationalProperty.deriveOuter context expr operator = .ok found) :
    found = (Scope.ofLogical operator (expr.children.map scope)).free := by
  obtain ⟨used, first, done⟩ := bind_eq_ok_iff.1 done
  obtain ⟨⟨taken, available⟩, fold, done⟩ := bind_eq_ok_iff.1 done
  have scalars := gather_used reflects first
  have relations : ∀ {groups : List GroupId} {start : ColumnSet × ColumnSet},
      (∀ group ∈ groups, context.Reflects scope group) →
      groups.foldlM (fun ((used, available) : ColumnSet × ColumnSet) child => do
        let properties ← context.relationalProperties child
        return (used.union (properties .outerReferences),
          available.union (properties .outputColumns))) start = .ok (taken, available) →
      taken = start.1.addAll (groups.map fun child => (scope child).free) ∧
        available = start.2.addAll (groups.map fun child => (scope child).columns) := by
    intro groups
    induction groups with
    | nil =>
      intro start _ run
      cases pure_eq_ok_iff.1 run
      exact ⟨rfl, rfl⟩
    | cons child groups ih =>
      intro start each run
      obtain ⟨here, others⟩ := List.forall_mem_cons.1 each
      rw [List.foldlM_cons] at run
      obtain ⟨middle, one, run⟩ := bind_eq_ok_iff.1 run
      obtain ⟨values, read, one⟩ := bind_eq_ok_iff.1 one
      cases pure_eq_ok_iff.1 one
      have free : values .outerReferences = _ := here.relational read .outerReferences
      have columns : values .outputColumns = _ := here.relational read .outputColumns
      have rest := ih others run
      rw [free, columns] at rest
      exact rest
  have among : ∀ child ∈ context.memo.relationalChildren expr, context.Reflects scope child :=
    fun child member => reflects child (List.mem_of_mem_filter member)
  obtain ⟨free, columns⟩ := relations among fold
  rw [map_relationalChildren reflects Scope.free] at free
  rw [map_relationalChildren reflects Scope.columns] at columns
  rw [← pure_eq_ok_iff.1 done, free, columns, scalars]
  cases operator <;> rfl

end Reflects

/-! ### Coherent contexts -/

section Coherent

variable {expr : Expr} {number : ExprId} (coherent : context.Coherent I)
include coherent

theorem read_scalar (property : ScalarProperty) (view : Scope → property.Value)
    (agrees : ∀ {scope value}, property.Agrees scope value → value = view scope) (child : GroupId)
    {value : property.Value}
    (done : (do return (← context.scalarProperties child) property) = .ok value) :
    value = view (context.memo.sense I child).scope := by
  obtain ⟨values, read, done⟩ := bind_eq_ok_iff.1 done
  cases pure_eq_ok_iff.1 done
  exact agrees (coherent.scalarProperties read property)

theorem read_relational (property : RelationalProperty) (view : Scope → property.Value)
    (agrees : ∀ {scope value}, property.Agrees scope value → value = view scope) (child : GroupId)
    {value : property.Value}
    (done : (do return (← context.relationalProperties child) property) = .ok value) :
    value = view (context.memo.sense I child).scope := by
  obtain ⟨values, read, done⟩ := bind_eq_ok_iff.1 done
  cases pure_eq_ok_iff.1 done
  exact agrees (coherent.relationalProperties read property)

variable (stored : context.memo.exprs[number]? = some expr)
include stored

theorem scope_group : (context.memo.sense I expr.group).scope =
    Scope.of expr.operator (expr.children.map fun child => (context.memo.sense I child).scope) := by
  rw [← coherent.sound.same stored, Memo.exprSense, Interpretation.scope_sense, List.map_map]
  rfl

theorem reflects_children : ∀ child ∈ expr.children,
    context.Reflects (fun id => (context.memo.sense I id).scope) child := fun _ member =>
  coherent.reflects (coherent.sound.childExists stored member)

/-- **What is derived for a scalar** is true of its group. -/
theorem derive_scalar {operator : ScalarOp} (isScalar : expr.operator = .scalar operator)
    {property : ScalarProperty} {value : property.Value}
    (done : property.derive context expr = .ok value) :
    property.Agrees (context.memo.sense I expr.group).scope value := by
  rw [scope_group coherent stored]
  exact agrees_scalar (reflects_children coherent stored) isScalar done

end Coherent

/-- **What is derived for a relation** is true of its group. -/
theorem derive_relational {known : Option Constraint} {property : RelationalProperty}
    {value : property.Value} (coherent : context.Coherent I)
    (done : property.derive context id known = .ok value) :
    property.Agrees (context.memo.sense I id).scope value := by
  cases property with
  | outputColumns =>
    obtain ⟨⟨expr, operator⟩, found, rest⟩ := bind_eq_ok_iff.1 done
    obtain ⟨⟨number, stored⟩, rfl, kind⟩ :=
      firstLogical_cases coherent.sound.toValid (lift_fault_eq_ok_iff.1 found)
    have output :=
      derive_output (reflects_children coherent stored) (lift_fault_eq_ok_iff.1 rest)
    rw [scope_group coherent stored, kind]
    exact output
  | outerReferences =>
    obtain ⟨⟨expr, operator⟩, found, rest⟩ := bind_eq_ok_iff.1 done
    obtain ⟨⟨number, stored⟩, rfl, kind⟩ :=
      firstLogical_cases coherent.sound.toValid (lift_fault_eq_ok_iff.1 found)
    have outer := derive_outer (reflects_children coherent stored) (lift_fault_eq_ok_iff.1 rest)
    rw [scope_group coherent stored, kind]
    exact outer
  | _ => trivial

end Context

end Cascades
