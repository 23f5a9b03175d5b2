/-
**Members that are as good as the first one.**

All members of a scalar group share its sheet, and a property that is not known yet is derived through
the member that is asked. Where that member has, from scratch, the value of the first one, all that is
known is what is derived from scratch, however the groups below came to be complete.

* `Matches`: a member through which a property is what it is through the first one;
* `Right`: all that is known is what is derived from scratch;
* `Right.repeats`: complete groups are so from scratch;
* `Right.derive`, `Right.grow`: derivations through members that match leave it so, and so does growth.
-/

import Cascades.Proofs.Property.Scratch

namespace Cascades.Context

variable {context before after : Context} {memo : Memo} {catalog : Catalog} {id : GroupId}
  {sheet : SheetId} {log : List Derivation}

/-- **A member that is as good as the first one**: derived from scratch through either, a property has
the same value. -/
def Matches (memo : Memo) (catalog : Catalog) (expr : Expr) (property : ScalarProperty) : Prop :=
  ∀ value, property.derive (scratch memo catalog) expr = .ok value →
    property.settle (scratch memo catalog) expr.group = .ok value

instance (property : ScalarProperty) : DecidableEq property.Value :=
  match property with
  | .definedColumns | .usedColumns | .setReturningColumns => inferInstanceAs (DecidableEq ColumnSet)
  | .hasSubquery | .hasSetFunction | .multipleDistinctAggregates | .hasArrayComparison =>
    inferInstanceAs (DecidableEq Bool)
  | .partitions => inferInstanceAs (DecidableEq TableSet)
  | .functionTraits => inferInstanceAs (DecidableEq FunctionTraits)
  | .distinctAggregates => inferInstanceAs (DecidableEq Nat)

instance (memo : Memo) (catalog : Catalog) (expr : Expr) (property : ScalarProperty) :
    Decidable (Matches memo catalog expr property) :=
  match derived : property.derive (scratch memo catalog) expr with
  | .error _ => isTrue fun _ other => nomatch derived.symm.trans other
  | .ok value =>
    decidable_of_iff
      ((property.settle (scratch memo catalog) expr.group).toOption = some value)
      ⟨fun settled _ other => by
        rw [← Except.ok.inj (derived.symm.trans other)]
        exact toOption_eq_some_iff.1 settled,
      fun same => toOption_eq_some_iff.2 (same value derived)⟩

/-- The first member is as good as itself. -/
theorem matches_of_first (valid : memo.Valid) (headed : memo.LogicalFirst) (catalog : Catalog)
    {number : ExprId} {expr : Expr} (stored : memo.exprs[number]? = some expr)
    (first : expr.position = 0) (property : ScalarProperty) : Matches memo catalog expr property := by
  intro value derived
  have same : (scratch memo catalog).memo = memo := scratch_memo valid headed
  refine bind_eq_ok_iff.2 ⟨expr, ?_, derived⟩
  rw [same]
  exact valid.firstMember_of_position stored first

/-- **All that is known is what is derived from scratch.** -/
structure Right (context : Context) : Prop where
  scalar : context.AllScalar fun sheet property value => ∃ id, context.memo.sheet? id = some sheet ∧
    property.settle (scratch context.memo context.catalog) id = .ok value
  relational : context.AllRelational fun id property value => context.memo.Relational id ∧
    property.settle (scratch context.memo context.catalog) id = .ok value

theorem right_of_blank {guard : Guard} : Right { memo, catalog, guard } where
  scalar known := by simp [Facts.scalar] at known
  relational known := by simp [Facts.relational] at known

namespace Right

variable (right : context.Right)
include right

/-- What is known of a scalar group. -/
theorem settle (linked : context.memo.Linked) {property : ScalarProperty} {value : property.Value}
    (known : (context.scalar id).get? property = some value) :
    property.settle (scratch context.memo context.catalog) id = .ok value := by
  obtain ⟨sheet, own, known⟩ := exists_sheet known
  obtain ⟨other, shared, settled⟩ := right.scalar known
  obtain rfl := linked.sheet?_unique own shared
  exact settled

section Valid

variable (valid : context.memo.Valid) (headed : context.memo.LogicalFirst)
include valid headed

/-- **Complete groups are so from scratch**, with the same properties. -/
theorem repeats : context.Repeats (scratch context.memo context.catalog) fun _ => True := by
  have grows : context.memo.Grows (scratch context.memo context.catalog).memo := by
    rw [scratch_memo valid headed]
    exact .refl _
  refine ⟨grows, scratch_catalog valid headed, ?_, fun id _ values read => ?_,
    fun id _ values read => ?_⟩
  · rw [scratch_guard valid headed]
    exact Guard.ample_covers (Nat.le_refl _)
  · exact scratch_scalarProperties valid headed (scalarProperties_cases read).1
      fun property => right.settle valid.toLinked (known_of_scalarProperties read property)
  · obtain ⟨family, complete⟩ := relationalProperties_cases read
    exact scratch_relationalProperties valid headed family
      fun property => (right.relational (complete ▸ rfl)).2

theorem noteScalar {number : ExprId} {expr : Expr} {property : ScalarProperty}
    {value : property.Value} (named : context.scalarExpr number = .ok (expr, sheet))
    (fits : Matches context.memo context.catalog expr property)
    (unknown : (context.facts.scalar sheet).get? property = none)
    (derived : property.derive context expr = .ok value) :
    (context.noteScalar sheet property value).Right := by
  obtain ⟨stored, own, _⟩ := scalarExpr_cases valid.toLinked named
  have again := property.derive_repeated (right.repeats valid headed) valid stored
    (fun _ _ => trivial) value derived
  obtain ⟨scalars, relations⟩ := right
  exact ⟨scalars.note unknown ⟨expr.group, own, fits value again⟩, relations⟩

theorem noteRelational {known : Option Constraint} {property : RelationalProperty}
    {value : property.Value} (family : context.memo.Relational id)
    (unknown : (context.facts.relational id).get? property = none)
    (constraint : property = .maxCardinality →
      (context.facts.relational id).get? .constraint = some known)
    (derived : property.derive context id known = .ok value) :
    (context.noteRelational id property value).Right := by
  have again := property.derive_repeated (right.repeats valid headed) valid headed family
    (fun _ _ => trivial) known value derived
  obtain ⟨scalars, relations⟩ := right
  refine ⟨scalars, relations.note unknown ⟨family, ?_⟩⟩
  show property.settle (scratch context.memo context.catalog) id = .ok value
  unfold RelationalProperty.settle
  split
  · rename_i bound
    exact bind_eq_ok_iff.2 ⟨known, (relations (constraint bound)).2, again⟩
  · rename_i unneeded
    rw [RelationalProperty.derive_known unneeded]
    exact again

end Valid

end Right

/-- **Derivations through members that match** leave all that is known right. -/
theorem Right.derive (derives : DerivesBy (Matches memo catalog) before log after)
    (valid : before.memo.Valid) (headed : before.memo.LogicalFirst) (same : before.memo = memo)
    (sameToo : before.catalog = catalog) (right : before.Right) : after.Right := by
  induction derives with
  | none => exact right
  | scalar named fits unknown derived _ ih =>
    subst same sameToo
    exact ih valid headed rfl rfl (right.noteScalar valid headed named fits unknown derived)
  | relational family unknown known derived _ ih =>
    exact ih valid headed same sameToo
      (right.noteRelational valid headed family unknown known derived)
  | completeScalar each _ ih =>
    obtain ⟨scalars, relations⟩ := right
    exact ih valid headed same sameToo ⟨scalars.complete each, relations⟩
  | completeRelational each _ ih =>
    obtain ⟨scalars, relations⟩ := right
    exact ih valid headed same sameToo ⟨scalars, relations.complete each⟩

/-- What is derived from scratch is so when the memo has grown. -/
theorem scratch_repeats (valid : before.memo.Valid) (headed : before.memo.LogicalFirst)
    (extending : before.Extends after) (headedToo : after.memo.LogicalFirst) :
    (scratch before.memo before.catalog).Repeats (scratch after.memo after.catalog)
      fun _ => True := by
  have begun : (scratch before.memo before.catalog).Fresh := scratch_fresh valid headed
  have memo : (scratch before.memo before.catalog).memo = before.memo := scratch_memo valid headed
  have catalog : (scratch before.memo before.catalog).catalog = before.catalog :=
    scratch_catalog valid headed
  -- What was derived from scratch is kept while the memo grows under it.
  let grown : Context := { scratch before.memo before.catalog with memo := after.memo }
  have grows : (scratch before.memo before.catalog).memo.Grows grown.memo := by
    rw [memo]
    exact extending.grows
  have onward : (scratch before.memo before.catalog).Extends grown :=
    .of_facts extending.valid grows rfl rfl
  have fresh : grown.Fresh := begun.grow onward rfl headedToo
  have again := fresh.repeats_scratch
  rw [show grown.catalog = after.catalog from catalog.trans extending.catalog.symm] at again
  refine ⟨onward.ample.grows.trans again.grows, again.catalog.trans onward.ample.catalog, ?_,
    fun id all values read => again.scalar id all values (onward.ample.scalar id all values read),
    fun id all values read =>
      again.relational id all values (onward.ample.relational id all values read)⟩
  rw [scratch_guard extending.valid headedToo]
  exact Guard.ample_covers onward.grows.size_groups

/-- **Growth leaves all that is known right.** -/
theorem Right.grow (right : before.Right) (valid : before.memo.Valid)
    (headed : before.memo.LogicalFirst) (extending : before.Extends after)
    (same : after.facts = before.facts) (headedToo : after.memo.LogicalFirst) : after.Right := by
  have repeats := scratch_repeats valid headed extending headedToo
  have memo : (scratch before.memo before.catalog).memo = before.memo := scratch_memo valid headed
  have begun : (scratch before.memo before.catalog).memo.Valid := memo.symm ▸ valid
  have start : (scratch before.memo before.catalog).memo.LogicalFirst := memo.symm ▸ headed
  refine ⟨fun {sheet property value} known => ?_, fun {id property value} known => ?_⟩
  · obtain ⟨id, own, settled⟩ := right.scalar (same ▸ known)
    exact ⟨id, extending.grows.sheet? own,
      property.settle_repeated repeats begun (fun _ _ => trivial) value settled⟩
  · obtain ⟨family, settled⟩ := right.relational (same ▸ known)
    exact ⟨family.mono extending.grows, property.settle_repeated repeats begun (fun _ _ => trivial)
      start (memo.symm ▸ family) value settled⟩

end Cascades.Context
