/-
**What reading properties does to what is known.**

A property that is read is known already, or it is derived, counted and kept. Everything that derives
properties is made of such readings and of completing sheets, so the memo, the catalog and the guard
stay as they are.

* `noteScalar`, `noteRelational`: what one derivation leaves;
* `readScalar_cases`, `readRelationalWith_cases`: what one reading does;
* `deriveAll_sameMemo`: what no derivation changes.
-/

import Cascades.Proofs.Action
import Cascades.Proofs.Memo.Valid
import Cascades.Property.Derivation

namespace Cascades

/-! ### What may be aborted -/

/-- A computation without aborts is not aborted. -/
theorem lift_ne_abort {α : Type} {computation : Except Fault α} {abort : Abort} :
    (liftM computation : Except Failure α) ≠ .error (.abort abort) := by
  cases computation <;> nofun

/-- **Only the constraint** can be aborted. -/
theorem RelationalProperty.eq_constraint_of_abort {context : Context} {id : GroupId}
    {known : Option Constraint} {property : RelationalProperty} {abort : Abort}
    (aborted : property.derive context id known = .error (.abort abort)) :
    property = .constraint := by
  have first : ∀ {α : Type} {next : Expr × LogicalOp → Except Fault α},
      (do liftM (next (← context.memo.firstLogical id)) : Except Failure α) ≠
        .error (.abort abort) := by
    intro α next
    cases context.memo.firstLogical id with
    | error cause => nofun
    | ok chosen => exact lift_ne_abort
  cases property with
  | constraint => rfl
  | maxCardinality =>
    by_cases contradicted : (known.map Constraint.isContradiction).getD false = true
    · rw [derive, if_pos contradicted] at aborted
      cases aborted
    · rw [derive, if_neg contradicted] at aborted
      exact absurd aborted first
  | outputColumns => exact absurd aborted first
  | outerReferences => exact absurd aborted first
  | joinDepth => exact absurd aborted first
  | partitions => exact absurd aborted first

namespace Context

variable {context after : Context}

/-! ### One value -/

section Compute

variable {Value : Type} {count : Context → Context} {keep : Value → Context → Context}
  {result : Except Abort Value}

/-- What finding a value leaves that is counted first. -/
theorem compute_cases {find : Except Failure Value}
    (done : compute count (liftM find) keep context = .ok (result, after)) :
    (∃ value, result = .ok value ∧ find = .ok value ∧ after = keep value (count context)) ∨
      ∃ abort, find = .error (.abort abort) := by
  have done : ((liftM find : Action Context Value) >>= fun value => do
      modify (keep value); return value) (count context) = .ok (result, after) := done
  rcases Action.bind_eq_ok_iff.1 done with ⟨value, middle, found, done⟩ | ⟨abort, stopped, _⟩
  · obtain ⟨rfl, ⟨_, found, same⟩ | ⟨_, _, same⟩⟩ := Action.lift_failure_eq_ok_iff.1 found
    · cases same
      cases done
      exact Or.inl ⟨value, rfl, found, rfl⟩
    · cases same
  · obtain ⟨_, ⟨_, _, same⟩ | ⟨_, stopped, _⟩⟩ := Action.lift_failure_eq_ok_iff.1 stopped
    · cases same
    · exact Or.inr ⟨_, stopped⟩

/-- What finding a value leaves that is counted afterwards: an abort changes nothing. -/
theorem tryCompute_cases {find : Except Failure Value}
    (done : tryCompute count (liftM find) keep context = .ok (result, after)) :
    (∃ value, result = .ok value ∧ find = .ok value ∧ after = keep value (count context)) ∨
      ∃ abort, result = .error abort ∧ find = .error (.abort abort) ∧ after = context := by
  rcases Action.bind_eq_ok_iff.1 done with ⟨value, middle, found, rest⟩ | ⟨abort, stopped, rfl⟩
  · obtain ⟨rfl, ⟨_, found, same⟩ | ⟨_, _, same⟩⟩ := Action.lift_failure_eq_ok_iff.1 found
    · cases same
      cases rest
      exact Or.inl ⟨value, rfl, found, rfl⟩
    · cases same
  · obtain ⟨rfl, ⟨_, _, same⟩ | ⟨_, stopped, same⟩⟩ := Action.lift_failure_eq_ok_iff.1 stopped
    · cases same
    · cases same
      exact Or.inr ⟨abort, rfl, stopped, rfl⟩

end Compute

/-! ### One reading -/

/-- The context after one derivation for a scalar sheet. -/
def noteScalar (context : Context) (sheet : SheetId) (property : ScalarProperty)
    (value : property.Value) : Context :=
  (context.tallyScalar sheet).keepScalar sheet property value

/-- The context after one derivation for a relational group. -/
def noteRelational (context : Context) (id : GroupId) (property : RelationalProperty)
    (value : property.Value) : Context :=
  (context.tallyRelational id).keepRelational id property value

theorem scalarExpr_ok_iff {number : ExprId} {expr : Expr} {sheet : SheetId} :
    context.scalarExpr number = .ok (expr, sheet) ↔
      context.memo.exprs[number]? = some expr ∧ expr.sheet = some sheet := by
  unfold scalarExpr
  rw [bind_eq_ok_iff]
  constructor
  · rintro ⟨other, found, done⟩
    cases own : other.sheet with
    | none =>
      rw [own] at done
      cases done
    | some given =>
      rw [own] at done
      cases pure_eq_ok_iff.1 done
      exact ⟨Memo.expr_ok_iff.1 found, own⟩
  · rintro ⟨stored, own⟩
    refine ⟨expr, Memo.expr_ok_iff.2 stored, ?_⟩
    rw [own]
    rfl

theorem relationalSheet_ok_iff {id : GroupId} {sheet : RelationalSheet} :
    context.relationalSheet id = .ok sheet ↔
      (∃ group, context.memo.groups[id]? = some group ∧ group.isScalar = false) ∧
        sheet = context.facts.relational id := by
  unfold relationalSheet
  rw [bind_eq_ok_iff]
  constructor
  · rintro ⟨group, there, done⟩
    cases scalar : group.isScalar with
    | true =>
      rw [scalar] at done
      cases done
    | false =>
      rw [scalar] at done
      exact ⟨⟨group, Memo.group_ok_iff.1 there, scalar⟩, (pure_eq_ok_iff.1 done).symm⟩
  · rintro ⟨⟨group, there, scalar⟩, rfl⟩
    refine ⟨group, Memo.group_ok_iff.2 there, ?_⟩
    rw [scalar]
    rfl

/-- A scalar property is known, or it is derived, counted and kept; without a value nothing happens. -/
theorem readScalar_cases {id : ExprId} {property : ScalarProperty}
    {result : Except Abort property.Value}
    (done : readScalar id property context = .ok (result, after)) :
    ∃ expr sheet value, context.scalarExpr id = .ok (expr, sheet) ∧ result = .ok value ∧
      (((context.facts.scalar sheet).get? property = some value ∧ after = context) ∨
        ((context.facts.scalar sheet).get? property = none ∧
          property.derive context expr = .ok value ∧
          after = context.noteScalar sheet property value)) := by
  obtain ⟨⟨expr, sheet⟩, named, done⟩ :=
    Action.lift_bind_eq_ok_iff.1 (Action.get_bind_eq_ok_iff.1 done)
  cases known : (context.facts.scalar sheet).get? property with
  | some value =>
    simp only [known] at done
    cases done
    exact ⟨expr, sheet, value, named, rfl, Or.inl ⟨known, rfl⟩⟩
  | none =>
    simp only [known] at done
    obtain ⟨value, found, done⟩ := Action.lift_bind_eq_ok_iff.1 done
    cases done
    exact ⟨expr, sheet, value, named, rfl, Or.inr ⟨known, found, rfl⟩⟩

/-- A relational property is known, or it is derived, counted and kept; an abort changes nothing. -/
theorem readRelationalWith_cases {id : GroupId} {known : Option Constraint}
    {property : RelationalProperty} {result : Except Abort property.Value}
    (done : readRelationalWith id known property context = .ok (result, after)) :
    (∃ value, result = .ok value ∧ (context.facts.relational id).get? property = some value ∧
        after = context) ∨
      (∃ value, result = .ok value ∧ (context.facts.relational id).get? property = none ∧
        property.derive context id known = .ok value ∧
        after = context.noteRelational id property value) ∨
      ∃ abort, result = .error abort ∧ (context.facts.relational id).get? property = none ∧
        property.derive context id known = .error (.abort abort) ∧ after = context := by
  obtain ⟨sheet, named, done⟩ := Action.lift_bind_eq_ok_iff.1 (Action.get_bind_eq_ok_iff.1 done)
  obtain ⟨_, rfl⟩ := relationalSheet_ok_iff.1 named
  cases before : (context.facts.relational id).get? property with
  | some value =>
    simp only [before] at done
    cases done
    exact Or.inl ⟨value, rfl, rfl, rfl⟩
  | none =>
    simp only [before] at done
    refine Or.inr ?_
    split at done
    · exact (tryCompute_cases done).imp (fun ⟨value, ended, found, last⟩ => ⟨value, ended, rfl, found, last⟩)
        fun ⟨abort, ended, stopped, last⟩ => ⟨abort, ended, rfl, stopped, last⟩
    · rename_i infallible
      rcases compute_cases done with ⟨value, ended, found, last⟩ | ⟨abort, stopped⟩
      · exact Or.inl ⟨value, ended, rfl, found, last⟩
      · rw [RelationalProperty.eq_constraint_of_abort stopped] at infallible
        exact absurd rfl infallible

/-! ### What stays -/

/-- The same memo, catalog and guard, whatever is known of the memo. -/
structure SameMemo (before after : Context) : Prop where
  memo : after.memo = before.memo
  catalog : after.catalog = before.catalog
  guard : after.guard = before.guard

theorem SameMemo.refl (context : Context) : context.SameMemo context := ⟨rfl, rfl, rfl⟩

theorem SameMemo.trans (one two three : Context) (first : one.SameMemo two)
    (second : two.SameMemo three) : one.SameMemo three :=
  ⟨second.memo.trans first.memo, second.catalog.trans first.catalog,
    second.guard.trans first.guard⟩

theorem readScalar_sameMemo (id : ExprId) (property : ScalarProperty) :
    Action.Relates SameMemo (readScalar id property) := by
  intro before result after done
  obtain ⟨_, _, _, _, _, ⟨_, rfl⟩ | ⟨_, _, rfl⟩⟩ := readScalar_cases done
  · exact SameMemo.refl _
  · exact ⟨rfl, rfl, rfl⟩

theorem readRelationalWith_sameMemo (id : GroupId) (known : Option Constraint)
    (property : RelationalProperty) :
    Action.Relates SameMemo (readRelationalWith id known property) := by
  intro before result after done
  obtain ⟨_, _, _, rfl⟩ | ⟨_, _, _, _, rfl⟩ | ⟨_, _, _, _, rfl⟩ := readRelationalWith_cases done
  · exact SameMemo.refl _
  · exact ⟨rfl, rfl, rfl⟩
  · exact SameMemo.refl _

theorem readRelational_sameMemo (id : GroupId) (property : RelationalProperty) :
    Action.Relates SameMemo (readRelational id property) := by
  refine Action.Relates.bind SameMemo.trans (Action.Relates.get SameMemo.refl) fun _ => ?_
  refine Action.Relates.bind SameMemo.trans (Action.Relates.lift SameMemo.refl _) fun sheet => ?_
  have last := fun known => readRelationalWith_sameMemo id known property
  show Action.Relates SameMemo
    (if property = .maxCardinality ∧ (sheet.get? property).isNone then
      readRelationalWith id none .constraint >>= fun known => readRelationalWith id known property
    else pure none >>= fun known => readRelationalWith id known property)
  split
  · exact Action.Relates.bind SameMemo.trans (readRelationalWith_sameMemo id none _) last
  · exact Action.Relates.bind SameMemo.trans (Action.Relates.pure SameMemo.refl none) last

theorem deriveScalar_sameMemo (id : ExprId) : Action.Relates SameMemo (deriveScalar id) := by
  refine Action.Relates.bind SameMemo.trans (Action.Relates.get SameMemo.refl) fun context => ?_
  refine Action.Relates.bind SameMemo.trans (Action.Relates.lift SameMemo.refl _) fun named => ?_
  obtain ⟨expr, sheet⟩ := named
  dsimp only
  by_cases complete : (context.facts.scalar sheet).isComplete = true
  · rw [if_pos complete]
    exact Action.Relates.pure SameMemo.refl _
  · rw [if_neg complete]
    refine Action.Relates.bind SameMemo.trans (Action.Relates.lift_abort SameMemo.refl _) fun _ => ?_
    iterate 10
      refine Action.Relates.bind SameMemo.trans (readScalar_sameMemo id _) fun _ => ?_
    exact Action.Relates.modify fun context => ⟨rfl, rfl, rfl⟩

theorem deriveRelational_sameMemo (id : GroupId) :
    Action.Relates SameMemo (deriveRelational id) := by
  refine Action.Relates.bind SameMemo.trans (Action.Relates.get SameMemo.refl) fun context => ?_
  refine Action.Relates.bind SameMemo.trans (Action.Relates.lift SameMemo.refl _) fun sheet => ?_
  by_cases complete : sheet.isComplete = true
  · rw [if_pos complete]
    exact Action.Relates.pure SameMemo.refl _
  · rw [if_neg complete]
    refine Action.Relates.bind SameMemo.trans (Action.Relates.lift_abort SameMemo.refl _) fun _ => ?_
    iterate 6
      refine Action.Relates.bind SameMemo.trans (readRelational_sameMemo id _) fun _ => ?_
    exact Action.Relates.modify fun context => ⟨rfl, rfl, rfl⟩

theorem deriveGroup_sameMemo (id : GroupId) : Action.Relates SameMemo (deriveGroup id) := by
  refine Action.Relates.bind SameMemo.trans (Action.Relates.get SameMemo.refl) fun context => ?_
  refine Action.Relates.bind SameMemo.trans (Action.Relates.lift_abort SameMemo.refl _) fun _ => ?_
  refine Action.Relates.bind SameMemo.trans (Action.Relates.lift SameMemo.refl _) fun group => ?_
  by_cases scalar : group.isScalar = true
  · rw [if_pos scalar]
    refine Action.Relates.bind SameMemo.trans (Action.Relates.lift SameMemo.refl _) fun first => ?_
    exact deriveScalar_sameMemo first
  · rw [if_neg scalar]
    by_cases none : (context.memo.logicalMembers group).isEmpty = true
    · rw [if_pos none]
      exact Action.Relates.pure SameMemo.refl _
    · rw [if_neg none]
      exact deriveRelational_sameMemo id

/-- **Deriving properties changes nothing but what is known.** -/
theorem deriveAll_sameMemo : Action.Relates SameMemo deriveAll := by
  refine Action.Relates.bind SameMemo.trans (Action.Relates.get SameMemo.refl) fun context => ?_
  exact Action.Relates.forM SameMemo.refl SameMemo.trans fun id _ => deriveGroup_sameMemo id

end Context

end Cascades
