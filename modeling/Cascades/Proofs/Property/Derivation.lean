/-
**Properties are found one at a time.**

What can happen to the properties of a memo is that one is derived that was not known, or that a sheet is
completed in which every property is known. So nothing is derived twice, what is known stays known, and
nothing that is known gets out of date.

* `DerivesBy`: single derivations one after another, through some scalar expressions; `Derives`: through
  first members only;
* `Remembers`, `AsComplete`: what is known, and what is complete, before and after;
* `DerivesBy.remembers`, `DerivesBy.once`, `DerivesBy.has_iff`, `DerivesBy.scalarTally`: what is known, and
  how often it was derived;
* `CurrentBy`: every known property is one that is derived anew; `CurrentBy.derive`, `CurrentBy.grow`.
-/

import Cascades.Proofs.Property.Repetition

namespace Cascades

/-- The derivation of one property for a scalar sheet or for a relational group. -/
inductive Derivation where
  | scalar (sheet : SheetId) (property : ScalarProperty)
  | relational (id : GroupId) (property : RelationalProperty)
  deriving DecidableEq, Repr

namespace Context

variable {through : Expr → ScalarProperty → Prop} {context before after middle final : Context}
  {id : GroupId} {sheet : SheetId} {log rest : List Derivation}

/-- **Single derivations one after another**, each of a property that is not known, where a scalar
property is derived through an expression of some kind; in between, sheets are completed. The bound on
the number of rows is derived with the constraint that is known. -/
inductive DerivesBy (through : Expr → ScalarProperty → Prop) :
    Context → List Derivation → Context → Prop
  | none {context : Context} : DerivesBy through context [] context
  | scalar {context final : Context} {number : ExprId} {expr : Expr} {sheet : SheetId}
      {property : ScalarProperty} {value : property.Value} {log : List Derivation} :
      context.scalarExpr number = .ok (expr, sheet) → through expr property →
        (context.facts.scalar sheet).get? property = Option.none →
        property.derive context expr = .ok value →
        DerivesBy through (context.noteScalar sheet property value) log final →
        DerivesBy through context (.scalar sheet property :: log) final
  | relational {context final : Context} {id : GroupId} {known : Option Constraint}
      {property : RelationalProperty} {value : property.Value} {log : List Derivation} :
      context.memo.Relational id → (context.facts.relational id).get? property = Option.none →
        (property = .maxCardinality → (context.facts.relational id).get? .constraint = some known) →
        property.derive context id known = .ok value →
        DerivesBy through (context.noteRelational id property value) log final →
        DerivesBy through context (.relational id property :: log) final
  | completeScalar {context final : Context} {sheet : SheetId} {values : ScalarProperties}
      {log : List Derivation} :
      (∀ property, (context.facts.scalar sheet).get? property = some (values property)) →
        DerivesBy through (context.completeScalar sheet values) log final →
        DerivesBy through context log final
  | completeRelational {context final : Context} {id : GroupId} {values : RelationalProperties}
      {log : List Derivation} :
      (∀ property, (context.facts.relational id).get? property = some (values property)) →
        DerivesBy through (context.completeRelational id values) log final →
        DerivesBy through context log final

/-- An expression is the first member of its group. -/
def IsFirst (expr : Expr) (_ : ScalarProperty) : Prop := expr.position = 0

/-- Any member of a group. -/
def AnyMember (_ : Expr) (_ : ScalarProperty) : Prop := True

/-- **Single derivations one after another**, of scalar properties through first members. -/
abbrev Derives : Context → List Derivation → Context → Prop := DerivesBy IsFirst

theorem DerivesBy.append (first : DerivesBy through before log middle)
    (second : DerivesBy through middle rest after) : DerivesBy through before (log ++ rest) after := by
  induction first with
  | none => exact second
  | scalar named fits unknown derived _ ih => exact .scalar named fits unknown derived (ih second)
  | relational family unknown known derived _ ih =>
    exact .relational family unknown known derived (ih second)
  | completeScalar each _ ih => exact .completeScalar each (ih second)
  | completeRelational each _ ih => exact .completeRelational each (ih second)

theorem DerivesBy.sameMemo (derives : DerivesBy through before log after) : before.SameMemo after := by
  induction derives with
  | none => exact .refl _
  | scalar _ _ _ _ _ ih => exact ⟨ih.memo, ih.catalog, ih.guard⟩
  | relational _ _ _ _ _ ih => exact ⟨ih.memo, ih.catalog, ih.guard⟩
  | completeScalar _ _ ih => exact ⟨ih.memo, ih.catalog, ih.guard⟩
  | completeRelational _ _ ih => exact ⟨ih.memo, ih.catalog, ih.guard⟩

/-! ### What is known -/

/-- What is known in one context is known in the other one, and what is complete is complete. -/
structure Remembers (before after : Context) : Prop where
  scalar : ∀ {sheet : SheetId} {property : ScalarProperty} {value : property.Value},
    (before.facts.scalar sheet).get? property = some value →
      (after.facts.scalar sheet).get? property = some value
  relational : ∀ {id : GroupId} {property : RelationalProperty} {value : property.Value},
    (before.facts.relational id).get? property = some value →
      (after.facts.relational id).get? property = some value
  scalarComplete : ∀ {sheet : SheetId}, (before.facts.scalar sheet).isComplete = true →
    (after.facts.scalar sheet).isComplete = true
  relationalComplete : ∀ {id : GroupId}, (before.facts.relational id).isComplete = true →
    (after.facts.relational id).isComplete = true

theorem Remembers.refl (context : Context) : context.Remembers context :=
  ⟨fun known => known, fun known => known, fun complete => complete, fun complete => complete⟩

theorem Remembers.of_facts (same : after.facts = before.facts) : before.Remembers after :=
  ⟨fun known => same ▸ known, fun known => same ▸ known, fun complete => same ▸ complete,
    fun complete => same ▸ complete⟩

theorem Remembers.trans (one : before.Remembers middle) (two : middle.Remembers after) :
    before.Remembers after :=
  ⟨fun known => two.scalar (one.scalar known), fun known => two.relational (one.relational known),
    fun complete => two.scalarComplete (one.scalarComplete complete),
    fun complete => two.relationalComplete (one.relationalComplete complete)⟩

end Context

namespace Sheet

variable {Field : Type} [DecidableEq Field] {Value : Field → Type} {sheet : Sheet Value}

/-- A value that is put in replaces none. -/
theorem get?_put_of_known {field other : Field} {value : Value field} {found : Value other}
    (unknown : sheet.get? field = none) (known : sheet.get? other = some found) :
    (sheet.put field value).get? other = some found := by
  have different : other ≠ field := by
    rintro rfl
    rw [unknown] at known
    cases known
  rw [get?_put_ne different]
  exact known

theorem isComplete_put {field : Field} {value : Value field} :
    (sheet.put field value).isComplete = sheet.isComplete := by
  cases sheet <;> rfl

omit [DecidableEq Field] in
theorem exists_of_isComplete (complete : sheet.isComplete = true) :
    ∃ values, sheet = .complete values := by
  cases sheet with
  | draft known => cases complete
  | complete values => exact ⟨values, rfl⟩

omit [DecidableEq Field] in
/-- The values of a complete sheet. -/
theorem eq_complete {values : (field : Field) → Value field} (complete : sheet.isComplete = true)
    (each : ∀ field, sheet.get? field = some (values field)) : sheet = .complete values := by
  obtain ⟨others, rfl⟩ := exists_of_isComplete complete
  exact congrArg _ (funext fun field => Option.some.inj (each field))

end Sheet

namespace Context

variable {through : Expr → ScalarProperty → Prop} {context before after middle final : Context}
  {id : GroupId} {sheet : SheetId} {log rest : List Derivation}

/-- Complete groups keep their properties. -/
theorem Remembers.retains (remembers : before.Remembers after) : before.Retains after where
  scalar id values _ complete := by
    refine Sheet.eq_complete (remembers.scalarComplete (by rw [complete]; rfl)) fun property => ?_
    exact remembers.scalar (by rw [complete]; rfl)
  relational id values _ complete := by
    refine Sheet.eq_complete (remembers.relationalComplete (by rw [complete]; rfl)) fun property => ?_
    exact remembers.relational (by rw [complete]; rfl)

/-- The same groups are complete. -/
structure AsComplete (before after : Context) : Prop where
  scalar : ∀ id, (after.facts.scalar id).isComplete = (before.facts.scalar id).isComplete
  relational : ∀ id, (after.facts.relational id).isComplete = (before.facts.relational id).isComplete

theorem asComplete_noteScalar {property : ScalarProperty} {value : property.Value} :
    context.AsComplete (context.noteScalar sheet property value) where
  scalar other := by
    rw [scalar_noteScalar]
    split
    · rename_i same
      subst same
      exact Sheet.isComplete_put
    · rfl
  relational _ := rfl

theorem asComplete_noteRelational {property : RelationalProperty} {value : property.Value} :
    context.AsComplete (context.noteRelational id property value) where
  scalar _ := rfl
  relational other := by
    rw [relational_noteRelational]
    split
    · rename_i same
      subst same
      exact Sheet.isComplete_put
    · rfl

theorem remembers_noteScalar {property : ScalarProperty} {value : property.Value}
    (unknown : (context.facts.scalar sheet).get? property = none) :
    context.Remembers (context.noteScalar sheet property value) where
  scalar {other _ _} known := by
    rw [scalar_noteScalar]
    split
    · rename_i same
      subst same
      exact Sheet.get?_put_of_known unknown known
    · exact known
  relational known := known
  scalarComplete {other} complete := (asComplete_noteScalar.scalar other).trans complete
  relationalComplete complete := complete

theorem remembers_noteRelational {property : RelationalProperty} {value : property.Value}
    (unknown : (context.facts.relational id).get? property = none) :
    context.Remembers (context.noteRelational id property value) where
  scalar known := known
  relational {other _ _} known := by
    rw [relational_noteRelational]
    split
    · rename_i same
      subst same
      exact Sheet.get?_put_of_known unknown known
    · exact known
  scalarComplete complete := complete
  relationalComplete {other} complete := (asComplete_noteRelational.relational other).trans complete

theorem remembers_completeScalar {values : ScalarProperties}
    (each : ∀ property, (context.facts.scalar sheet).get? property = some (values property)) :
    context.Remembers (context.completeScalar sheet values) where
  scalar {other property value} known := by
    rw [scalar_completeScalar]
    split
    · rename_i same
      subst same
      exact (each property).symm.trans known
    · exact known
  relational known := known
  scalarComplete {other} complete := by
    rw [scalar_completeScalar]
    split
    · rfl
    · exact complete
  relationalComplete complete := complete

theorem remembers_completeRelational {values : RelationalProperties}
    (each : ∀ property, (context.facts.relational id).get? property = some (values property)) :
    context.Remembers (context.completeRelational id values) where
  scalar known := known
  relational {other property value} known := by
    rw [relational_completeRelational]
    split
    · rename_i same
      subst same
      exact (each property).symm.trans known
    · exact known
  scalarComplete complete := complete
  relationalComplete {other} complete := by
    rw [relational_completeRelational]
    split
    · rfl
    · exact complete

/-- **What is known stays known.** -/
theorem DerivesBy.remembers (derives : DerivesBy through before log after) :
    before.Remembers after := by
  induction derives with
  | none => exact .refl _
  | scalar _ _ unknown _ _ ih => exact (remembers_noteScalar unknown).trans ih
  | relational _ unknown _ _ _ ih => exact (remembers_noteRelational unknown).trans ih
  | completeScalar each _ ih => exact (remembers_completeScalar each).trans ih
  | completeRelational each _ ih => exact (remembers_completeRelational each).trans ih

theorem DerivesBy.extends (derives : DerivesBy through before log after) (valid : before.memo.Valid) :
    before.Extends after := by
  have same := derives.sameMemo
  exact ⟨same.memo ▸ valid, same.memo ▸ .refl _, same.catalog, derives.remembers.retains⟩

/-! ### How often -/

/-- Whether a property is known. -/
def Has (context : Context) : Derivation → Prop
  | .scalar sheet property => ((context.facts.scalar sheet).get? property).isSome = true
  | .relational id property => ((context.facts.relational id).get? property).isSome = true

theorem has_of_facts (same : after.facts = before.facts) {entry : Derivation} :
    after.Has entry ↔ before.Has entry := by
  cases entry with
  | scalar sheet property =>
    simp only [Has, same]
  | relational id property =>
    simp only [Has, same]

/-- A single derivation makes its property known, and no other one. -/
theorem has_noteScalar {property : ScalarProperty} {value : property.Value}
    (unknown : (context.facts.scalar sheet).get? property = none) {entry : Derivation} :
    (context.noteScalar sheet property value).Has entry ↔
      entry = .scalar sheet property ∨ context.Has entry := by
  cases entry with
  | relational other found =>
    exact (or_iff_right nofun).symm
  | scalar other found =>
    simp only [Has]
    rw [scalar_noteScalar]
    by_cases same : other = sheet
    · subst same
      rw [if_pos rfl]
      by_cases again : found = property
      · subst again
        simp [Sheet.get?_put unknown]
      · simp [Sheet.get?_put_ne again, again]
    · simp [same]

theorem has_noteRelational {property : RelationalProperty} {value : property.Value}
    (unknown : (context.facts.relational id).get? property = none) {entry : Derivation} :
    (context.noteRelational id property value).Has entry ↔
      entry = .relational id property ∨ context.Has entry := by
  cases entry with
  | scalar other found =>
    exact (or_iff_right nofun).symm
  | relational other found =>
    simp only [Has]
    rw [relational_noteRelational]
    by_cases same : other = id
    · subst same
      rw [if_pos rfl]
      by_cases again : found = property
      · subst again
        simp [Sheet.get?_put unknown]
      · simp [Sheet.get?_put_ne again, again]
    · simp [same]

theorem has_completeScalar {values : ScalarProperties}
    (each : ∀ property, (context.facts.scalar sheet).get? property = some (values property))
    {entry : Derivation} : (context.completeScalar sheet values).Has entry ↔ context.Has entry := by
  cases entry with
  | relational other found => exact Iff.rfl
  | scalar other found =>
    simp only [Has]
    rw [scalar_completeScalar]
    by_cases same : other = sheet
    · subst same
      rw [if_pos rfl, each found]
      exact Iff.rfl
    · simp [same]

theorem has_completeRelational {values : RelationalProperties}
    (each : ∀ property, (context.facts.relational id).get? property = some (values property))
    {entry : Derivation} :
    (context.completeRelational id values).Has entry ↔ context.Has entry := by
  cases entry with
  | scalar other found => exact Iff.rfl
  | relational other found =>
    simp only [Has]
    rw [relational_completeRelational]
    by_cases same : other = id
    · subst same
      rw [if_pos rfl, each found]
      exact Iff.rfl
    · simp [same]

/-- **What is known in the end** was known before or was derived. -/
theorem DerivesBy.has_iff (derives : DerivesBy through before log after) {entry : Derivation} :
    after.Has entry ↔ entry ∈ log ∨ before.Has entry := by
  induction derives with
  | none => exact (or_iff_right List.not_mem_nil).symm
  | scalar _ _ unknown _ _ ih =>
    rw [ih, has_noteScalar unknown, List.mem_cons, or_assoc, or_left_comm]
  | relational _ unknown _ _ _ ih =>
    rw [ih, has_noteRelational unknown, List.mem_cons, or_assoc, or_left_comm]
  | completeScalar each _ ih => rw [ih, has_completeScalar each]
  | completeRelational each _ ih => rw [ih, has_completeRelational each]

/-- **Nothing is derived twice**, and nothing that was known. -/
theorem DerivesBy.once (derives : DerivesBy through before log after) :
    log.Nodup ∧ ∀ entry ∈ log, ¬ before.Has entry := by
  induction derives with
  | none => exact ⟨List.nodup_nil, nofun⟩
  | @scalar context _ _ _ sheet property value _ _ _ unknown _ _ ih =>
    obtain ⟨once, fresh⟩ := ih
    have own : (context.noteScalar sheet property value).Has (.scalar sheet property) :=
      (has_noteScalar unknown).2 (Or.inl rfl)
    refine ⟨List.nodup_cons.2 ⟨fun again => fresh _ again own, once⟩, ?_⟩
    refine List.forall_mem_cons.2 ⟨?_, fun entry member before => ?_⟩
    · simp [Has, unknown]
    · exact fresh entry member ((has_noteScalar unknown).2 (Or.inr before))
  | @relational context _ id _ property value _ _ unknown _ _ _ ih =>
    obtain ⟨once, fresh⟩ := ih
    have own : (context.noteRelational id property value).Has (.relational id property) :=
      (has_noteRelational unknown).2 (Or.inl rfl)
    refine ⟨List.nodup_cons.2 ⟨fun again => fresh _ again own, once⟩, ?_⟩
    refine List.forall_mem_cons.2 ⟨?_, fun entry member before => ?_⟩
    · simp [Has, unknown]
    · exact fresh entry member ((has_noteRelational unknown).2 (Or.inr before))
  | completeScalar each _ ih =>
    exact ⟨ih.1, fun entry member before => ih.2 entry member ((has_completeScalar each).2 before)⟩
  | completeRelational each _ ih =>
    exact ⟨ih.1, fun entry member before => ih.2 entry member ((has_completeRelational each).2 before)⟩

end Context

/-- Whether a derivation is for a scalar sheet. -/
def Derivation.isOfScalar (sheet : SheetId) : Derivation → Bool
  | scalar other _ => other == sheet
  | relational .. => false

/-- Whether a derivation is for a relational group. -/
def Derivation.isOfRelational (id : GroupId) : Derivation → Bool
  | relational other _ => other == id
  | scalar .. => false

namespace Context

variable {through : Expr → ScalarProperty → Prop} {context before after middle final : Context}
  {id : GroupId} {sheet : SheetId} {log rest : List Derivation}

theorem scalarTally_noteScalar {property : ScalarProperty} {value : property.Value}
    {other : SheetId} : (context.noteScalar sheet property value).facts.scalarTally other =
      if other = sheet then context.facts.scalarTally sheet + 1 else context.facts.scalarTally other :=
  Facts.scalarTally_tallyScalar

theorem relationalTally_noteRelational {property : RelationalProperty} {value : property.Value}
    {other : GroupId} : (context.noteRelational id property value).facts.relationalTally other =
      if other = id then context.facts.relationalTally id + 1
      else context.facts.relationalTally other :=
  Facts.relationalTally_tallyRelational

/-- **The derivations that are counted** for a scalar sheet are those that happened. -/
theorem DerivesBy.scalarTally (derives : DerivesBy through before log after) (sheet : SheetId) :
    after.facts.scalarTally sheet =
      before.facts.scalarTally sheet + log.countP (Derivation.isOfScalar sheet) := by
  induction derives with
  | none => rfl
  | @scalar context _ _ _ own property value _ _ _ _ _ _ ih =>
    rw [ih, scalarTally_noteScalar, List.countP_cons]
    by_cases same : sheet = own
    · subst same
      have own : (Derivation.scalar sheet property).isOfScalar sheet = true := beq_self_eq_true _
      rw [if_pos rfl, own, if_pos rfl]
      omega
    · simp [Derivation.isOfScalar, same, Ne.symm same]
  | relational _ _ _ _ _ ih =>
    rw [ih, List.countP_cons]
    rfl
  | completeScalar _ _ ih => exact ih
  | completeRelational _ _ ih => exact ih

/-- **The derivations that are counted** for a relational group are those that happened. -/
theorem DerivesBy.relationalTally (derives : DerivesBy through before log after) (id : GroupId) :
    after.facts.relationalTally id =
      before.facts.relationalTally id + log.countP (Derivation.isOfRelational id) := by
  induction derives with
  | none => rfl
  | scalar _ _ _ _ _ ih =>
    rw [ih, List.countP_cons]
    rfl
  | @relational context _ own _ property value _ _ _ _ _ _ ih =>
    rw [ih, relationalTally_noteRelational, List.countP_cons]
    by_cases same : id = own
    · subst same
      have own : (Derivation.relational id property).isOfRelational id = true := beq_self_eq_true _
      rw [if_pos rfl, own, if_pos rfl]
      omega
    · simp [Derivation.isOfRelational, same, Ne.symm same]
  | completeScalar _ _ ih => exact ih
  | completeRelational _ _ ih => exact ih

/-! ### All that is known -/

section Known

variable {scalars : SheetId → (property : ScalarProperty) → property.Value → Prop}
  {relations : GroupId → (property : RelationalProperty) → property.Value → Prop}

/-- All that is known of scalar groups. -/
def AllScalar (scalars : SheetId → (property : ScalarProperty) → property.Value → Prop)
    (context : Context) : Prop :=
  ∀ {sheet : SheetId} {property : ScalarProperty} {value : property.Value},
    (context.facts.scalar sheet).get? property = some value → scalars sheet property value

/-- All that is known of relational groups. -/
def AllRelational (relations : GroupId → (property : RelationalProperty) → property.Value → Prop)
    (context : Context) : Prop :=
  ∀ {id : GroupId} {property : RelationalProperty} {value : property.Value},
    (context.facts.relational id).get? property = some value → relations id property value

/-- One derivation makes one value known. -/
theorem AllScalar.note {property : ScalarProperty} {value : property.Value}
    (all : context.AllScalar scalars)
    (unknown : (context.facts.scalar sheet).get? property = none)
    (one : scalars sheet property value) :
    (context.noteScalar sheet property value).AllScalar scalars := by
  intro other field found known
  rw [scalar_noteScalar] at known
  split at known
  · rename_i same
    subst same
    by_cases again : field = property
    · subst again
      rw [Sheet.get?_put unknown] at known
      cases known
      exact one
    · rw [Sheet.get?_put_ne again] at known
      exact all known
  · exact all known

theorem AllRelational.note {property : RelationalProperty} {value : property.Value}
    (all : context.AllRelational relations)
    (unknown : (context.facts.relational id).get? property = none)
    (one : relations id property value) :
    (context.noteRelational id property value).AllRelational relations := by
  intro other field found known
  rw [relational_noteRelational] at known
  split at known
  · rename_i same
    subst same
    by_cases again : field = property
    · subst again
      rw [Sheet.get?_put unknown] at known
      cases known
      exact one
    · rw [Sheet.get?_put_ne again] at known
      exact all known
  · exact all known

/-- A sheet that is completed holds what was known. -/
theorem AllScalar.complete {values : ScalarProperties} (all : context.AllScalar scalars)
    (each : ∀ property, (context.facts.scalar sheet).get? property = some (values property)) :
    (context.completeScalar sheet values).AllScalar scalars := by
  intro other property value known
  refine all ?_
  rw [scalar_completeScalar] at known
  split at known
  · rename_i same
    subst same
    exact (each property).trans known
  · exact known

theorem AllRelational.complete {values : RelationalProperties}
    (all : context.AllRelational relations)
    (each : ∀ property, (context.facts.relational id).get? property = some (values property)) :
    (context.completeRelational id values).AllRelational relations := by
  intro other property value known
  refine all ?_
  rw [relational_completeRelational] at known
  split at known
  · rename_i same
    subst same
    exact (each property).trans known
  · exact known

end Known

/-! ### Nothing is out of date -/

/-- The context under a guard that refuses nothing in a recursion through its memo. -/
def ample (context : Context) : Context :=
  { context with guard := .ample context.memo.groups.size }

/-- A value that is derived anew through an expression of a sheet, from what the context knows of the
groups below. -/
def Anew (through : Expr → ScalarProperty → Prop) (context : Context) (sheet : SheetId)
    (property : ScalarProperty) (value : property.Value) : Prop :=
  ∃ number expr, context.scalarExpr number = .ok (expr, sheet) ∧ through expr property ∧
    property.derive context.ample expr = .ok value

/-- **Nothing is out of date**: every known property is one that is derived anew from what the context
knows of the groups below. -/
structure CurrentBy (through : Expr → ScalarProperty → Prop) (context : Context) : Prop where
  scalar : context.AllScalar (context.Anew through)
  relational : context.AllRelational fun id property value =>
    context.memo.Relational id ∧ property.settle context.ample id = .ok value

/-- **Nothing is out of date**, and all that is known of scalar groups came through first members. -/
abbrev Current : Context → Prop := CurrentBy IsFirst

/-- A context of which nothing is known. -/
theorem current_of_blank {memo : Memo} {catalog : Catalog} {guard : Guard} :
    ({ memo, catalog, guard } : Context).CurrentBy through where
  scalar known := by simp [Facts.scalar] at known
  relational known := by simp [Facts.relational] at known

/-- What is known of a scalar group is what is derived through its first member. -/
theorem CurrentBy.settle (current : context.CurrentBy IsFirst) (linked : context.memo.Linked)
    {property : ScalarProperty} {value : property.Value}
    (known : (context.scalar id).get? property = some value) :
    context.memo.Scalar id ∧ property.settle context.ample id = .ok value := by
  obtain ⟨sheet, own, known⟩ := exists_sheet known
  obtain ⟨number, expr, named, first, derived⟩ := current.scalar known
  obtain ⟨stored, shared, _⟩ := scalarExpr_cases linked named
  obtain rfl := linked.sheet?_unique own shared
  exact ⟨linked.scalar_of_sheet? own,
    bind_eq_ok_iff.2 ⟨expr, linked.firstMember_of_position stored first, derived⟩⟩

theorem Extends.to_ample (extending : before.Extends after) : before.Extends after.ample :=
  ⟨extending.valid, extending.grows, extending.catalog, extending.retains.scalar,
    extending.retains.relational⟩

/-- A context that is extended is repeated under a guard that refuses nothing. -/
theorem Extends.ample (extending : before.Extends after) :
    before.Repeats after.ample fun _ => True := by
  exact extending.to_ample.repeats (Guard.ample_covers extending.grows.size_groups) _

theorem Extends.of_ample (extending : before.Extends after) : before.ample.Extends after :=
  ⟨extending.valid, extending.grows, extending.catalog, extending.retains.scalar,
    extending.retains.relational⟩

section Valid

variable (valid : before.memo.Valid) (headed : before.memo.LogicalFirst)
include valid headed

omit headed in
/-- What is derived anew is derived anew when more is known and the memo has grown. -/
theorem Anew.extend {property : ScalarProperty} {value : property.Value}
    (anew : before.Anew through sheet property value) (extending : before.Extends after) :
    after.Anew through sheet property value := by
  obtain ⟨number, expr, named, fits, derived⟩ := anew
  obtain ⟨stored, own⟩ := scalarExpr_ok_iff.1 named
  refine ⟨number, expr, scalarExpr_ok_iff.2 ⟨extending.grows.exprs stored, own⟩, fits, ?_⟩
  exact property.derive_repeated extending.of_ample.ample valid stored (fun _ _ => trivial) value derived

/-- What was not out of date is not out of date when more is known and the memo has grown. -/
theorem CurrentBy.known (current : before.CurrentBy through) (extending : before.Extends after) :
    before.AllScalar (after.Anew through) ∧
      before.AllRelational fun id property value =>
        after.memo.Relational id ∧ property.settle after.ample id = .ok value := by
  refine ⟨fun known => (current.scalar known).extend valid extending, fun {id property value} known => ?_⟩
  obtain ⟨family, settled⟩ := current.relational known
  exact ⟨family.mono extending.grows,
    property.settle_repeated extending.of_ample.ample valid (fun _ _ => trivial) headed family value
      settled⟩

/-- **Growth puts nothing out of date.** -/
theorem CurrentBy.grow (current : before.CurrentBy through) (extending : before.Extends after)
    (same : after.facts = before.facts) : after.CurrentBy through := by
  obtain ⟨scalars, relations⟩ := current.known valid headed extending
  exact ⟨fun known => scalars (same ▸ known), fun known => relations (same ▸ known)⟩

end Valid

end Context

/-- Only the bound on the number of rows depends on the constraint. -/
theorem RelationalProperty.derive_known {context : Context} {id : GroupId}
    {known other : Option Constraint} {property : RelationalProperty}
    (unneeded : property ≠ .maxCardinality) :
    property.derive context id known = property.derive context id other := by
  cases property with
  | maxCardinality => exact absurd rfl unneeded
  | _ => rfl

namespace Context

variable {through : Expr → ScalarProperty → Prop} {context after : Context} {id : GroupId}
  {sheet : SheetId} {log : List Derivation}

section Valid

variable (valid : context.memo.Valid) (headed : context.memo.LogicalFirst)
  (current : context.CurrentBy through)
include valid headed current

theorem CurrentBy.noteScalar {number : ExprId} {expr : Expr} {property : ScalarProperty}
    {value : property.Value} (named : context.scalarExpr number = .ok (expr, sheet))
    (fits : through expr property) (unknown : (context.facts.scalar sheet).get? property = none)
    (derived : property.derive context expr = .ok value) :
    (context.noteScalar sheet property value).CurrentBy through := by
  have extending : context.Extends (context.noteScalar sheet property value) :=
    ⟨valid, .refl _, rfl, (remembers_noteScalar unknown).retains⟩
  have stored := (scalarExpr_ok_iff.1 named).1
  have anew : (context.noteScalar sheet property value).Anew through sheet property value :=
    ⟨number, expr, named, fits,
      property.derive_repeated extending.ample valid stored (fun _ _ => trivial) value derived⟩
  obtain ⟨scalars, relations⟩ := current.known valid headed extending
  exact ⟨scalars.note unknown anew, relations⟩

theorem CurrentBy.noteRelational {known : Option Constraint} {property : RelationalProperty}
    {value : property.Value} (family : context.memo.Relational id)
    (unknown : (context.facts.relational id).get? property = none)
    (constraint : property = .maxCardinality →
      (context.facts.relational id).get? .constraint = some known)
    (derived : property.derive context id known = .ok value) :
    (context.noteRelational id property value).CurrentBy through := by
  have extending : context.Extends (context.noteRelational id property value) :=
    ⟨valid, .refl _, rfl, (remembers_noteRelational unknown).retains⟩
  have derived := property.derive_repeated extending.ample valid headed family (fun _ _ => trivial)
    known value derived
  obtain ⟨scalars, relations⟩ := current.known valid headed extending
  have settled : property.settle (context.noteRelational id property value).ample id =
      .ok value := by
    unfold RelationalProperty.settle
    split
    · rename_i bound
      have first := (relations (constraint bound)).2
      exact bind_eq_ok_iff.2 ⟨known, first, derived⟩
    · rename_i unneeded
      rw [RelationalProperty.derive_known unneeded]
      exact derived
  exact ⟨scalars, relations.note unknown ⟨family, settled⟩⟩

theorem CurrentBy.completeScalar {values : ScalarProperties}
    (each : ∀ property, (context.facts.scalar sheet).get? property = some (values property)) :
    (context.completeScalar sheet values).CurrentBy through := by
  have extending : context.Extends (context.completeScalar sheet values) :=
    ⟨valid, .refl _, rfl, (remembers_completeScalar each).retains⟩
  obtain ⟨scalars, relations⟩ := current.known valid headed extending
  exact ⟨scalars.complete each, relations⟩

theorem CurrentBy.completeRelational {values : RelationalProperties}
    (each : ∀ property, (context.facts.relational id).get? property = some (values property)) :
    (context.completeRelational id values).CurrentBy through := by
  have extending : context.Extends (context.completeRelational id values) :=
    ⟨valid, .refl _, rfl, (remembers_completeRelational each).retains⟩
  obtain ⟨scalars, relations⟩ := current.known valid headed extending
  exact ⟨scalars, relations.complete each⟩

/-- **Single derivations leave nothing out of date.** -/
theorem CurrentBy.derive (derives : DerivesBy through context log after) : after.CurrentBy through := by
  induction derives with
  | none => exact current
  | scalar named fits unknown derived _ ih =>
    exact ih valid headed (current.noteScalar valid headed named fits unknown derived)
  | relational family unknown known derived _ ih =>
    exact ih valid headed (current.noteRelational valid headed family unknown known derived)
  | completeScalar each _ ih => exact ih valid headed (current.completeScalar valid headed each)
  | completeRelational each _ ih =>
    exact ih valid headed (current.completeRelational valid headed each)

end Valid

end Context

end Cascades
