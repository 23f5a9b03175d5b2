/-
**What reading and deriving is made of.**

Reading a property derives it if it is not known, and deriving all properties of a group reads one after
another before its sheet is completed. So every such action is made of single derivations, also where it
is aborted, which only the constraint of a relation can cause, or the guard.

* `Fills`: single derivations that complete no group; `Learns`: some after which properties are known;
* `readScalar_fills`, `readRelational_reads`: what a reading does;
* `deriveScalar_cases`, `deriveRelational_cases`: how deriving all properties ends;
* `deriveScalar_derives`, `deriveRelational_derives`, `deriveAll_derives`: what they are made of.
-/

import Cascades.Proofs.Property.Derivation

namespace Cascades

namespace Context

variable {through : Expr → ScalarProperty → Prop} {context before after middle final : Context}
  {id : GroupId} {log rest : List Derivation}

/-! ### Actions -/

/-- Single derivations of some properties that complete no group. -/
structure Fills (through : Expr → ScalarProperty → Prop) (own : Derivation → Prop) (before : Context)
    (log : List Derivation) (after : Context) : Prop extends before.AsComplete after where
  derives : DerivesBy through before log after
  own : ∀ entry ∈ log, own entry

variable {own : Derivation → Prop}

theorem Fills.refl (context : Context) : context.Fills through own [] context :=
  ⟨⟨fun _ => rfl, fun _ => rfl⟩, .none, nofun⟩

theorem Fills.append (one : before.Fills through own log middle)
    (two : middle.Fills through own rest after) : before.Fills through own (log ++ rest) after where
  scalar id := (two.scalar id).trans (one.scalar id)
  relational id := (two.relational id).trans (one.relational id)
  derives := one.derives.append two.derives
  own entry member := (List.mem_append.1 member).elim (one.own entry) (two.own entry)

/-- Single derivations after which some properties in a sheet are known. -/
structure Learns {Field : Type} {Value : Field → Type} (through : Expr → ScalarProperty → Prop)
    (own : Derivation → Prop) (sheet : Context → Sheet Value) (before : Context)
    (facts : List (Sigma Value)) (log : List Derivation) (after : Context) : Prop
    extends before.Fills through own log after where
  known : ∀ fact ∈ facts, (sheet after).get? fact.1 = some fact.2

theorem Learns.start {Field : Type} {Value : Field → Type} {sheet : Context → Sheet Value} :
    context.Learns through own sheet [] [] context :=
  ⟨.refl _, nofun⟩

/-- The derivations for a scalar sheet. -/
def OfScalar (sheet : SheetId) (entry : Derivation) : Prop :=
  ∃ property, entry = .scalar sheet property

/-- The derivations for a relational group. -/
def OfRelational (id : GroupId) (entry : Derivation) : Prop :=
  ∃ property, entry = .relational id property

/-! ### Scalar groups -/

section Scalar

variable {number : ExprId} {expr : Expr} {sheet : SheetId}

/-- **Reading a scalar property** derives it, unless it is known. -/
theorem readScalar_fills (named : context.scalarExpr number = .ok (expr, sheet))
    {property : ScalarProperty} (fits : through expr property) {result : Except Abort property.Value}
    (done : readScalar number property context = .ok (result, after)) :
    ∃ value log, result = .ok value ∧ context.Fills through (OfScalar sheet) log after ∧
      (after.facts.scalar sheet).get? property = some value := by
  obtain ⟨again, shared, value, same, rfl, ends⟩ := readScalar_cases done
  cases named.symm.trans same
  rcases ends with ⟨known, rfl⟩ | ⟨unknown, derived, rfl⟩
  · exact ⟨value, [], rfl, .refl _, known⟩
  · refine ⟨value, [.scalar sheet property], rfl, ⟨asComplete_noteScalar,
      .scalar named fits unknown derived .none, List.forall_mem_singleton.2 ⟨property, rfl⟩⟩, ?_⟩
    rw [scalar_noteScalar, if_pos rfl]
    exact Sheet.get?_put unknown

/-- One more reading. -/
theorem Learns.readScalar {facts : List (Σ property : ScalarProperty, property.Value)}
    (learns : before.Learns through (OfScalar sheet) (·.facts.scalar sheet) facts log middle)
    (named : before.scalarExpr number = .ok (expr, sheet)) {property : ScalarProperty}
    (fits : through expr property) {β : Type} {next : property.Value → Action Context β}
    {result : Except Abort β}
    (done : (readScalar number property >>= next) middle = .ok (result, after)) :
    ∃ value last more, before.Learns through (OfScalar sheet) (·.facts.scalar sheet)
        (⟨property, value⟩ :: facts) more last ∧ next value last = .ok (result, after) := by
  have named := (scalarExpr_eq learns.derives.sameMemo.memo number).trans named
  rcases Action.bind_eq_ok_iff.1 done with ⟨value, last, one, others⟩ | ⟨abort, one, _⟩
  · obtain ⟨_, more, ⟨⟩, reading, known⟩ := readScalar_fills named fits one
    have earlier : ∀ fact ∈ facts, (last.facts.scalar sheet).get? fact.1 = some fact.2 :=
      fun fact member => reading.derives.remembers.scalar (learns.known fact member)
    exact ⟨value, last, _, ⟨learns.append reading, List.forall_mem_cons.2 ⟨known, earlier⟩⟩, others⟩
  · obtain ⟨_, _, ⟨⟩, _⟩ := readScalar_fills named fits one

/-- **Deriving all properties of a scalar group** does nothing if they are complete or if the guard
refuses it. Otherwise they are complete afterwards. -/
theorem deriveScalar_cases (named : context.scalarExpr number = .ok (expr, sheet))
    (fits : ∀ property, through expr property) {result : Except Abort Unit}
    (done : deriveScalar number context = .ok (result, after)) :
    (result = .ok () ∧ (context.facts.scalar sheet).isComplete = true ∧ after = context) ∨
      (∃ abort, result = .error abort ∧ (context.facts.scalar sheet).isComplete = false ∧
        context.guard.check 0 = .error abort ∧ after = context) ∨
      (result = .ok () ∧ (context.facts.scalar sheet).isComplete = false ∧
        context.guard.check 0 = .ok () ∧ ∃ log middle values,
        context.Fills through (OfScalar sheet) log middle ∧
        (∀ property, (middle.facts.scalar sheet).get? property = some (values property)) ∧
        after = middle.completeScalar sheet values) := by
  obtain ⟨both, same, done⟩ := Action.lift_bind_eq_ok_iff.1 (Action.get_bind_eq_ok_iff.1 done)
  cases named.symm.trans same
  dsimp only at done
  cases complete : (context.facts.scalar sheet).isComplete with
  | true =>
    rw [complete] at done
    cases done
    exact Or.inl ⟨rfl, rfl, rfl⟩
  | false =>
    rw [complete, if_neg Bool.false_ne_true] at done
    refine Or.inr ?_
    rcases Action.bind_eq_ok_iff.1 done with ⟨_, start, passed, onward⟩ | ⟨abort, refused, stopped⟩
    swap
    · obtain ⟨refusal, rfl⟩ := Action.lift_abort_eq_ok_iff.1 refused
      exact Or.inl ⟨abort, stopped, rfl, refusal.symm, rfl⟩
    obtain ⟨passes, rfl⟩ := Action.lift_abort_eq_ok_iff.1 passed
    refine Or.inr ?_
    have nothing : start.Learns through (OfScalar sheet) (·.facts.scalar sheet) [] [] start := .start
    -- Each reading adds to what is known.
    obtain ⟨definedColumns, _, _, learns, done⟩ := nothing.readScalar named (fits _) onward
    obtain ⟨usedColumns, _, _, learns, done⟩ := learns.readScalar named (fits _) done
    obtain ⟨setReturningColumns, _, _, learns, done⟩ := learns.readScalar named (fits _) done
    obtain ⟨hasSubquery, _, _, learns, done⟩ := learns.readScalar named (fits _) done
    obtain ⟨partitions, _, _, learns, done⟩ := learns.readScalar named (fits _) done
    obtain ⟨functionTraits, _, _, learns, done⟩ := learns.readScalar named (fits _) done
    obtain ⟨hasSetFunction, _, _, learns, done⟩ := learns.readScalar named (fits _) done
    obtain ⟨distinctAggregates, _, _, learns, done⟩ := learns.readScalar named (fits _) done
    obtain ⟨multipleDistinct, _, _, learns, done⟩ := learns.readScalar named (fits _) done
    obtain ⟨hasArrayComparison, last, log, learns, done⟩ := learns.readScalar named (fits _) done
    cases done
    refine ⟨rfl, rfl, passes.symm, log, last, _, learns.toFills, fun property => ?_, rfl⟩
    cases property with
    | definedColumns => exact learns.known ⟨_, definedColumns⟩ (by simp)
    | usedColumns => exact learns.known ⟨_, usedColumns⟩ (by simp)
    | setReturningColumns => exact learns.known ⟨_, setReturningColumns⟩ (by simp)
    | hasSubquery => exact learns.known ⟨_, hasSubquery⟩ (by simp)
    | partitions => exact learns.known ⟨_, partitions⟩ (by simp)
    | functionTraits => exact learns.known ⟨_, functionTraits⟩ (by simp)
    | hasSetFunction => exact learns.known ⟨_, hasSetFunction⟩ (by simp)
    | distinctAggregates => exact learns.known ⟨_, distinctAggregates⟩ (by simp)
    | multipleDistinctAggregates => exact learns.known ⟨_, multipleDistinct⟩ (by simp)
    | hasArrayComparison => exact learns.known ⟨_, hasArrayComparison⟩ (by simp)

theorem deriveScalar_derives (named : context.scalarExpr number = .ok (expr, sheet))
    (fits : ∀ property, through expr property) {result : Except Abort Unit}
    (done : deriveScalar number context = .ok (result, after)) :
    ∃ log, DerivesBy through context log after := by
  rcases deriveScalar_cases named fits done with
    ⟨_, _, rfl⟩ | ⟨_, _, _, _, rfl⟩ | ⟨_, _, _, log, middle, values, fills, each, rfl⟩
  · exact ⟨[], .none⟩
  · exact ⟨[], .none⟩
  · exact ⟨_, fills.derives.append (.completeScalar each .none)⟩

end Scalar

/-! ### Relational groups -/

/-- What a reading of a relational property leaves: it is known, or neither it nor the constraint is,
which was needed and could not be derived. -/
structure Reads (through : Expr → ScalarProperty → Prop) (id : GroupId)
    (property : RelationalProperty) (before : Context) (result : Except Abort property.Value)
    (log : List Derivation) (after : Context) : Prop where
  fills : before.Fills through (OfRelational id) log after
  known : ∀ value, result = .ok value → (after.facts.relational id).get? property = some value
  aborted : ∀ abort, result = .error abort → after = before ∧
    (after.facts.relational id).get? property = none ∧
    (after.facts.relational id).get? .constraint = none ∧
    RelationalProperty.derive after id none .constraint = .error (.abort abort)

theorem readRelationalWith_reads {known : Option Constraint} {property : RelationalProperty}
    (constraint : property = .maxCardinality → (context.facts.relational id).get? property = none →
      (context.facts.relational id).get? .constraint = some known)
    (family : context.memo.Relational id) {result : Except Abort property.Value}
    (done : readRelationalWith id known property context = .ok (result, after)) :
    ∃ log, Reads through id property context result log after := by
  rcases readRelationalWith_cases done with
    ⟨value, rfl, found, rfl⟩ | ⟨value, rfl, unknown, derived, rfl⟩ | ⟨_, rfl, unknown, aborted, rfl⟩
  · exact ⟨[], .refl _, fun _ same => Except.ok.inj same ▸ found, nofun⟩
  · refine ⟨[.relational id property], ⟨asComplete_noteRelational, .relational family unknown
      (fun bound => constraint bound unknown) derived .none,
      List.forall_mem_singleton.2 ⟨property, rfl⟩⟩, fun _ same => ?_, nofun⟩
    cases same
    rw [relational_noteRelational, if_pos rfl]
    exact Sheet.get?_put unknown
  · obtain rfl := RelationalProperty.eq_constraint_of_abort aborted
    refine ⟨[], .refl _, nofun, ?_⟩
    rintro _ ⟨⟩
    exact ⟨rfl, unknown, unknown, aborted⟩

/-- **Reading a relational property** derives it, unless it is known, and before it the constraint
where it matters. -/
theorem readRelational_reads (through : Expr → ScalarProperty → Prop) {property : RelationalProperty}
    {result : Except Abort property.Value}
    (done : readRelational id property context = .ok (result, after)) :
    context.memo.Relational id ∧ ∃ log, Reads through id property context result log after := by
  obtain ⟨sheet, named, done⟩ := Action.lift_bind_eq_ok_iff.1 (Action.get_bind_eq_ok_iff.1 done)
  obtain ⟨family, rfl⟩ := relationalSheet_ok_iff.1 named
  refine ⟨family, ?_⟩
  change (if property = .maxCardinality ∧
      ((context.facts.relational id).get? property).isNone = true then
      readRelationalWith id none .constraint >>= fun known => readRelationalWith id known property
    else pure none >>= fun known => readRelationalWith id known property : Action _ _) _ = _ at done
  split at done
  · rename_i unread
    obtain ⟨rfl, unknown⟩ := unread
    rcases Action.bind_eq_ok_iff.1 done with ⟨known, middle, one, two⟩ | ⟨abort, one, rfl⟩
    · obtain ⟨log, reads⟩ : ∃ log, Reads through id .constraint context (.ok known) log middle :=
        readRelationalWith_reads (fun same => by cases same) family one
      have found := reads.known known rfl
      have same := reads.fills.derives.sameMemo.memo
      obtain ⟨rest, more⟩ := readRelationalWith_reads (fun _ _ => found) (same ▸ family) two
      refine ⟨log ++ rest, reads.fills.append more.fills, more.known, fun abort stopped => ?_⟩
      obtain ⟨rfl, _, unknown, _⟩ := more.aborted abort stopped
      rw [found] at unknown
      cases unknown
    · obtain ⟨log, reads⟩ : ∃ log, Reads through id .constraint context (.error abort) log after :=
        readRelationalWith_reads (fun same => by cases same) family one
      refine ⟨log, reads.fills, nofun, fun other same => ?_⟩
      cases same
      obtain ⟨rfl, _, aborted⟩ := reads.aborted abort rfl
      exact ⟨rfl, Option.isNone_iff_eq_none.1 unknown, aborted⟩
  · rename_i read
    refine readRelationalWith_reads (fun bound unknown => absurd ⟨bound, ?_⟩ read) family done
    rw [unknown]
    rfl

/-- One more reading, which is aborted only if the constraint cannot be derived. -/
theorem Learns.readRelational {facts : List (Σ property : RelationalProperty, property.Value)}
    (learns : before.Learns through (OfRelational id) (·.facts.relational id) facts log middle)
    {property : RelationalProperty} {β : Type} {next : property.Value → Action Context β}
    {result : Except Abort β}
    (done : (readRelational id property >>= next) middle = .ok (result, after)) :
    (∃ value last more, before.Learns through (OfRelational id) (·.facts.relational id)
        (⟨property, value⟩ :: facts) more last ∧ next value last = .ok (result, after)) ∨
    ∃ abort more, result = .error abort ∧ before.Fills through (OfRelational id) more after ∧
      (after.facts.relational id).get? .constraint = none ∧
      RelationalProperty.derive after id none .constraint = .error (.abort abort) := by
  rcases Action.bind_eq_ok_iff.1 done with ⟨value, last, one, others⟩ | ⟨abort, one, rfl⟩
  · obtain ⟨_, more, reads⟩ := readRelational_reads through one
    have earlier : ∀ fact ∈ facts, (last.facts.relational id).get? fact.1 = some fact.2 :=
      fun fact member => reads.fills.derives.remembers.relational (learns.known fact member)
    exact Or.inl ⟨value, last, _, ⟨learns.append reads.fills,
      List.forall_mem_cons.2 ⟨reads.known value rfl, earlier⟩⟩, others⟩
  · obtain ⟨_, more, reads⟩ := readRelational_reads through one
    obtain ⟨_, _, unknown, aborted⟩ := reads.aborted abort rfl
    exact Or.inr ⟨abort, _, rfl, learns.append reads.fills, unknown, aborted⟩

/-- **Deriving all properties of a relational group** does nothing if they are complete or if the
guard refuses it. Otherwise they are complete afterwards, or the constraint, which is not known, could
not be derived. -/
theorem deriveRelational_cases (through : Expr → ScalarProperty → Prop) {result : Except Abort Unit}
    (done : deriveRelational id context = .ok (result, after)) :
    context.memo.Relational id ∧
      ((result = .ok () ∧ (context.facts.relational id).isComplete = true ∧ after = context) ∨
      (∃ abort, result = .error abort ∧ (context.facts.relational id).isComplete = false ∧
        context.guard.check 0 = .error abort ∧ after = context) ∨
      (result = .ok () ∧ (context.facts.relational id).isComplete = false ∧
        context.guard.check 0 = .ok () ∧ ∃ log middle values,
        context.Fills through (OfRelational id) log middle ∧
        (∀ property, (middle.facts.relational id).get? property = some (values property)) ∧
        after = middle.completeRelational id values) ∨
      ∃ abort log, result = .error abort ∧ (context.facts.relational id).isComplete = false ∧
        context.Fills through (OfRelational id) log after ∧
        (after.facts.relational id).get? .constraint = none ∧
        RelationalProperty.derive after id none .constraint = .error (.abort abort)) := by
  obtain ⟨sheet, named, done⟩ := Action.lift_bind_eq_ok_iff.1 (Action.get_bind_eq_ok_iff.1 done)
  obtain ⟨family, rfl⟩ := relationalSheet_ok_iff.1 named
  refine ⟨family, ?_⟩
  cases complete : (context.facts.relational id).isComplete with
  | true =>
    rw [complete] at done
    cases done
    exact Or.inl ⟨rfl, rfl, rfl⟩
  | false =>
    rw [complete, if_neg Bool.false_ne_true] at done
    refine Or.inr ?_
    rcases Action.bind_eq_ok_iff.1 done with ⟨_, start, passed, onward⟩ | ⟨abort, refused, stopped⟩
    swap
    · obtain ⟨refusal, rfl⟩ := Action.lift_abort_eq_ok_iff.1 refused
      exact Or.inl ⟨abort, stopped, rfl, refusal.symm, rfl⟩
    obtain ⟨passes, rfl⟩ := Action.lift_abort_eq_ok_iff.1 passed
    refine Or.inr ?_
    have nothing : start.Learns through (OfRelational id) (·.facts.relational id) [] [] start := .start
    suffices ends : (∃ log middle values, result = .ok () ∧
        start.Fills through (OfRelational id) log middle ∧
        (∀ property, (middle.facts.relational id).get? property = some (values property)) ∧
        after = middle.completeRelational id values) ∨
        ∃ abort log, result = .error abort ∧ start.Fills through (OfRelational id) log after ∧
          (after.facts.relational id).get? .constraint = none ∧
          RelationalProperty.derive after id none .constraint = .error (.abort abort) by
      rcases ends with ⟨log, middle, values, ended, others⟩ | ⟨abort, log, ended, others⟩
      · exact Or.inl ⟨ended, rfl, passes.symm, log, middle, values, others⟩
      · exact Or.inr ⟨abort, log, ended, rfl, others⟩
    refine (nothing.readRelational onward).elim ?_ Or.inr
    rintro ⟨outputColumns, _, _, learns, done⟩
    refine (learns.readRelational done).elim ?_ Or.inr
    rintro ⟨outerReferences, _, _, learns, done⟩
    refine (learns.readRelational done).elim ?_ Or.inr
    rintro ⟨constraint, _, _, learns, done⟩
    refine (learns.readRelational done).elim ?_ Or.inr
    rintro ⟨maxCardinality, _, _, learns, done⟩
    refine (learns.readRelational done).elim ?_ Or.inr
    rintro ⟨joinDepth, _, _, learns, done⟩
    refine (learns.readRelational done).elim ?_ Or.inr
    rintro ⟨partitions, last, log, learns, done⟩
    cases done
    refine Or.inl ⟨log, last, _, rfl, learns.toFills, fun property => ?_, rfl⟩
    cases property with
    | outputColumns => exact learns.known ⟨_, outputColumns⟩ (by simp)
    | outerReferences => exact learns.known ⟨_, outerReferences⟩ (by simp)
    | constraint => exact learns.known ⟨_, constraint⟩ (by simp)
    | maxCardinality => exact learns.known ⟨_, maxCardinality⟩ (by simp)
    | joinDepth => exact learns.known ⟨_, joinDepth⟩ (by simp)
    | partitions => exact learns.known ⟨_, partitions⟩ (by simp)

/-! ### All groups -/

theorem deriveRelational_derives {result : Except Abort Unit}
    (done : deriveRelational id context = .ok (result, after)) :
    ∃ log, DerivesBy through context log after := by
  rcases (deriveRelational_cases through done).2 with
    ⟨_, _, rfl⟩ | ⟨_, _, _, _, rfl⟩ | ⟨_, _, _, log, middle, values, fills, each, rfl⟩ |
      ⟨_, log, _, _, fills, _⟩
  · exact ⟨[], .none⟩
  · exact ⟨[], .none⟩
  · exact ⟨_, fills.derives.append (.completeRelational each .none)⟩
  · exact ⟨log, fills.derives⟩

/-- What deriving all properties of a group is made of. -/
theorem deriveGroup_derives (valid : context.memo.Valid) {result : Except Abort Unit}
    (done : deriveGroup id context = .ok (result, after)) :
    ∃ log, Derives context log after := by
  have done := Action.get_bind_eq_ok_iff.1 done
  rcases Action.bind_eq_ok_iff.1 done with ⟨_, start, passed, onward⟩ | ⟨abort, refused, _⟩
  swap
  · obtain ⟨_, rfl⟩ := Action.lift_abort_eq_ok_iff.1 refused
    exact ⟨[], .none⟩
  obtain ⟨_, rfl⟩ := Action.lift_abort_eq_ok_iff.1 passed
  obtain ⟨group, found, onward⟩ := Action.lift_bind_eq_ok_iff.1 onward
  split at onward
  · obtain ⟨number, first, onward⟩ := Action.lift_bind_eq_ok_iff.1 onward
    obtain ⟨expr, stored, _, place⟩ :=
      valid.listed (Memo.group_ok_iff.1 found) (Group.first_ok_iff.1 first)
    obtain ⟨⟨again, sheet⟩, named, _⟩ :=
      Action.lift_bind_eq_ok_iff.1 (Action.get_bind_eq_ok_iff.1 onward)
    cases stored.symm.trans (scalarExpr_ok_iff.1 named).1
    exact deriveScalar_derives named (fun _ => place) onward
  · split at onward
    · cases onward
      exact ⟨[], .none⟩
    · exact deriveRelational_derives onward

/-- **What deriving all properties of all groups is made of.** -/
theorem deriveAll_derives (valid : context.memo.Valid) {result : Except Abort PUnit}
    (done : deriveAll context = .ok (result, after)) : ∃ log, Derives context log after := by
  have each : Action.Relates (fun before after => before.memo.Valid → ∃ log, Derives before log after)
      ((List.range context.memo.groups.size).forM deriveGroup) := by
    refine Action.Relates.forM (fun _ _ => ⟨[], .none⟩) ?_ fun id _ => ?_
    · intro one two three first second valid
      obtain ⟨log, before⟩ := first valid
      obtain ⟨rest, after⟩ := second (before.sameMemo.memo ▸ valid)
      exact ⟨log ++ rest, before.append after⟩
    · intro before result after done valid
      exact deriveGroup_derives valid done
  exact each _ _ _ (Action.get_bind_eq_ok_iff.1 done) valid

end Context

end Cascades
