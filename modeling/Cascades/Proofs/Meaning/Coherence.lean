/-
**Known properties stay true.**

Deriving properties adds true columns only, and the columns of a group do not change while the memo
grows.

* `Steady`: a coherent context with a given memo;
* `deriveAll_coherent`: deriving properties keeps a context coherent, also where it is aborted;
* `Coherent.grow`: so does a growth of the memo.
-/

import Cascades.Proofs.Meaning.Facts

namespace Cascades.Context

variable {V : Type} {I : Interpretation V} {context : Context} {memo : Memo}

/-! ### More properties -/

theorem Coherent.noteScalar (coherent : context.Coherent I) {id : GroupId} {sheet : SheetId}
    {property : ScalarProperty} {value : property.Value} (own : context.memo.sheet? id = some sheet)
    (unknown : (context.facts.scalar sheet).get? property = none)
    (agrees : property.Agrees (context.memo.sense I id).scope value) :
    (context.noteScalar sheet property value).Coherent I where
  sound := coherent.sound
  relational := coherent.relational
  scalar {kept other found} known := by
    rw [scalar_noteScalar] at known
    by_cases same : kept = sheet
    · subst same
      rw [if_pos rfl] at known
      by_cases again : other = property
      · subst again
        rw [Sheet.get?_put unknown] at known
        cases known
        exact ⟨id, own, agrees⟩
      · rw [Sheet.get?_put_ne again] at known
        exact coherent.scalar known
    · rw [if_neg same] at known
      exact coherent.scalar known

theorem Coherent.noteRelational (coherent : context.Coherent I) {group : GroupId}
    {property : RelationalProperty} {value : property.Value}
    (inside : group < context.memo.groups.size)
    (unknown : (context.facts.relational group).get? property = none)
    (agrees : property.Agrees (context.memo.sense I group).scope value) :
    (context.noteRelational group property value).Coherent I where
  sound := coherent.sound
  scalar := coherent.scalar
  relational {id other found} known := by
    rw [relational_noteRelational] at known
    by_cases same : id = group
    · subst same
      rw [if_pos rfl] at known
      by_cases again : other = property
      · subst again
        rw [Sheet.get?_put unknown] at known
        cases known
        exact ⟨inside, agrees⟩
      · rw [Sheet.get?_put_ne again] at known
        exact coherent.relational known
    · rw [if_neg same] at known
      exact coherent.relational known

/-- A scalar sheet that is completed with true values. -/
theorem Coherent.completeScalar (coherent : context.Coherent I) {id : GroupId} {sheet : SheetId}
    {values : ScalarProperties} (own : context.memo.sheet? id = some sheet)
    (agree : ∀ property : ScalarProperty,
      property.Agrees (context.memo.sense I id).scope (values property)) :
    (context.completeScalar sheet values).Coherent I where
  sound := coherent.sound
  relational := coherent.relational
  scalar {kept other found} known := by
    rw [scalar_completeScalar] at known
    by_cases same : kept = sheet
    · subst same
      rw [if_pos rfl] at known
      cases known
      exact ⟨id, own, agree other⟩
    · rw [if_neg same] at known
      exact coherent.scalar known

/-- A relational sheet that is completed with true values. -/
theorem Coherent.completeRelational (coherent : context.Coherent I) {group : GroupId}
    {values : RelationalProperties} (inside : group < context.memo.groups.size)
    (agree : ∀ property : RelationalProperty,
      property.Agrees (context.memo.sense I group).scope (values property)) :
    (context.completeRelational group values).Coherent I where
  sound := coherent.sound
  scalar := coherent.scalar
  relational {id other found} known := by
    rw [relational_completeRelational] at known
    by_cases same : id = group
    · subst same
      rw [if_pos rfl] at known
      cases known
      exact ⟨inside, agree other⟩
    · rw [if_neg same] at known
      exact coherent.relational known

/-! ### Readings -/

/-- A coherent context with a given memo. -/
def Steady (I : Interpretation V) (memo : Memo) (context : Context) : Prop :=
  context.Coherent I ∧ context.memo = memo

theorem readScalar_ensures {id : ExprId} {expr : Expr} (stored : memo.exprs[id]? = some expr)
    (property : ScalarProperty) :
    Action.Ensures (Steady I memo) (readScalar id property)
      fun value => property.Agrees (memo.sense I expr.group).scope value := by
  rintro before result after ⟨coherent, rfl⟩ done
  obtain ⟨found, sheet, value, named, rfl, either⟩ := readScalar_cases done
  obtain ⟨again, own, operator, isScalar⟩ := scalarExpr_cases coherent.sound.toLinked named
  rw [stored] at again
  cases again
  rcases either with ⟨known, rfl⟩ | ⟨unknown, derived, rfl⟩
  · refine ⟨⟨coherent, rfl⟩, fun other same => ?_⟩
    cases same
    exact coherent.agrees (scalar_eq own ▸ known)
  · have agrees := derive_scalar coherent stored isScalar derived
    refine ⟨⟨coherent.noteScalar own unknown agrees, rfl⟩, fun other same => ?_⟩
    cases same
    exact agrees

theorem readRelationalWith_ensures {id : GroupId} (inside : id < memo.groups.size)
    (known : Option Constraint) (property : RelationalProperty) :
    Action.Ensures (Steady I memo) (readRelationalWith id known property)
      fun value => property.Agrees (memo.sense I id).scope value := by
  rintro before result after ⟨coherent, rfl⟩ done
  rcases readRelationalWith_cases done with
    ⟨value, rfl, found, rfl⟩ | ⟨value, rfl, unknown, derived, rfl⟩ | ⟨abort, rfl, _, _, rfl⟩
  · refine ⟨⟨coherent, rfl⟩, fun other same => ?_⟩
    cases same
    exact (coherent.relational found).2
  · have agrees := derive_relational coherent derived
    refine ⟨⟨coherent.noteRelational inside unknown agrees, rfl⟩, fun other same => ?_⟩
    cases same
    exact agrees
  · exact ⟨⟨coherent, rfl⟩, fun other same => nomatch same⟩

theorem readRelational_ensures {id : GroupId} (inside : id < memo.groups.size)
    (property : RelationalProperty) :
    Action.Ensures (Steady I memo) (readRelational id property)
      fun value => property.Agrees (memo.sense I id).scope value := by
  refine Action.Ensures.bind Action.Ensures.get fun context _ => ?_
  refine Action.Ensures.bind (Action.Ensures.lift fun _ _ => trivial) fun sheet (_ : True) => ?_
  have last := fun known => readRelationalWith_ensures (I := I) inside known property
  show Action.Ensures (Steady I memo)
    (if property = .maxCardinality ∧ (sheet.get? property).isNone then
      readRelationalWith id none .constraint >>= fun known => readRelationalWith id known property
    else pure none >>= fun known => readRelationalWith id known property) _
  split
  · exact Action.Ensures.bind (readRelationalWith_ensures inside none _) fun known _ => last known
  · have nothing : Action.Ensures (Steady I memo) (pure none : Action Context (Option Constraint))
        fun _ => True := Action.Ensures.pure trivial
    exact Action.Ensures.bind nothing fun known _ => last known

/-! ### Derivations -/

theorem deriveScalar_ensures (id : ExprId) :
    Action.Ensures (Steady I memo) (deriveScalar id) fun _ => True := by
  refine Action.Ensures.bind Action.Ensures.get fun context steady => ?_
  obtain ⟨coherent, rfl⟩ := steady
  refine Action.Ensures.bind (Action.Ensures.lift fun _ named => named) fun both named => ?_
  obtain ⟨expr, sheet⟩ := both
  obtain ⟨stored, own, _⟩ := scalarExpr_cases coherent.sound.toLinked named
  dsimp only
  by_cases complete : (context.facts.scalar sheet).isComplete = true
  · rw [if_pos complete]
    exact Action.Ensures.pure trivial
  · rw [if_neg complete]
    refine Action.Ensures.bind Action.Ensures.lift_abort fun _ _ => ?_
    refine Action.Ensures.bind (readScalar_ensures stored _) fun _ defined => ?_
    refine Action.Ensures.bind (readScalar_ensures stored _) fun _ used => ?_
    iterate 8
      refine Action.Ensures.bind (readScalar_ensures stored _) fun _ _ => ?_
    refine Action.Ensures.modify fun last steady => ?_
    obtain ⟨coherent, same⟩ := steady
    have shared : last.memo.sheet? expr.group = some sheet := same ▸ own
    refine ⟨coherent.completeScalar shared fun property => ?_, same⟩
    rw [same]
    cases property with
    | definedColumns => exact defined
    | usedColumns => exact used
    | _ => trivial

theorem deriveRelational_ensures (id : GroupId) :
    Action.Ensures (Steady I memo) (deriveRelational id) fun _ => True := by
  refine Action.Ensures.bind Action.Ensures.get fun context steady => ?_
  obtain ⟨_, rfl⟩ := steady
  refine Action.Ensures.bind (Action.Ensures.lift fun _ named => named) fun sheet named => ?_
  obtain ⟨⟨group, there, _⟩, rfl⟩ := relationalSheet_ok_iff.1 named
  have inside := Memo.lt_of_group there
  by_cases complete : (context.facts.relational id).isComplete = true
  · rw [if_pos complete]
    exact Action.Ensures.pure trivial
  · rw [if_neg complete]
    refine Action.Ensures.bind Action.Ensures.lift_abort fun _ _ => ?_
    refine Action.Ensures.bind (readRelational_ensures inside _) fun _ output => ?_
    refine Action.Ensures.bind (readRelational_ensures inside _) fun _ outer => ?_
    iterate 4
      refine Action.Ensures.bind (readRelational_ensures inside _) fun _ _ => ?_
    refine Action.Ensures.modify fun last steady => ?_
    obtain ⟨coherent, same⟩ := steady
    refine ⟨coherent.completeRelational (same ▸ inside) fun property => ?_, same⟩
    rw [same]
    cases property with
    | outputColumns => exact output
    | outerReferences => exact outer
    | _ => trivial

theorem deriveGroup_ensures (id : GroupId) :
    Action.Ensures (Steady I memo) (deriveGroup id) fun _ => True := by
  refine Action.Ensures.bind Action.Ensures.get fun context _ => ?_
  refine Action.Ensures.bind Action.Ensures.lift_abort fun _ _ => ?_
  refine Action.Ensures.bind (Action.Ensures.lift fun _ _ => trivial) fun group (_ : True) => ?_
  by_cases scalar : group.isScalar = true
  · rw [if_pos scalar]
    refine Action.Ensures.bind (Action.Ensures.lift fun _ _ => trivial) fun first (_ : True) => ?_
    exact deriveScalar_ensures first
  · rw [if_neg scalar]
    by_cases none : (context.memo.logicalMembers group).isEmpty = true
    · rw [if_pos none]
      exact Action.Ensures.pure trivial
    · rw [if_neg none]
      exact deriveRelational_ensures id

/-- **Deriving properties keeps a context coherent**, whatever it ends with. -/
theorem deriveAll_coherent {after : Context} {outcome : Except Abort PUnit}
    (coherent : context.Coherent I) (done : deriveAll context = .ok (outcome, after)) :
    after.Coherent I ∧ after.memo = context.memo := by
  have all : Action.Ensures (Steady I context.memo) deriveAll fun _ => True := by
    refine Action.Ensures.bind Action.Ensures.get fun start _ => ?_
    exact Action.Ensures.forM fun id _ => deriveGroup_ensures id
  exact (all context outcome after ⟨coherent, rfl⟩ done).1

/-! ### Growth -/

/-- Growth of the memo changes no columns of the groups that are known. -/
theorem Coherent.grow (coherent : context.Coherent I) {next : Memo} (sound : next.Sound I)
    (grows : context.memo.Grows next) : ({ context with memo := next } : Context).Coherent I where
  sound := sound
  scalar known := by
    obtain ⟨id, own, agrees⟩ := coherent.scalar known
    refine ⟨id, grows.sheet? own, ?_⟩
    rw [grows.sense_eq coherent.sound.toValid sound.toValid (Memo.inside_of_sheet? own)]
    exact agrees
  relational known := by
    obtain ⟨inside, agrees⟩ := coherent.relational known
    refine ⟨Nat.lt_of_lt_of_le inside grows.size_groups, ?_⟩
    rw [grows.sense_eq coherent.sound.toValid sound.toValid inside]
    exact agrees

end Cascades.Context
