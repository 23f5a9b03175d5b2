/-
**Complete groups stay as they are.**

A group is complete once all its properties are found, and from then on nothing is written into its
sheet. So what is read of it stays the same while other groups are completed and the memo grows.

* `RetainsBut`, `Retains`: the groups that are complete stay so, with the same properties;
* `deriveAll_retains`: deriving properties retains them;
* `Extends`: what a context becomes; `Extends.scalarProperties`, `Extends.relationalProperties`: what is
  read of a complete group stays.
-/

import Cascades.Proofs.Meaning.Facts
import Cascades.Proofs.Memo.Growth

namespace Cascades.Context

variable {scalars : SheetId → Prop} {relations : GroupId → Prop} {id : GroupId}
  {context first before after later : Context}

/-! ### Derivations -/

/-- **Complete groups stay as they are**, some scalar sheets and some relational groups aside. -/
structure RetainsBut (scalars : SheetId → Prop) (relations : GroupId → Prop)
    (before after : Context) : Prop where
  scalar : ∀ (sheet : SheetId) (values : ScalarProperties), ¬ scalars sheet →
    before.facts.scalar sheet = .complete values → after.facts.scalar sheet = .complete values
  relational : ∀ (id : GroupId) (values : RelationalProperties), ¬ relations id →
    before.facts.relational id = .complete values → after.facts.relational id = .complete values

/-- **Complete groups stay as they are.** -/
abbrev Retains : Context → Context → Prop := RetainsBut (fun _ => False) fun _ => False

theorem RetainsBut.refl (context : Context) : RetainsBut scalars relations context context :=
  ⟨fun _ _ _ complete => complete, fun _ _ _ complete => complete⟩

theorem RetainsBut.trans (one two three : Context) (first : RetainsBut scalars relations one two)
    (second : RetainsBut scalars relations two three) : RetainsBut scalars relations one three :=
  ⟨fun id values other complete => second.scalar id values other (first.scalar id values other complete),
    fun id values other complete =>
      second.relational id values other (first.relational id values other complete)⟩

/-- Only the sheets of incomplete groups are written into. -/
theorem RetainsBut.close (retains : RetainsBut scalars relations before after)
    (scalar : ∀ id, scalars id → (before.facts.scalar id).isComplete = false)
    (relational : ∀ id, relations id → (before.facts.relational id).isComplete = false) :
    before.Retains after where
  scalar id values _ complete := by
    refine retains.scalar id values (fun other => ?_) complete
    have incomplete := scalar id other
    rw [complete] at incomplete
    cases incomplete
  relational id values _ complete := by
    refine retains.relational id values (fun other => ?_) complete
    have incomplete := relational id other
    rw [complete] at incomplete
    cases incomplete

theorem readScalar_retains (number : ExprId) (property : ScalarProperty) :
    Action.Relates (RetainsBut scalars relations) (readScalar number property) := by
  intro before result after done
  obtain ⟨expr, sheet, value, _, _, ⟨_, rfl⟩ | ⟨_, _, rfl⟩⟩ := readScalar_cases done
  · exact .refl _
  · refine ⟨fun other values _ complete => ?_, fun _ _ _ complete => complete⟩
    rw [scalar_noteScalar]
    split
    · rename_i same
      rw [← same, complete]
      rfl
    · exact complete

theorem readRelationalWith_retains (group : GroupId) (known : Option Constraint)
    (property : RelationalProperty) :
    Action.Relates (RetainsBut scalars relations) (readRelationalWith group known property) := by
  intro before result after done
  obtain ⟨_, _, _, rfl⟩ | ⟨value, _, _, _, rfl⟩ | ⟨_, _, _, _, rfl⟩ := readRelationalWith_cases done
  · exact .refl _
  · refine ⟨fun _ _ _ complete => complete, fun id values _ complete => ?_⟩
    rw [relational_noteRelational]
    split
    · rename_i same
      rw [← same, complete]
      rfl
    · exact complete
  · exact .refl _

theorem readRelational_retains (group : GroupId) (property : RelationalProperty) :
    Action.Relates (RetainsBut scalars relations) (readRelational group property) := by
  refine Action.Relates.bind RetainsBut.trans (Action.Relates.get .refl) fun _ => ?_
  refine Action.Relates.bind RetainsBut.trans (Action.Relates.lift .refl _) fun sheet => ?_
  have last : ∀ known, Action.Relates (RetainsBut scalars relations)
      (readRelationalWith group known property) := fun known =>
    readRelationalWith_retains group known property
  show Action.Relates (RetainsBut scalars relations)
    (if property = .maxCardinality ∧ (sheet.get? property).isNone then
      readRelationalWith group none .constraint >>= fun known => readRelationalWith group known property
    else pure none >>= fun known => readRelationalWith group known property)
  split
  · exact Action.Relates.bind RetainsBut.trans (readRelationalWith_retains group none _) last
  · exact Action.Relates.bind RetainsBut.trans (Action.Relates.pure .refl none) last

theorem deriveScalar_retains (number : ExprId) : Action.Relates Retains (deriveScalar number) := by
  intro before result after done
  obtain ⟨⟨expr, sheet⟩, _, done⟩ := Action.lift_bind_eq_ok_iff.1 (Action.get_bind_eq_ok_iff.1 done)
  dsimp only at done
  by_cases complete : (before.facts.scalar sheet).isComplete = true
  · rw [if_pos complete] at done
    exact Action.Relates.pure RetainsBut.refl _ _ _ _ done
  · rw [if_neg complete] at done
    suffices relates : Action.Relates (RetainsBut (· = sheet) fun _ => False) _ from
      (relates _ _ _ done).close (fun _ same => same ▸ Bool.eq_false_iff.2 complete) fun _ => False.elim
    refine Action.Relates.bind RetainsBut.trans (Action.Relates.lift_abort .refl _) fun _ => ?_
    iterate 10
      refine Action.Relates.bind RetainsBut.trans (readScalar_retains number _) fun _ => ?_
    refine Action.Relates.modify fun context =>
      ⟨fun id values other complete => ?_, fun _ _ _ same => same⟩
    rw [scalar_completeScalar, if_neg other]
    exact complete

theorem deriveRelational_retains (id : GroupId) : Action.Relates Retains (deriveRelational id) := by
  intro before result after done
  obtain ⟨sheet, named, done⟩ := Action.lift_bind_eq_ok_iff.1 (Action.get_bind_eq_ok_iff.1 done)
  obtain ⟨_, rfl⟩ := relationalSheet_ok_iff.1 named
  by_cases complete : (before.facts.relational id).isComplete = true
  · rw [if_pos complete] at done
    exact Action.Relates.pure RetainsBut.refl _ _ _ _ done
  · rw [if_neg complete] at done
    suffices relates : Action.Relates (RetainsBut (fun _ => False) (· = id)) _ from
      (relates _ _ _ done).close (fun _ => False.elim) fun _ same => same ▸ Bool.eq_false_iff.2 complete
    refine Action.Relates.bind RetainsBut.trans (Action.Relates.lift_abort .refl _) fun _ => ?_
    iterate 6
      refine Action.Relates.bind RetainsBut.trans (readRelational_retains id _) fun _ => ?_
    refine Action.Relates.modify fun context =>
      ⟨fun _ _ _ same => same, fun group values other complete => ?_⟩
    rw [relational_completeRelational, if_neg other]
    exact complete

theorem deriveGroup_retains (id : GroupId) : Action.Relates Retains (deriveGroup id) := by
  refine Action.Relates.bind RetainsBut.trans (Action.Relates.get .refl) fun context => ?_
  refine Action.Relates.bind RetainsBut.trans (Action.Relates.lift_abort .refl _) fun _ => ?_
  refine Action.Relates.bind RetainsBut.trans (Action.Relates.lift .refl _) fun group => ?_
  by_cases scalar : group.isScalar = true
  · rw [if_pos scalar]
    refine Action.Relates.bind RetainsBut.trans (Action.Relates.lift .refl _) fun first => ?_
    exact deriveScalar_retains first
  · rw [if_neg scalar]
    by_cases none : (context.memo.logicalMembers group).isEmpty = true
    · rw [if_pos none]
      exact Action.Relates.pure .refl _
    · rw [if_neg none]
      exact deriveRelational_retains id

/-- **Deriving properties leaves complete groups as they are.** -/
theorem deriveAll_retains : Action.Relates Retains deriveAll := by
  refine Action.Relates.bind RetainsBut.trans (Action.Relates.get .refl) fun context => ?_
  exact Action.Relates.forM .refl RetainsBut.trans fun id _ => deriveGroup_retains id

/-! ### Growth -/

/-- **What a context becomes**: its memo grows, and its catalog and its complete groups stay as they
are. -/
structure Extends (first later : Context) : Prop where
  valid : later.memo.Valid
  grows : first.memo.Grows later.memo
  catalog : later.catalog = first.catalog
  retains : first.Retains later

theorem Extends.refl (valid : first.memo.Valid) : first.Extends first :=
  ⟨valid, .refl _, rfl, .refl _⟩

theorem Extends.trans {middle : Context} (one : first.Extends middle) (two : middle.Extends later) :
    first.Extends later :=
  ⟨two.valid, one.grows.trans two.grows, two.catalog.trans one.catalog,
    one.retains.trans _ _ _ two.retains⟩

/-- Where the memo grows, what is known of it stays. -/
theorem Extends.of_facts (valid : later.memo.Valid) (grows : first.memo.Grows later.memo)
    (catalog : later.catalog = first.catalog) (facts : later.facts = first.facts) :
    first.Extends later :=
  ⟨valid, grows, catalog, fun _ _ _ complete => facts ▸ complete, fun _ _ _ complete => facts ▸ complete⟩

/-- Deriving properties extends a context. -/
theorem Extends.derive (extending : first.Extends before) {outcome : Except Abort PUnit}
    (done : deriveAll before = .ok (outcome, after)) : first.Extends after := by
  have same := deriveAll_sameMemo _ _ _ done
  exact ⟨same.memo ▸ extending.valid, same.memo ▸ extending.grows,
    same.catalog.trans extending.catalog,
    extending.retains.trans _ _ _ (deriveAll_retains _ _ _ done)⟩

/-- A complete scalar group stays as it is. -/
theorem Extends.scalar (extending : first.Extends later) {values : ScalarProperties}
    (complete : first.scalar id = .complete values) : later.scalar id = .complete values := by
  have known : (first.scalar id).get? .hasSubquery = some (values .hasSubquery) := by
    rw [complete]
    rfl
  obtain ⟨sheet, own, _⟩ := exists_sheet known
  rw [scalar_eq own] at complete
  rw [scalar_eq (extending.grows.sheet? own)]
  exact extending.retains.scalar sheet values not_false complete

/-- What is read of a scalar group stays. -/
theorem Extends.scalarProperties (extending : first.Extends later) {values : ScalarProperties}
    (read : first.scalarProperties id = .ok values) : later.scalarProperties id = .ok values := by
  obtain ⟨family, complete⟩ := scalarProperties_cases read
  exact scalarProperties_ok (Memo.Scalar.mono family extending.grows) (extending.scalar complete)

/-- What is read of a relational group stays. -/
theorem Extends.relationalProperties (extending : first.Extends later) {values : RelationalProperties}
    (read : first.relationalProperties id = .ok values) :
    later.relationalProperties id = .ok values := by
  obtain ⟨family, complete⟩ := relationalProperties_cases read
  exact relationalProperties_ok (Memo.Relational.mono family extending.grows)
    (extending.retains.relational id values not_false complete)

end Cascades.Context
