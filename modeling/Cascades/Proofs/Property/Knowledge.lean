/-
**What derived properties say.**

A property that is derived from true properties of the child groups is true of the group, if the rule
for each property is right. So all that is known of relational groups is true, after any derivations
and while the memo grows. Where a rule is right for some properties of the children only, it helps to
know how they end: a group that is complete stays as it is.

* `Knows`: every known property of a relational group is true;
* `Settled`: groups that are complete already have their last properties;
* `Teaches`: the rules for the properties are right;
* `deriveAll_knows`: deriving properties keeps knowledge true, also where it is aborted;
* `Search.Reached.knows`: so does a run.
-/

import Cascades.Proofs.Search.Invariant

namespace Cascades

variable {V : Type} {I : Interpretation V}

/-- What the values of properties say of the groups of a memo. -/
abbrev Knowledge := Memo → GroupId → (property : RelationalProperty) → property.Value → Prop

namespace Context

variable {claims : Knowledge} {context : Context} {memo : Memo}

/-- What is known of relational groups is true. -/
def Knows (claims : Knowledge) (context : Context) : Prop :=
  ∀ (id : GroupId) (property : RelationalProperty) (value : property.Value),
    (context.facts.relational id).get? property = some value →
      claims context.memo id property value

/-- Groups that are complete already are so in some later facts. -/
def Settled (last : Facts) (context : Context) : Prop :=
  ∀ (id : GroupId) (values : RelationalProperties),
    context.facts.relational id = .complete values → last.relational id = .complete values

/-- Where the knowledge is true, so is what is derived from it. The bound on the number of rows is
derived with the constraint at hand. -/
def Teaches (I : Interpretation V) (claims : Knowledge) (last : Facts) (memo : Memo) : Prop :=
  ∀ (context : Context) (id : GroupId) (known : Option Constraint) (property : RelationalProperty)
    (value : property.Value), context.memo = memo → context.Coherent I → id < memo.groups.size →
      context.Settled last → context.Knows claims →
      (∀ constraint, known = some constraint → claims memo id .constraint (some constraint)) →
      property.derive context id known = .ok value → claims memo id property value

/-! ### More properties -/

/-- Nothing is known at first. -/
theorem knows_of_blank {catalog : Catalog} {guard : Guard} :
    ({ memo, catalog, guard } : Context).Knows claims := by
  intro id property value known
  simp [Facts.relational] at known

theorem Knows.relationalProperties (knows : context.Knows claims) {id : GroupId}
    {values : RelationalProperties} (read : context.relationalProperties id = .ok values)
    (property : RelationalProperty) : claims context.memo id property (values property) :=
  knows id property _ (known_of_relationalProperties read property)

theorem Knows.noteRelational (knows : context.Knows claims) {group : GroupId}
    {property : RelationalProperty} {value : property.Value}
    (unknown : (context.facts.relational group).get? property = none)
    (holds : claims context.memo group property value) :
    (context.noteRelational group property value).Knows claims := by
  intro id other found known
  rw [relational_noteRelational] at known
  by_cases same : id = group
  · subst same
    rw [if_pos rfl] at known
    by_cases again : other = property
    · subst again
      rw [Sheet.get?_put unknown] at known
      cases known
      exact holds
    · rw [Sheet.get?_put_ne again] at known
      exact knows id other found known
  · rw [if_neg same] at known
    exact knows id other found known

/-- A sheet that is completed with true values. -/
theorem Knows.completeRelational (knows : context.Knows claims) {group : GroupId}
    {values : RelationalProperties}
    (each : ∀ property, claims context.memo group property (values property)) :
    (context.completeRelational group values).Knows claims := by
  intro id other found known
  rw [relational_completeRelational] at known
  by_cases same : id = group
  · subst same
    rw [if_pos rfl] at known
    cases known
    exact each other
  · rw [if_neg same] at known
    exact knows id other found known

/-! ### Complete groups -/

/-- The same relational groups are complete in two contexts, with the same properties. -/
def SameComplete (before after : Context) : Prop :=
  ∀ (id : GroupId) (values : RelationalProperties),
    before.facts.relational id = .complete values ↔ after.facts.relational id = .complete values

theorem SameComplete.refl (context : Context) : context.SameComplete context := fun _ _ => Iff.rfl

theorem SameComplete.settled {before after : Context} {last : Facts}
    (same : before.SameComplete after) : before.Settled last ↔ after.Settled last :=
  forall₂_congr fun id values => imp_congr (same id values) Iff.rfl

/-- One more property completes no group. -/
theorem sameComplete_noteRelational {group : GroupId} {property : RelationalProperty}
    {value : property.Value}
    (unknown : (context.facts.relational group).get? property = none) :
    context.SameComplete (context.noteRelational group property value) := by
  intro id values
  rw [relational_noteRelational]
  by_cases same : id = group
  · subst same
    rw [if_pos rfl]
    cases draft : context.facts.relational id with
    | draft known => exact ⟨nofun, nofun⟩
    | complete others =>
      rw [draft] at unknown
      cases unknown
  · rw [if_neg same]

/-- What is settled once a group is complete was so before. -/
theorem Settled.of_completeRelational {last : Facts} {group : GroupId} {values : RelationalProperties}
    (incomplete : (context.facts.relational group).isComplete = false)
    (settled : (context.completeRelational group values).Settled last) : context.Settled last := by
  intro id others complete
  refine settled id others ?_
  rw [relational_completeRelational]
  by_cases same : id = group
  · rw [← same, complete] at incomplete
    cases incomplete
  · rw [if_neg same]
    exact complete

/-! ### Scalar groups -/

/-- Two contexts know the same of relational groups. -/
def SameRelations (before after : Context) : Prop :=
  after.facts.relationalSheets = before.facts.relationalSheets

theorem SameRelations.refl (context : Context) : context.SameRelations context := rfl

theorem SameRelations.trans (one two three : Context) (first : one.SameRelations two)
    (second : two.SameRelations three) : one.SameRelations three :=
  Eq.trans second first

theorem readScalar_sameRelations (id : ExprId) (property : ScalarProperty) :
    Action.Relates SameRelations (readScalar id property) := by
  intro before result after done
  obtain ⟨_, _, _, _, _, ⟨_, rfl⟩ | ⟨_, _, rfl⟩⟩ := readScalar_cases done
  · rfl
  · rfl

theorem deriveScalar_sameRelations (id : ExprId) :
    Action.Relates SameRelations (deriveScalar id) := by
  have read := fun property => readScalar_sameRelations id property
  have bind : ∀ {α β : Type} {first : Action Context α} {next : α → Action Context β},
      Action.Relates SameRelations first → (∀ value, Action.Relates SameRelations (next value)) →
        Action.Relates SameRelations (first >>= next) :=
    Action.Relates.bind SameRelations.trans
  refine bind (Action.Relates.get SameRelations.refl) fun context => ?_
  refine bind (Action.Relates.lift SameRelations.refl _) fun named => ?_
  obtain ⟨expr, sheet⟩ := named
  dsimp only
  split
  · exact Action.Relates.pure SameRelations.refl _
  · refine bind (Action.Relates.lift_abort SameRelations.refl _) fun _ => ?_
    iterate 10
      refine bind (read _) fun _ => ?_
    exact Action.Relates.modify fun _ => rfl

/-! ### Relational groups -/

/-- A coherent context with a given memo, in which all that is known is true if it is settled. -/
structure Learned (I : Interpretation V) (claims : Knowledge) (last : Facts) (memo : Memo)
    (context : Context) : Prop where
  steady : Steady I memo context
  knows : context.Settled last → context.Knows claims

/-- A context that has learned without completing a group. -/
structure Learning (I : Interpretation V) (claims : Knowledge) (last : Facts) (memo : Memo)
    (start context : Context) : Prop extends Learned I claims last memo context where
  same : start.SameComplete context

variable {last : Facts}

/-- What an action does to a context without touching relational groups. -/
theorem Learned.of_sameRelations {α : Type} {action : Action Context α} {gives : α → Prop}
    (ensures : Action.Ensures (Steady I memo) action gives)
    (same : Action.Relates SameRelations action) :
    Action.Ensures (Learned I claims last memo) action gives := by
  rintro before result after ⟨steady, knows⟩ done
  obtain ⟨later, given⟩ := ensures before result after steady done
  have relations : ∀ id, after.facts.relational id = before.facts.relational id := by
    intro id
    unfold Facts.relational
    rw [show after.facts.relationalSheets = _ from same before result after done]
  refine ⟨⟨later, fun settled id property value known => ?_⟩, given⟩
  have early : before.Settled last := fun group values complete =>
    settled group values ((relations group).trans complete)
  rw [relations] at known
  rw [later.2, ← steady.2]
  exact knows early id property value known

variable (teaches : Teaches I claims last memo)
include teaches

section Reading

variable {start : Context} {id : GroupId} (inside : id < memo.groups.size)
include inside

theorem readRelationalWith_learns {known : Option Constraint}
    (certain : start.Settled last → ∀ constraint, known = some constraint →
      claims memo id .constraint (some constraint)) (property : RelationalProperty) :
    Action.Ensures (Learning I claims last memo start) (readRelationalWith id known property)
      fun value => property.Agrees (memo.sense I id).scope value ∧
        (start.Settled last → claims memo id property value) := by
  rintro before result after ⟨⟨steady, knows⟩, same⟩ done
  obtain ⟨later, agrees⟩ :=
    readRelationalWith_ensures inside known property before result after steady done
  obtain ⟨coherent, rfl⟩ := steady
  rcases readRelationalWith_cases done with
    ⟨value, rfl, found, rfl⟩ | ⟨value, rfl, unknown, derived, rfl⟩ | ⟨abort, rfl, _, _, rfl⟩
  · refine ⟨⟨⟨later, knows⟩, same⟩, fun other equal => ⟨agrees other equal, fun settled => ?_⟩⟩
    cases equal
    exact knows (same.settled.1 settled) id property value found
  · have holds : start.Settled last → claims before.memo id property value := fun settled =>
      teaches before id known property value rfl coherent inside (same.settled.1 settled)
        (knows (same.settled.1 settled)) (certain settled) derived
    have kept : start.SameComplete (before.noteRelational id property value) := fun group values =>
      (same group values).trans (sameComplete_noteRelational unknown group values)
    refine ⟨⟨⟨later, fun settled => ?_⟩, kept⟩, fun other equal => ⟨agrees other equal, ?_⟩⟩
    · have early := kept.settled.2 settled
      exact (knows (same.settled.1 early)).noteRelational unknown (holds early)
    · cases equal
      exact holds
  · exact ⟨⟨⟨later, knows⟩, same⟩, fun other equal => nomatch equal⟩

theorem readRelational_learns (property : RelationalProperty) :
    Action.Ensures (Learning I claims last memo start) (readRelational id property) fun value =>
      property.Agrees (memo.sense I id).scope value ∧
        (start.Settled last → claims memo id property value) := by
  refine Action.Ensures.bind Action.Ensures.get fun context _ => ?_
  refine Action.Ensures.bind (Action.Ensures.lift fun _ _ => trivial) fun sheet (_ : True) => ?_
  show Action.Ensures (Learning I claims last memo start)
    (if property = .maxCardinality ∧ (sheet.get? property).isNone then
      readRelationalWith id none .constraint >>= fun known => readRelationalWith id known property
    else pure none >>= fun known => readRelationalWith id known property) _
  have nothingKnown : start.Settled last → ∀ constraint, none = some constraint →
      claims memo id .constraint (some constraint) := fun _ => nofun
  split
  · refine Action.Ensures.bind (readRelationalWith_learns teaches inside nothingKnown .constraint)
      fun known certain => readRelationalWith_learns teaches inside ?_ property
    rintro settled constraint rfl
    exact certain.2 settled
  · have nothing : Action.Ensures (Learning I claims last memo start)
        (pure none : Action Context (Option Constraint)) (· = none) := Action.Ensures.pure rfl
    refine Action.Ensures.bind nothing fun known none => ?_
    subst none
    exact readRelationalWith_learns teaches inside nothingKnown property

end Reading

theorem deriveRelational_learns (id : GroupId) :
    Action.Ensures (Learned I claims last memo) (deriveRelational id) fun _ => True := by
  intro start result after learned done
  have weaker : ∀ context, Learning I claims last memo start context →
      Learned I claims last memo context := fun _ learning => learning.toLearned
  -- Until all properties are read no group is completed, so what is settled then was so at the start.
  suffices brings : Action.Brings (Learning I claims last memo start) (Learned I claims last memo)
      (deriveRelational id) from
    ⟨brings start result after ⟨learned, SameComplete.refl start⟩ done, fun _ _ => trivial⟩
  refine Action.Ensures.get.brings weaker fun context learning => ?_
  obtain ⟨⟨⟨_, rfl⟩, _⟩, same⟩ := learning
  refine Action.Ensures.brings (Action.Ensures.lift fun _ named => named) weaker fun sheet named => ?_
  obtain ⟨⟨group, there, _⟩, rfl⟩ := relationalSheet_ok_iff.1 named
  have inside := Memo.lt_of_group there
  by_cases complete : (context.facts.relational id).isComplete = true
  · rw [if_pos complete]
    exact Action.Brings.pure weaker
  · rw [if_neg complete]
    refine Action.Ensures.brings Action.Ensures.lift_abort weaker fun _ _ => ?_
    have read : ∀ property, Action.Ensures (Learning I claims last context.memo start)
        (readRelational id property) _ := readRelational_learns teaches inside
    refine (read _).brings weaker fun _ output => ?_
    refine (read _).brings weaker fun _ outer => ?_
    refine (read _).brings weaker fun _ constraint => ?_
    refine (read _).brings weaker fun _ cardinality => ?_
    refine (read _).brings weaker fun _ depth => ?_
    refine (read _).brings weaker fun _ partitions => ?_
    refine Action.Brings.modify fun final learning => ?_
    obtain ⟨⟨⟨coherent, unchanged⟩, knows⟩, kept⟩ := learning
    have incomplete : (final.facts.relational id).isComplete = false := by
      cases found : final.facts.relational id with
      | draft known => rfl
      | complete values =>
        rw [(same id values).1 ((kept id values).2 found)] at complete
        exact absurd rfl complete
    refine ⟨⟨coherent.completeRelational (unchanged ▸ inside) fun property => ?_, unchanged⟩,
      fun settled => ?_⟩
    · rw [unchanged]
      cases property with
      | outputColumns => exact output.1
      | outerReferences => exact outer.1
      | _ => trivial
    · have before := settled.of_completeRelational incomplete
      have first := kept.settled.2 before
      refine (knows before).completeRelational fun property => ?_
      rw [unchanged]
      cases property with
      | outputColumns => exact output.2 first
      | outerReferences => exact outer.2 first
      | constraint => exact constraint.2 first
      | maxCardinality => exact cardinality.2 first
      | joinDepth => exact depth.2 first
      | partitions => exact partitions.2 first

/-! ### All groups -/

theorem deriveGroup_learns (id : GroupId) :
    Action.Ensures (Learned I claims last memo) (deriveGroup id) fun _ => True := by
  refine Action.Ensures.bind Action.Ensures.get fun context _ => ?_
  refine Action.Ensures.bind Action.Ensures.lift_abort fun _ _ => ?_
  refine Action.Ensures.bind (Action.Ensures.lift fun _ _ => trivial) fun group (_ : True) => ?_
  by_cases scalar : group.isScalar = true
  · rw [if_pos scalar]
    refine Action.Ensures.bind (Action.Ensures.lift fun _ _ => trivial) fun first (_ : True) => ?_
    exact Learned.of_sameRelations (deriveScalar_ensures first) (deriveScalar_sameRelations first)
  · rw [if_neg scalar]
    by_cases none : (context.memo.logicalMembers group).isEmpty = true
    · rw [if_pos none]
      exact Action.Ensures.pure trivial
    · rw [if_neg none]
      exact deriveRelational_learns teaches id

/-- **Deriving properties keeps knowledge true**, whatever it ends with. -/
theorem deriveAll_knows {after : Context} {outcome : Except Abort PUnit} (same : context.memo = memo)
    (coherent : context.Coherent I) (knows : context.Settled last → context.Knows claims)
    (done : deriveAll context = .ok (outcome, after)) (settled : after.Settled last) :
    after.Knows claims := by
  have all : Action.Ensures (Learned I claims last memo) deriveAll fun _ => True := by
    refine Action.Ensures.bind Action.Ensures.get fun start _ => ?_
    exact Action.Ensures.forM fun id _ => deriveGroup_learns teaches id
  exact (all context outcome after ⟨⟨coherent, same⟩, knows⟩ done).1.knows settled

/-- **A property that is read** is true of its group. -/
theorem readRelational_knows {after : Context} {id : GroupId} {property : RelationalProperty}
    {value : property.Value} (same : context.memo = memo) (coherent : context.Coherent I)
    (settled : context.Settled last) (knows : context.Knows claims)
    (done : readRelational id property context = .ok (.ok value, after)) :
    claims memo id property value := by
  have inside : id < memo.groups.size := by
    rcases Action.bind_eq_ok_iff.1 done with ⟨_, _, started, next⟩ | ⟨_, _, stopped⟩
    · cases started
      rcases Action.bind_eq_ok_iff.1 next with ⟨_, _, named, _⟩ | ⟨_, _, stopped⟩
      · obtain ⟨_, found, _⟩ := Action.lift_eq_ok_iff.1 named
        obtain ⟨⟨group, there, _⟩, _⟩ := relationalSheet_ok_iff.1 found
        exact same ▸ Memo.lt_of_group there
      · cases stopped
    · cases stopped
  have learning : Learning I claims last memo context context :=
    ⟨⟨⟨coherent, same⟩, fun _ => knows⟩, SameComplete.refl context⟩
  exact ((readRelational_learns teaches inside property context _ after learning done).2 value
    rfl).2 settled

end Context

/-! ### Runs -/

namespace Search

variable {claims : Knowledge} {start final : Search}

/-- **A run keeps knowledge true.** What the rules for the properties need of the memo holds of every
memo of a run if it holds of the last one, and what is known of a group stays true while the memo
grows. The rules may count on how the groups are completed in the end. -/
theorem Reached.knows (reached : start.Reached final) (coherent : start.context.Coherent I)
    (faithful : ∀ rule ∈ start.rules, rule.Faithful I) (first : start.context.Knows claims)
    {needs : Memo → Prop} (last : needs final.context.memo)
    (earlier : ∀ {memo next : Memo}, memo.Valid → next.Valid → memo.Grows next → needs next →
      needs memo)
    (later : ∀ {memo next : Memo} {id : GroupId} {property : RelationalProperty}
      {value : property.Value}, memo.Valid → next.Valid → memo.Grows next →
        id < memo.groups.size → claims memo id property value → claims next id property value)
    (teaches : ∀ memo, needs memo → Context.Teaches I claims final.context.facts memo) :
    final.context.Knows claims := by
  have maintains : Maintains I start.rules fun context =>
      needs context.memo → context.Settled final.context.facts → context.Knows claims := by
    refine ⟨?_, ?_, fun _ holds => holds⟩
    · intro context after outcome coherent holds done needed settled
      rw [(Context.deriveAll_coherent coherent done).2] at needed
      exact Context.deriveAll_knows (teaches _ needed) rfl coherent (holds needed) done settled
    · intro early context rule id expr proposals count memo _ _ _ _ _ coherent holds _ inserted after
        needed settled group property value known
      have valid := coherent.sound.toValid
      obtain ⟨next, grows⟩ := (Memo.mark_keeps.trans (Memo.insertProposals_keeps inserted)) valid
      have inside := (coherent.relational known).1
      exact later valid next grows inside
        (holds (earlier valid next grows needed) settled group property value known)
  exact (reached.maintains maintains coherent (fun _ _ => first) faithful).invariant last
    fun _ _ complete => complete

end Search

end Cascades
