/-
**Properties that are derived from scratch.**

From scratch, nothing is known of a memo, and all properties of one group after another are derived
under a guard that refuses nothing. Where nothing is out of date, in whatever order and under whatever
guards it came to be known, groups that are complete are so from scratch, with the same properties. And
what can be derived once the groups below are complete can be derived from scratch as well.

* `FreshBy`, `Fresh`: contexts in which nothing is out of date; `scratch`: one that is derived from
  scratch;
* `ReadyScalar`, `ReadyRelational`: groups of which all properties can be derived;
* `Fresh.repeats_scratch`: complete groups are so from scratch;
* `scratch_scalarProperties`, `scratch_relationalProperties`: a group of which all properties can be
  derived from scratch is complete there.
-/

import Cascades.Proofs.Property.Completion
import Cascades.Proofs.Property.Routine

namespace Cascades.Context

variable {through : Expr → ScalarProperty → Prop} {context before after : Context} {id : GroupId}
  {number : ExprId} {expr : Expr} {sheet : SheetId} {log : List Derivation}

/-! ### Contexts in which nothing is out of date -/

/-- A valid memo whose relational groups begin with logical members, and nothing that is known of it
is out of date. -/
structure FreshBy (through : Expr → ScalarProperty → Prop) (context : Context) : Prop where
  valid : context.memo.Valid
  headed : context.memo.LogicalFirst
  current : context.CurrentBy through

/-- Nothing is out of date, and all that is known of scalar groups came through first members. -/
abbrev Fresh : Context → Prop := FreshBy IsFirst

theorem FreshBy.derive (fresh : before.FreshBy through) (derives : DerivesBy through before log after) :
    after.FreshBy through where
  valid := derives.sameMemo.memo ▸ fresh.valid
  headed := derives.sameMemo.memo ▸ fresh.headed
  current := fresh.current.derive fresh.valid fresh.headed derives

/-- Where the memo grows and the guard changes, nothing gets out of date. -/
theorem FreshBy.grow (fresh : before.FreshBy through) (extending : before.Extends after)
    (same : after.facts = before.facts) (headed : after.memo.LogicalFirst) : after.FreshBy through :=
  ⟨extending.valid, headed, fresh.current.grow fresh.valid fresh.headed extending same⟩

theorem FreshBy.ample (fresh : context.FreshBy through) : context.ample.FreshBy through :=
  fresh.grow (Extends.refl fresh.valid).to_ample rfl fresh.headed

/-- What single derivations leave reads what was read before. -/
theorem DerivesBy.repeats (derives : DerivesBy through before log after) (valid : before.memo.Valid) :
    before.Repeats after fun _ => True :=
  (derives.extends valid).repeats (derives.sameMemo.guard ▸ .refl _ _) _

/-! ### Scalar groups -/

/-- All properties of a scalar group can be derived through an expression of it, with some values. -/
structure ReadyScalar (through : Expr → ScalarProperty → Prop) (number : ExprId) (expr : Expr)
    (sheet : SheetId) (values : ScalarProperties) (context : Context) : Prop where
  valid : context.memo.Valid
  named : context.scalarExpr number = .ok (expr, sheet)
  fits : ∀ property, through expr property
  derived : ∀ property : ScalarProperty, property.derive context expr = .ok (values property)

namespace ReadyScalar

variable {values : ScalarProperties} (ready : ReadyScalar through number expr sheet values context)
include ready

theorem derive (derives : DerivesBy through context log after) :
    ReadyScalar through number expr sheet values after where
  valid := derives.sameMemo.memo ▸ ready.valid
  named := (scalarExpr_eq derives.sameMemo.memo number).trans ready.named
  fits := ready.fits
  derived property := property.derive_repeated (derives.repeats ready.valid) ready.valid
    (scalarExpr_ok_iff.1 ready.named).1 (fun _ _ => trivial) _ (ready.derived property)

theorem readScalar (property : ScalarProperty) :
    Action.Gives (readScalar number property) context := by
  refine .get (.lift ready.named ?_)
  dsimp only
  cases known : (context.facts.scalar sheet).get? property with
  | some value => exact ⟨value, context, rfl⟩
  | none =>
    refine .bind rfl (.lift (ready.derived property) ?_)
    exact ⟨_, _, rfl⟩

/-- One reading after another. -/
theorem bind_readScalar {property : ScalarProperty} {next : property.Value → Action Context Unit}
    (each : ∀ value after, ReadyScalar through number expr sheet values after →
      Action.Gives (next value) after) :
    Action.Gives (Context.readScalar number property >>= next) context := by
  obtain ⟨value, middle, one⟩ := ready.readScalar property
  obtain ⟨_, log, ⟨⟩, fills, _⟩ := readScalar_fills ready.named (ready.fits property) one
  exact .bind one (each value middle (ready.derive fills.derives))

/-- **All properties are derived** if the guard lets it pass. -/
theorem deriveScalar (passes : context.guard.check 0 = .ok ()) :
    ∃ after, Context.deriveScalar number context = .ok (.ok (), after) ∧
      (after.facts.scalar sheet).isComplete = true := by
  have gives : Action.Gives (Context.deriveScalar number) context := by
    refine .get (.lift ready.named ?_)
    dsimp only
    cases complete : (context.facts.scalar sheet).isComplete with
    | true => exact ⟨(), context, rfl⟩
    | false =>
      refine .lift_abort passes ?_
      iterate 10
        refine ReadyScalar.bind_readScalar (by assumption) fun _ _ _ => ?_
      exact ⟨(), _, rfl⟩
  obtain ⟨⟨⟩, after, done⟩ := gives
  refine ⟨after, done, ?_⟩
  rcases deriveScalar_cases ready.named ready.fits done with
    ⟨_, complete, rfl⟩ | ⟨_, same, _⟩ | ⟨_, _, _, log, middle, others, _, _, rfl⟩
  · exact complete
  · cases same
  · rw [scalar_completeScalar, if_pos rfl]
    rfl

end ReadyScalar

/-- Where all properties of a group can be derived anew, they can be through its first member. -/
theorem exists_readyScalar (valid : context.memo.Valid) (family : context.memo.Scalar id)
    {values : ScalarProperties}
    (settled : ∀ property : ScalarProperty, property.settle context id = .ok (values property)) :
    ∃ number expr sheet, expr.group = id ∧ ReadyScalar IsFirst number expr sheet values context := by
  obtain ⟨sheet, own⟩ := valid.exists_sheet family
  obtain ⟨expr, found, own⟩ := Memo.sheet?_eq_some_iff.1 own
  obtain ⟨group, number, there, place, stored⟩ := Memo.firstMember_ok_iff.1 found
  obtain ⟨again, same, named, first⟩ := valid.listed there place
  cases stored.symm.trans same
  refine ⟨number, expr, sheet, named, valid, scalarExpr_ok_iff.2 ⟨stored, own⟩, fun _ => first,
    fun property => ?_⟩
  obtain ⟨_, again, derived⟩ := bind_eq_ok_iff.1 (settled property)
  cases found.symm.trans again
  exact derived

/-- Of a first member, what is known is one of the values. -/
theorem ReadyScalar.scalar_eq {values : ScalarProperties}
    (ready : ReadyScalar IsFirst number expr sheet values context) (fresh : context.Fresh)
    (complete : (context.facts.scalar sheet).isComplete = true) :
    context.scalar expr.group = .complete values := by
  obtain ⟨stored, own, _⟩ := scalarExpr_cases fresh.valid.toLinked ready.named
  have first := fresh.valid.firstMember_of_position stored (ready.fits .hasSubquery)
  obtain ⟨others, sheet⟩ := Sheet.exists_of_isComplete complete
  rw [Context.scalar_eq own, sheet]
  refine congrArg _ (funext fun property => ?_)
  have known : (context.scalar expr.group).get? property = some (others property) := by
    rw [Context.scalar_eq own, sheet]
    rfl
  have settled : property.settle context.ample expr.group = .ok (values property) :=
    bind_eq_ok_iff.2 ⟨expr, first, property.derive_repeated (Extends.refl fresh.valid).ample
      fresh.valid stored (fun _ _ => trivial) _ (ready.derived property)⟩
  exact Except.ok.inj ((fresh.current.settle fresh.valid.toLinked known).2.symm.trans settled)

/-! ### Relational groups -/

/-- All properties of a relational group can be derived, with some values. -/
structure ReadyRelational (through : Expr → ScalarProperty → Prop) (id : GroupId)
    (values : RelationalProperties) (context : Context) : Prop extends context.FreshBy through where
  family : context.memo.Relational id
  settled : ∀ property : RelationalProperty, property.settle context id = .ok (values property)

namespace ReadyRelational

variable {values : RelationalProperties} (ready : ReadyRelational through id values context)
include ready

theorem derive (derives : DerivesBy through context log after) : ReadyRelational through id values after where
  toFreshBy := ready.toFreshBy.derive derives
  family := derives.sameMemo.memo ▸ ready.family
  settled property := property.settle_repeated (derives.repeats ready.valid) ready.valid
    (fun _ _ => trivial) ready.headed ready.family _ (ready.settled property)

/-- What is known is one of the values. -/
theorem known {property : RelationalProperty} {value : property.Value}
    (known : (context.facts.relational id).get? property = some value) : value = values property := by
  have again := property.settle_repeated (Extends.refl ready.valid).ample ready.valid
    (fun _ _ => trivial) ready.headed ready.family _ (ready.settled property)
  exact Except.ok.inj ((ready.current.relational known).2.symm.trans again)

/-- A property that is derived with the constraint where it matters. -/
theorem derived {property : RelationalProperty} {known : Option Constraint}
    (constraint : property = .maxCardinality → known = values .constraint) :
    property.derive context id known = .ok (values property) := by
  have settled := ready.settled property
  have first : RelationalProperty.derive context id none .constraint = .ok (values .constraint) :=
    ready.settled .constraint
  unfold RelationalProperty.settle at settled
  split at settled
  · rename_i bound
    rw [constraint bound]
    obtain ⟨found, again, settled⟩ := bind_eq_ok_iff.1 settled
    obtain rfl := Except.ok.inj (first.symm.trans again)
    exact settled
  · rename_i unneeded
    exact (RelationalProperty.derive_known unneeded).trans settled

theorem readRelationalWith {property : RelationalProperty} {known : Option Constraint}
    (constraint : property = .maxCardinality → (context.facts.relational id).get? property = none →
      known = values .constraint) :
    Action.Gives (readRelationalWith id known property) context := by
  refine .get (.lift (relationalSheet_ok_iff.2 ⟨ready.family, rfl⟩) ?_)
  cases sheet : (context.facts.relational id).get? property with
  | some value => exact ⟨value, context, rfl⟩
  | none =>
    have found := ready.derived fun bound => constraint bound sheet
    dsimp only
    split
    · exact .lift_failure found (.bind rfl ⟨_, _, rfl⟩)
    · exact .bind rfl (.lift_failure found ⟨_, _, rfl⟩)

theorem readRelational (property : RelationalProperty) :
    Action.Gives (readRelational id property) context := by
  refine .get (.lift (relationalSheet_ok_iff.2 ⟨ready.family, rfl⟩) ?_)
  by_cases unread : property = .maxCardinality ∧
      ((context.facts.relational id).get? property).isNone = true
  · obtain ⟨rfl, unknown⟩ := unread
    rw [if_pos ⟨rfl, unknown⟩]
    obtain ⟨known, middle, one⟩ :
        Action.Gives (Context.readRelationalWith id none .constraint) context :=
      ready.readRelationalWith nofun
    obtain ⟨log, reads⟩ : ∃ log, Reads through id .constraint context (.ok known) log middle :=
      readRelationalWith_reads (fun same => by cases same) ready.family one
    have later := ready.derive reads.fills.derives
    exact .bind one (later.readRelationalWith fun _ _ => later.known (reads.known known rfl))
  · rw [if_neg unread]
    refine .bind rfl (ready.readRelationalWith fun bound unknown => absurd ⟨bound, ?_⟩ unread)
    rw [unknown]
    rfl

/-- One reading after another. -/
theorem bind_readRelational {property : RelationalProperty}
    {next : property.Value → Action Context Unit}
    (each : ∀ value after, ReadyRelational through id values after → Action.Gives (next value) after) :
    Action.Gives (Context.readRelational id property >>= next) context := by
  obtain ⟨value, middle, one⟩ := ready.readRelational property
  obtain ⟨_, log, reads⟩ := readRelational_reads through one
  exact .bind one (each value middle (ready.derive reads.fills.derives))

/-- **All properties are derived** if the guard lets it pass. -/
theorem deriveRelational (passes : context.guard.check 0 = .ok ()) :
    ∃ after, Context.deriveRelational id context = .ok (.ok (), after) ∧
      after.facts.relational id = .complete values := by
  have gives : Action.Gives (Context.deriveRelational id) context := by
    refine .get (.lift (relationalSheet_ok_iff.2 ⟨ready.family, rfl⟩) ?_)
    cases complete : (context.facts.relational id).isComplete with
    | true => exact ⟨(), context, rfl⟩
    | false =>
      refine .lift_abort passes ?_
      iterate 6
        refine ReadyRelational.bind_readRelational (by assumption) fun _ _ _ => ?_
      exact ⟨(), _, rfl⟩
  obtain ⟨⟨⟩, after, done⟩ := gives
  refine ⟨after, done, ?_⟩
  rcases (deriveRelational_cases through done).2 with
    ⟨_, complete, rfl⟩ | ⟨_, same, _⟩ | ⟨_, _, _, log, middle, others, fills, each, rfl⟩ | ⟨_, _, same, _⟩
  · obtain ⟨others, sheet⟩ := Sheet.exists_of_isComplete complete
    rw [sheet]
    exact congrArg _ (funext fun property => ready.known (by rw [sheet]; rfl))
  · cases same
  · rw [relational_completeRelational, if_pos rfl]
    exact congrArg _ (funext fun property => (ready.derive fills.derives).known (each property))
  · cases same

end ReadyRelational

/-! ### From scratch -/

/-- The context after all properties of a group are derived, if they can be. -/
def advance (context : Context) (id : GroupId) : Context :=
  match deriveGroup id context with
  | .ok (_, after) => after
  | .error _ => context

/-- The properties of the groups below a number, derived from scratch. -/
def scratchBelow (memo : Memo) (catalog : Catalog) (count : Nat) : Context :=
  (List.range count).foldl advance { memo, catalog, guard := .ample memo.groups.size }

/-- **All properties of all groups, derived from scratch** under a guard that refuses nothing. -/
def scratch (memo : Memo) (catalog : Catalog) : Context :=
  scratchBelow memo catalog memo.groups.size

theorem scratchBelow_succ {memo : Memo} {catalog : Catalog} {count : Nat} :
    scratchBelow memo catalog (count + 1) = (scratchBelow memo catalog count).advance count := by
  unfold scratchBelow
  rw [List.range_succ, List.foldl_append]
  rfl

theorem advance_derives (valid : context.memo.Valid) (id : GroupId) :
    ∃ log, Derives context log (context.advance id) := by
  unfold advance
  split
  · rename_i done
    exact deriveGroup_derives valid done
  · exact ⟨[], .none⟩

theorem advance_scalar (fresh : context.Fresh) (family : context.memo.Scalar id)
    {values : ScalarProperties}
    (settled : ∀ property : ScalarProperty, property.settle context id = .ok (values property))
    (passes : context.guard.check 0 = .ok ()) :
    (context.advance id).scalar id = .complete values := by
  obtain ⟨number, expr, sheet, rfl, ready⟩ := exists_readyScalar fresh.valid family settled
  obtain ⟨after, done, complete⟩ := ready.deriveScalar passes
  obtain ⟨log, derives⟩ := deriveScalar_derives ready.named ready.fits done
  obtain ⟨group, there, place⟩ := fresh.valid.placed (scalarExpr_ok_iff.1 ready.named).1
  obtain ⟨_, again, scalar⟩ := family
  obtain rfl := Option.some.inj (there.symm.trans again)
  have first : expr.position = 0 := ready.fits .hasSubquery
  have whole : deriveGroup expr.group context = .ok (.ok (), after) := by
    refine Action.get_bind_eq_ok_iff.2 (Action.bind_eq_ok_iff.2 (Or.inl ⟨(), context,
      Action.lift_abort_eq_ok_iff.2 ⟨passes.symm, rfl⟩,
      Action.lift_bind_eq_ok_iff.2 ⟨group, Memo.group_ok_iff.2 there, ?_⟩⟩))
    rw [if_pos scalar]
    exact Action.lift_bind_eq_ok_iff.2 ⟨number, Group.first_ok_iff.2 (first ▸ place), done⟩
  unfold advance
  rw [whole]
  exact (ready.derive derives).scalar_eq (fresh.derive derives) complete

theorem advance_relational {values : RelationalProperties}
    (ready : ReadyRelational through id values context)
    (passes : context.guard.check 0 = .ok ()) :
    (context.advance id).facts.relational id = .complete values := by
  obtain ⟨after, done, complete⟩ := ready.deriveRelational passes
  obtain ⟨group, there, family⟩ := ready.family
  have some : ¬ (context.memo.logicalMembers group).isEmpty = true := by
    obtain ⟨first, expr, operator, place, stored, logical⟩ := ready.headed there family
    refine List.isEmpty_iff.not.2 (List.ne_nil_of_mem (a := first) (List.mem_filter.2
      ⟨Array.mem_toList_iff.2 (Array.mem_of_getElem? place), ?_⟩))
    exact Memo.hasOperator_iff.2 ⟨expr, stored, by rw [logical]; rfl⟩
  have whole : deriveGroup id context = .ok (.ok (), after) := by
    refine Action.get_bind_eq_ok_iff.2 (Action.bind_eq_ok_iff.2 (Or.inl ⟨(), context,
      Action.lift_abort_eq_ok_iff.2 ⟨passes.symm, rfl⟩,
      Action.lift_bind_eq_ok_iff.2 ⟨group, Memo.group_ok_iff.2 there, ?_⟩⟩))
    rw [family, if_neg Bool.false_ne_true, if_neg some]
    exact done
  unfold advance
  rw [whole]
  exact complete

/-- Nothing that is derived from scratch is out of date. -/
theorem scratchBelow_fresh {memo : Memo} (valid : memo.Valid) (headed : memo.LogicalFirst)
    (catalog : Catalog) (count : Nat) :
    (scratchBelow memo catalog count).Fresh ∧
      SameMemo { memo, catalog, guard := .ample memo.groups.size } (scratchBelow memo catalog count) := by
  induction count with
  | zero => exact ⟨⟨valid, headed, current_of_blank⟩, .refl _⟩
  | succ count ih =>
    obtain ⟨fresh, same⟩ := ih
    rw [scratchBelow_succ]
    obtain ⟨log, derives⟩ := advance_derives fresh.valid count
    exact ⟨fresh.derive derives, .trans _ _ _ same derives.sameMemo⟩

section Fresh

variable (fresh : context.Fresh)
include fresh

/-- Complete groups below a number are so from scratch. -/
theorem Fresh.repeats_scratchBelow (count : Nat) :
    context.ample.Repeats (scratchBelow context.memo context.catalog count) (· < count) := by
  induction count with
  | zero =>
    exact ⟨.refl _, rfl, .refl _ _, fun _ none => absurd none (Nat.not_lt_zero _),
      fun _ none => absurd none (Nat.not_lt_zero _)⟩
  | succ count ih =>
    obtain ⟨begun, same⟩ := scratchBelow_fresh fresh.valid fresh.headed context.catalog count
    have memo : (scratchBelow context.memo context.catalog count).memo = context.memo := same.memo
    have passes : (scratchBelow context.memo context.catalog count).guard.check 0 = .ok () := by
      rw [same.guard]
      exact Guard.check_ok_iff.2 ⟨rfl, Nat.zero_le _⟩
    obtain ⟨log, derives⟩ := advance_derives begun.valid count
    have extending := derives.extends begun.valid
    have after := derives.sameMemo
    rw [scratchBelow_succ]
    refine ⟨after.memo ▸ ih.grows, after.catalog.trans ih.catalog, after.guard ▸ ih.covers, ?_, ?_⟩
    · intro id below values read
      rcases Nat.lt_succ_iff_lt_or_eq.1 below with below | rfl
      · exact extending.scalarProperties (ih.scalar id below values read)
      have settled := fun property => (fresh.current.settle fresh.valid.toLinked
        (known_of_scalarProperties read property)).2
      have again := fun property => ScalarProperty.settle_repeated ih fresh.valid
        (fun _ below => below.lt fresh.valid.toLinked) property _ (settled property)
      have family : (scratchBelow context.memo context.catalog id).memo.Scalar id := by
        rw [memo]
        exact (scalarProperties_cases read).1
      exact scalarProperties_ok (after.memo ▸ family) (advance_scalar begun family again passes)
    · intro id below values read
      rcases Nat.lt_succ_iff_lt_or_eq.1 below with below | rfl
      · exact extending.relationalProperties (ih.relational id below values read)
      obtain ⟨family, complete⟩ := relationalProperties_cases read
      have ready : ReadyRelational IsFirst id values (scratchBelow context.memo context.catalog id) :=
        ⟨begun, by rw [memo]; exact family, fun property =>
          property.settle_repeated ih fresh.valid (fun _ below => below.lt fresh.valid.toLinked)
            fresh.headed family _ (fresh.current.relational (complete ▸ rfl)).2⟩
      exact relationalProperties_ok (after.memo ▸ ready.family) (advance_relational ready passes)

/-- **Complete groups are so from scratch**, with the same properties. -/
theorem Fresh.repeats_scratch :
    context.ample.Repeats (scratch context.memo context.catalog) fun _ => True := by
  have repeats := fresh.repeats_scratchBelow context.memo.groups.size
  refine ⟨repeats.grows, repeats.catalog, repeats.covers, fun id _ values read => ?_,
    fun id _ values read => ?_⟩
  · exact repeats.scalar id (Memo.Scalar.inside (scalarProperties_cases read).1) values read
  · exact repeats.relational id (Memo.Relational.inside (relationalProperties_cases read).1) values read

end Fresh

/-! ### What can be derived from scratch -/

section Scratch

variable {memo : Memo} {catalog : Catalog} (valid : memo.Valid) (headed : memo.LogicalFirst)
include valid headed

theorem scratch_fresh : (scratch memo catalog).Fresh :=
  (scratchBelow_fresh valid headed catalog memo.groups.size).1

theorem scratch_memo : (scratch memo catalog).memo = memo :=
  (scratchBelow_fresh valid headed catalog memo.groups.size).2.memo

theorem scratch_catalog : (scratch memo catalog).catalog = catalog :=
  (scratchBelow_fresh valid headed catalog memo.groups.size).2.catalog

theorem scratch_guard : (scratch memo catalog).guard = .ample memo.groups.size :=
  (scratchBelow_fresh valid headed catalog memo.groups.size).2.guard

/-- More groups are derived after fewer. -/
theorem scratchBelow_extends {count more : Nat} (fewer : count ≤ more) :
    (scratchBelow memo catalog count).Extends (scratchBelow memo catalog more) := by
  induction more, fewer using Nat.le_induction with
  | base => exact .refl (scratchBelow_fresh valid headed catalog count).1.valid
  | succ more _ ih =>
    obtain ⟨fresh, _⟩ := scratchBelow_fresh valid headed catalog more
    obtain ⟨log, derives⟩ := advance_derives fresh.valid more
    rw [scratchBelow_succ]
    exact ih.trans (derives.extends fresh.valid)

/-- What was complete in the end was complete once its turn had come. -/
theorem scratchBelow_repeats (count : Nat) :
    (scratch memo catalog).Repeats (scratchBelow memo catalog count) (· < count) := by
  have fresh : (scratch memo catalog).Fresh := scratch_fresh valid headed
  obtain ⟨_, below⟩ := scratchBelow_fresh valid headed catalog count
  have memo_eq : (scratch memo catalog).memo = memo := scratch_memo valid headed
  have catalog_eq : (scratch memo catalog).catalog = catalog := scratch_catalog valid headed
  have repeats := fresh.repeats_scratchBelow count
  rw [memo_eq, catalog_eq] at repeats
  refine ⟨repeats.grows, repeats.catalog, ?_, repeats.scalar, repeats.relational⟩
  rw [below.guard]
  exact Guard.ample_covers (Nat.le_of_eq (congrArg (fun memo => memo.groups.size) memo_eq))

/-- **A scalar group of which all properties can be derived from scratch** is complete there. -/
theorem scratch_scalarProperties (family : memo.Scalar id) {values : ScalarProperties}
    (settled : ∀ property : ScalarProperty,
      property.settle (scratch memo catalog) id = .ok (values property)) :
    (scratch memo catalog).scalarProperties id = .ok values := by
  have fresh : (scratch memo catalog).Fresh := scratch_fresh valid headed
  obtain ⟨begun, same⟩ := scratchBelow_fresh valid headed catalog id
  have scalar : (scratchBelow memo catalog id).memo.Scalar id := same.memo ▸ family
  have again := fun property => ScalarProperty.settle_repeated (scratchBelow_repeats valid headed id)
    fresh.valid (fun _ below => below.lt fresh.valid.toLinked) property _ (settled property)
  have passes : (scratchBelow memo catalog id).guard.check 0 = .ok () := by
    rw [same.guard]
    exact Guard.check_ok_iff.2 ⟨rfl, Nat.zero_le _⟩
  have complete := advance_scalar begun scalar again passes
  rw [← scratchBelow_succ] at complete
  obtain ⟨_, next⟩ := scratchBelow_fresh valid headed catalog (id + 1)
  exact (scratchBelow_extends valid headed family.inside).scalarProperties
    (scalarProperties_ok (next.memo ▸ family) complete)

/-- **A relational group of which all properties can be derived from scratch** is complete there. -/
theorem scratch_relationalProperties (family : memo.Relational id) {values : RelationalProperties}
    (settled : ∀ property : RelationalProperty,
      property.settle (scratch memo catalog) id = .ok (values property)) :
    (scratch memo catalog).relationalProperties id = .ok values := by
  have fresh : (scratch memo catalog).Fresh := scratch_fresh valid headed
  obtain ⟨begun, same⟩ := scratchBelow_fresh valid headed catalog id
  have relational : (scratchBelow memo catalog id).memo.Relational id := same.memo ▸ family
  have last : (scratch memo catalog).memo.Relational id := by
    rw [scratch_memo valid headed]
    exact family
  have ready : ReadyRelational IsFirst id values (scratchBelow memo catalog id) :=
    ⟨begun, relational, fun property => property.settle_repeated (scratchBelow_repeats valid headed id)
      fresh.valid (fun _ below => below.lt fresh.valid.toLinked) fresh.headed last _ (settled property)⟩
  have passes : (scratchBelow memo catalog id).guard.check 0 = .ok () := by
    rw [same.guard]
    exact Guard.check_ok_iff.2 ⟨rfl, Nat.zero_le _⟩
  have complete := advance_relational ready passes
  rw [← scratchBelow_succ] at complete
  obtain ⟨_, next⟩ := scratchBelow_fresh valid headed catalog (id + 1)
  exact (scratchBelow_extends valid headed family.inside).relationalProperties
    (relationalProperties_ok (next.memo ▸ family) complete)

end Scratch

end Cascades.Context
