/-
**Calls in any order.**

A first member stays the first member of its group, and its children are older, so what is kept is what
would be found from scratch, in whatever order the memo was changed and something was asked for.

* `Reached`: caches after calls in any order, with the calls and the derivations so far;
* `Reached.invariant`, `Reached.right`: what holds after any number of calls;
* `Invariant.scalarTally_le`, `Invariant.relationalTally_le`: how many derivations are counted;
* `Reached.never_stale`: what is kept is right, is derived once, and can always be finished.
-/

import Cascades.Proofs.Property.Calling

namespace Cascades

/-! ### How many -/

theorem Derivation.isOfScalar_iff {id : GroupId} {entry : Derivation} :
    entry.isOfScalar id = true ↔ ∃ property, scalar id property = entry := by
  cases entry with
  | scalar other property =>
    refine ⟨fun same => ⟨property, ?_⟩, ?_⟩
    · rw [beq_iff_eq.1 same]
    · rintro ⟨_, ⟨⟩⟩
      exact beq_self_eq_true id
  | relational other property => exact ⟨nofun, nofun⟩

theorem Derivation.isOfRelational_iff {id : GroupId} {entry : Derivation} :
    entry.isOfRelational id = true ↔ ∃ property, relational id property = entry := by
  cases entry with
  | relational other property =>
    refine ⟨fun same => ⟨property, ?_⟩, ?_⟩
    · rw [beq_iff_eq.1 same]
    · rintro ⟨_, ⟨⟩⟩
      exact beq_self_eq_true id
  | scalar other property => exact ⟨nofun, nofun⟩

/-- The values in a sheet are as many as the derivations for its group, if each was derived once. -/
theorem Sheet.count_eq_countP {Field : Type} {Value : Field → Type} {sheet : Sheet Value}
    {fields : List Field} (each : fields.Nodup) (all : ∀ field, field ∈ fields)
    (entry : Field → Derivation) (injective : Function.Injective entry) {own : Derivation → Bool}
    (owns : ∀ derivation, own derivation = true ↔ ∃ field, entry field = derivation)
    {log : List Derivation} (once : log.Nodup)
    (logged : ∀ field, (sheet.get? field).isSome = true ↔ entry field ∈ log) :
    sheet.count fields = log.countP own := by
  rw [Sheet.count, List.countP_eq_length_filter, List.countP_eq_length_filter,
    ← List.length_map entry]
  refine List.Perm.length_eq ((List.perm_ext_iff_of_nodup ((each.filter _).map injective)
    (once.filter _)).2 fun derivation => ?_)
  rw [List.mem_map, List.mem_filter, owns]
  constructor
  · rintro ⟨field, member, rfl⟩
    exact ⟨(logged field).1 (List.mem_filter.1 member).2, field, rfl⟩
  · rintro ⟨member, field, rfl⟩
    exact ⟨field, List.mem_filter.2 ⟨all field, (logged field).2 member⟩, rfl⟩

namespace Caches

variable {before after caches : Caches} {past log : List Derivation} {id : GroupId}

/-! ### Any number of calls -/

/-- **Caches after calls in any order**, with the calls, what each of them found, and all derivations so
far. At first nothing is known of the memo, and its relational groups begin with logical members at all
times. -/
inductive Reached : Caches → List (Call × Context) → List Derivation → Prop
  | start {requests : List Memo.Request} {memo : Memo} {catalog : Catalog} {guard : Guard} :
      Memo.empty.performAll requests = .ok memo → memo.LogicalFirst →
        Reached { context := { memo, catalog, guard } } [] []
  | call {before after : Caches} {calls : List (Call × Context)} {past log : List Derivation}
      {call : Call} {result : Except Abort call.Value} :
      Reached before calls past → call.perform before = .ok (result, after) →
        after.context.memo.LogicalFirst →
        call.Logs Context.AnyMember before.context log after.context →
        Reached after ((call, before.context) :: calls) (past ++ log)

/-- What holds after calls in any order: nothing is out of date, what is known was derived once, and as
many derivations are counted. -/
structure Invariant (caches : Caches) (log : List Derivation) : Prop extends caches.Fresh where
  once : log.Nodup
  logged : ∀ entry, caches.context.Has entry ↔ entry ∈ log
  scalarTally : ∀ sheet, caches.context.facts.scalarTally sheet =
    log.countP (Derivation.isOfScalar sheet)
  relationalTally : ∀ id, caches.context.facts.relationalTally id =
    log.countP (Derivation.isOfRelational id)

/-- The derivations of a call are of properties that were not known. -/
theorem Invariant.logs (invariant : before.Invariant past) {call : Call} (fresh : after.Fresh)
    (logs : call.Logs Context.AnyMember before.context log after.context) :
    after.Invariant (past ++ log) := by
  have single (derives : before.context.DerivesBy Context.AnyMember log after.context) :
      after.Invariant (past ++ log) := by
    obtain ⟨once, unknown⟩ := derives.once
    refine ⟨fresh, List.nodup_append'.2 ⟨invariant.once, once, fun entry earlier later => ?_⟩,
      fun entry => ?_, fun sheet => ?_, fun id => ?_⟩
    · exact unknown entry later ((invariant.logged entry).2 earlier)
    · rw [derives.has_iff, invariant.logged, List.mem_append, or_comm]
    · rw [derives.scalarTally, invariant.scalarTally, List.countP_append]
    · rw [derives.relationalTally, invariant.relationalTally, List.countP_append]
  have none (logs : log = [] ∧ after.context.facts = before.context.facts) :
      after.Invariant (past ++ log) := by
    obtain ⟨rfl, facts⟩ := logs
    rw [List.append_nil]
    refine ⟨fresh, invariant.once, fun entry => Iff.trans ?_ (invariant.logged entry), ?_, ?_⟩
    · exact Context.has_of_facts facts
    · rw [facts]
      exact invariant.scalarTally
    · rw [facts]
      exact invariant.relationalTally
  cases call with
  | change request => exact none logs
  | watch guard => exact none logs
  | statistics id => exact none logs
  | readScalar number property => exact single logs
  | deriveScalar number => exact single logs
  | readRelational id property => exact single logs
  | deriveRelational id => exact single logs

variable {calls : List (Call × Context)}

/-- **After calls in any order** nothing is out of date, and what is known was derived once. -/
theorem Reached.invariant (reached : Reached caches calls log) : caches.Invariant log := by
  induction reached with
  | start history headed =>
    refine ⟨⟨⟨(Memo.performAll_keeps history Memo.empty_valid).1, headed, Context.current_of_blank⟩,
      Statistics.known_empty⟩, List.nodup_nil, fun entry => iff_of_false ?_ List.not_mem_nil,
      fun _ => rfl, fun _ => rfl⟩
    cases entry with
    | scalar sheet property => simp [Context.Has, Facts.scalar]
    | relational id property => simp [Context.Has, Facts.relational]
  | call _ done headed logs ih =>
    have does := Call.does done (Call.fits_anyMember _ _)
    exact ih.logs (does.fresh ih.toFresh headed) logs

/-- **After calls through members that are as good as the first ones** all that is known is right. -/
theorem Reached.right (reached : Reached caches calls log)
    (agree : ∀ entry ∈ calls, entry.1.Agrees entry.2) : caches.context.Right := by
  induction reached with
  | start history headed => exact Context.right_of_blank
  | call reached done headed logs ih =>
    obtain ⟨own, others⟩ := List.forall_mem_cons.1 agree
    have fresh := reached.invariant.toFresh
    have does := Call.does done (own.fits fresh.context.valid fresh.context.headed)
    exact does.right fresh headed (ih others)

/-! ### Counts -/

section Counts

variable (invariant : caches.Invariant log)
include invariant

theorem Invariant.count_scalar (sheet : SheetId) :
    (caches.context.facts.scalar sheet).count ScalarProperty.all =
      caches.context.facts.scalarTally sheet := by
  rw [invariant.scalarTally]
  exact Sheet.count_eq_countP (by decide) (fun field => by cases field <;> decide) (.scalar sheet)
    (fun _ _ same => (Derivation.scalar.inj same).2) (fun _ => Derivation.isOfScalar_iff)
    invariant.once fun field => invariant.logged (.scalar sheet field)

theorem Invariant.count_relational (id : GroupId) :
    (caches.context.facts.relational id).count RelationalProperty.all =
      caches.context.facts.relationalTally id := by
  rw [invariant.relationalTally]
  exact Sheet.count_eq_countP (by decide) (fun field => by cases field <;> decide) (.relational id)
    (fun _ _ same => (Derivation.relational.inj same).2) (fun _ => Derivation.isOfRelational_iff)
    invariant.once fun field => invariant.logged (.relational id field)

/-- **As many derivations are counted** for a scalar sheet as it has properties that are known. -/
theorem Invariant.scalarTally_le (sheet : SheetId) :
    caches.context.facts.scalarTally sheet ≤ 10 ∧
      ((caches.context.facts.scalar sheet).isComplete = true →
        caches.context.facts.scalarTally sheet = 10) := by
  rw [← invariant.count_scalar]
  refine ⟨Sheet.count_le, fun complete => ?_⟩
  obtain ⟨values, same⟩ := Sheet.exists_of_isComplete complete
  rw [same]
  exact Sheet.count_complete

/-- **As many derivations are counted** for a relational group as it has properties that are known. -/
theorem Invariant.relationalTally_le (id : GroupId) :
    caches.context.facts.relationalTally id ≤ 6 ∧
      ((caches.context.facts.relational id).isComplete = true →
        caches.context.facts.relationalTally id = 6) := by
  rw [← invariant.count_relational]
  refine ⟨Sheet.count_le, fun complete => ?_⟩
  obtain ⟨values, same⟩ := Sheet.exists_of_isComplete complete
  rw [same]
  exact Sheet.count_complete

end Counts

/-! ### Later derivations -/

/-- The caches under another guard. -/
def under (caches : Caches) (guard : Guard) : Caches :=
  { caches with context := { caches.context with guard } }

section Finish

variable (fresh : caches.Fresh) {guard : Guard} (running : guard.cancelled = false)
include fresh running

/-- **The properties of a scalar group can be derived** through any member with complete children. -/
theorem Fresh.finish_scalar {number : ExprId} {expr : Expr} {sheet : SheetId}
    (named : caches.context.scalarExpr number = .ok (expr, sheet))
    (ready : ∀ child ∈ expr.children, caches.context.Complete child) :
    ∃ last, (Call.deriveScalar number).perform (caches.under guard) = .ok (.ok (), last) ∧
      (last.context.facts.scalar sheet).isComplete = true := by
  have ready : ∀ child ∈ expr.children, (caches.under guard).context.Complete child :=
    fun child member => ⟨(ready child member).scalar, (ready child member).relational⟩
  have valid : (caches.under guard).context.memo.Valid := fresh.context.valid
  have stored := (Context.scalarExpr_ok_iff.1 named).1
  have derived (property : ScalarProperty) :
      ∃ value, property.derive (caches.under guard).context expr = .ok value := by
    obtain ⟨value, given, _⟩ :=
      (ScalarProperty.derive_ends valid stored ready property).exists_ok
    exact ⟨value, given⟩
  choose values derived using derived
  have all : Context.ReadyScalar Context.AnyMember number expr sheet values
      (caches.under guard).context :=
    ⟨valid, named, fun _ => trivial, derived⟩
  obtain ⟨last, done, complete⟩ := all.deriveScalar (Guard.check_ok_iff.2 ⟨running, Nat.zero_le _⟩)
  exact ⟨{ caches.under guard with context := last },
    Call.onContext_eq_ok_iff.2 ⟨last, done, rfl⟩, complete⟩

/-- **The properties of a relational group can be derived** if each of them can, under a guard that
refuses nothing. -/
theorem Fresh.finish_relational {values : RelationalProperties}
    (deep : caches.context.memo.groups.size ≤ guard.maxDepth)
    (family : caches.context.memo.Relational id)
    (settled : ∀ property : RelationalProperty,
      property.settle caches.context.ample id = .ok (values property)) :
    ∃ last, (Call.deriveRelational id).perform (caches.under guard) = .ok (.ok (), last) ∧
      last.context.facts.relational id = .complete values := by
  have valid := fresh.context.valid
  have onward : caches.context.ample.Extends (caches.under guard).context :=
    .of_facts valid (.refl _) rfl rfl
  have repeats := onward.repeats (fun _ => ⟨running, Or.inr deep⟩) fun _ => True
  have later : (caches.under guard).context.FreshBy Context.AnyMember :=
    fresh.context.grow (.of_facts valid (.refl _) rfl rfl) rfl fresh.context.headed
  have ready : Context.ReadyRelational Context.AnyMember id values (caches.under guard).context :=
    ⟨later, family, fun property => property.settle_repeated repeats valid (fun _ _ => trivial)
      fresh.context.headed family _ (settled property)⟩
  obtain ⟨last, done, complete⟩ :=
    ready.deriveRelational (Guard.check_ok_iff.2 ⟨running, Nat.zero_le _⟩)
  exact ⟨{ caches.under guard with context := last },
    Call.onContext_eq_ok_iff.2 ⟨last, done, rfl⟩, complete⟩

end Finish

/-! ### Calls in any order -/

variable {calls : List (Call × Context)}

/-- **After calls in any order, nothing that is kept is out of date, and nothing is derived twice.** -/
theorem Reached.never_stale {call : Call} {result : Except Abort call.Value}
    (reached : Reached before calls past) (done : call.perform before = .ok (result, after))
    (headed : after.context.memo.LogicalFirst) :
    -- What was kept is kept still, and a value that is returned is kept.
    (before.context.Remembers after.context ∧
      ∀ value, result = .ok value → call.Keeps value after) ∧
    -- What is kept is found anew, through some member; statistics are found from scratch.
    (after.context.CurrentBy Context.AnyMember ∧
      ∀ (id : GroupId) (statistics : Statistics), after.found.get? id = some statistics →
        Statistics.ofGroup after.context.memo after.context.catalog id = .ok statistics) ∧
    -- All is found from scratch if the members that were asked are first ones or as good.
    ((∀ entry ∈ (call, before.context) :: calls, entry.1.Agrees entry.2) →
      (∀ value, result = .ok value →
        call.FromScratch after.context.memo after.context.catalog value) ∧
      (∀ (id : GroupId) (property : ScalarProperty) (value : property.Value),
        (after.context.scalar id).get? property = some value →
          property.settle (.scratch after.context.memo after.context.catalog) id = .ok value) ∧
      ∀ (id : GroupId) (property : RelationalProperty) (value : property.Value),
        (after.context.facts.relational id).get? property = some value →
          property.settle (.scratch after.context.memo after.context.catalog) id = .ok value) ∧
    -- What is known was derived once.
    (∃ log, call.Logs Context.AnyMember before.context log after.context ∧
      Reached after ((call, before.context) :: calls) (past ++ log) ∧ (past ++ log).Nodup ∧
      ∀ entry, after.context.Has entry ↔ entry ∈ past ++ log) ∧
    -- As many derivations are counted as properties are known, and all once the group is complete.
    ((∀ sheet : SheetId,
        after.context.facts.scalarTally sheet =
          (after.context.facts.scalar sheet).count ScalarProperty.all ∧
        after.context.facts.scalarTally sheet ≤ 10 ∧
        ((after.context.facts.scalar sheet).isComplete = true →
          after.context.facts.scalarTally sheet = 10)) ∧
      ∀ id : GroupId,
        after.context.facts.relationalTally id =
          (after.context.facts.relational id).count RelationalProperty.all ∧
        after.context.facts.relationalTally id ≤ 6 ∧
        ((after.context.facts.relational id).isComplete = true →
          after.context.facts.relationalTally id = 6)) ∧
    -- A group gets complete only by a derivation of all its properties that ends well.
    ((∀ sheet : SheetId, (before.context.facts.scalar sheet).isComplete = false →
        (after.context.facts.scalar sheet).isComplete = true → ∃ number expr value,
          call = .deriveScalar number ∧
            before.context.scalarExpr number = .ok (expr, sheet) ∧ result = .ok value) ∧
      ∀ id : GroupId, (before.context.facts.relational id).isComplete = false →
        (after.context.facts.relational id).isComplete = true →
          call = .deriveRelational id ∧ ∃ value, result = .ok value) ∧
    -- A derivation that is aborted leaves what it could not derive unknown, and the group incomplete.
    (∀ abort, result = .error abort → call.Unfinished abort before after) ∧
    -- It can be finished later, where the search goes on: over complete groups, or under a guard that
    -- refuses nothing.
    ∀ guard : Guard, guard.cancelled = false →
      (∀ (number : ExprId) (expr : Expr) (sheet : SheetId),
        after.context.scalarExpr number = .ok (expr, sheet) →
        (∀ child ∈ expr.children, after.context.Complete child) →
        ∃ last, (Call.deriveScalar number).perform (after.under guard) = .ok (.ok (), last) ∧
          (last.context.facts.scalar sheet).isComplete = true) ∧
      (after.context.memo.groups.size ≤ guard.maxDepth →
        ∀ (id : GroupId) (values : RelationalProperties), after.context.memo.Relational id →
          (∀ property : RelationalProperty,
            property.settle after.context.ample id = .ok (values property)) →
          ∃ last, (Call.deriveRelational id).perform (after.under guard) = .ok (.ok (), last) ∧
            last.context.facts.relational id = .complete values) := by
  have invariant := reached.invariant
  have does := Call.does done (Call.fits_anyMember call before.context)
  have fresh := does.fresh invariant.toFresh headed
  obtain ⟨log, logs⟩ := does.exists_log
  have kept := invariant.logs fresh logs
  have onward : Reached after ((call, before.context) :: calls) (past ++ log) :=
    .call reached done headed logs
  refine ⟨⟨logs.remembers, fun _ => does.keeps⟩, ⟨fresh.context.current, fun _ _ => fresh.ofGroup_eq⟩, fun agree => ?_,
    ⟨log, logs, onward, kept.once, kept.logged⟩,
    ⟨fun sheet => ⟨(kept.count_scalar sheet).symm, kept.scalarTally_le sheet⟩,
      fun id => ⟨(kept.count_relational id).symm, kept.relationalTally_le id⟩⟩,
    ⟨fun _ => does.completes_scalar, fun _ => does.completes_relational⟩,
    fun _ => does.unfinished,
    fun _ running => ⟨fun _ _ _ => fresh.finish_scalar running,
      fun deep _ _ => fresh.finish_relational running deep⟩⟩
  have right := onward.right agree
  exact ⟨fun value ended => Call.fromScratch fresh right (does.keeps ended),
    fun _ _ _ => right.settle fresh.context.valid.toLinked, fun _ _ _ known => (right.relational known).2⟩

/-! ### Some calls -/

/-- Calls one after another, as long as relational groups begin with logical members; with what each of
them found. -/
def Call.performAll : List Call → Caches → List (Call × Context) →
    Option (Caches × List (Call × Context))
  | [], caches, calls => some (caches, calls)
  | call :: rest, caches, calls => do
    let (_, after) ← (call.perform caches).toOption
    if after.context.memo.isLogicalFirst then
      performAll rest after ((call, caches.context) :: calls)
    else none

/-- Calls one after another lead on. -/
theorem Reached.performAll {more : List Call} {later : List (Call × Context)}
    (reached : Reached before calls past)
    (done : Call.performAll more before calls = some (after, later)) :
    ∃ log, Reached after later log := by
  induction more generalizing before calls past with
  | nil =>
    cases done
    exact ⟨past, reached⟩
  | cons call rest ih =>
    obtain ⟨⟨result, middle⟩, one, others⟩ := Option.bind_eq_some_iff.1 done
    have one := toOption_eq_some_iff.1 one
    dsimp only at others
    split at others
    · rename_i headed
      obtain ⟨log, logs⟩ := (Call.does one (Call.fits_anyMember call before.context)).exists_log
      exact ih (.call reached one (Memo.logicalFirst_of_isLogicalFirst headed) logs) others
    · cases others

/-- Orders of an item that come after it, a selection by two comparisons. -/
def laterOrders : List Memo.Request :=
  [.insert (.logical (.get ⟨"shop", "orders"⟩ [⟨7, none, "id"⟩, ⟨8, none, "item"⟩])) [],
    .insert (.scalar (.column ⟨7, none, "id"⟩)) [], .insert (.scalar (.column ⟨8, none, "item"⟩)) [],
    .insert (.scalar (.binary .eq)) [1, 2], .insert (.scalar (.binary .gt)) [1, 2],
    .insert (.scalar .and) [3, 4], .insert (.logical .select) [0, 5]]

/-- Calls that read, derive and estimate while the memo grows. The equality gets a second member that is
turned round, and is asked through it. The first derivation for the selection is refused. -/
def laterCalls : List Call :=
  [.deriveRelational 0, .readScalar 1 .usedColumns, .deriveScalar 1, .deriveScalar 2,
    .change (.insertInto 3 (.scalar (.binary .eq)) [2, 1]), .readScalar 7 .usedColumns,
    .deriveScalar 3, .deriveScalar 4, .deriveScalar 5, .statistics 6, .watch { maxDepth := 0 },
    .deriveRelational 6, .change (.insert (.logical .select) [6, 3]), .watch {}]

theorem never_stale_laterOrders :
    ∃ (memo : Memo) (before after : Caches) (calls : List (Call × Context)) (past : List Derivation),
      Memo.empty.performAll laterOrders = .ok memo ∧
      Call.performAll laterCalls { context := { memo } } [] = some (before, calls) ∧
      Reached before calls past ∧ (∀ entry ∈ calls, entry.1.Agrees entry.2) ∧
      -- The refused derivation left two properties of the selection.
      before.context.facts.relationalTally 6 = 2 ∧
      (before.context.facts.relational 6).isComplete = false ∧
      (Call.deriveRelational 6).perform before = .ok (.ok (), after) ∧
      after.context.facts.relationalTally 6 = 6 ∧ after.context.facts.scalarTally 3 = 10 ∧
      (∀ value : ColumnSet, (after.context.scalar 3).get? .usedColumns = some value →
        ScalarProperty.usedColumns.settle (.scratch after.context.memo after.context.catalog) 3 =
          .ok value) ∧
      (∀ value : Option Constraint, (after.context.facts.relational 6).get? .constraint = some value →
        RelationalProperty.constraint.settle
          (.scratch after.context.memo after.context.catalog) 6 = .ok value) ∧
      ∃ statistics, after.found.get? 6 = some statistics ∧
        Statistics.ofGroup after.context.memo after.context.catalog 6 = .ok statistics := by
  have run : (do
      let memo ← (Memo.empty.performAll laterOrders).toOption
      let (before, calls) ← Call.performAll laterCalls { context := { memo } } []
      let (result, after) ← ((Call.deriveRelational 6).perform before).toOption
      return (memo.isLogicalFirst && after.context.memo.isLogicalFirst &&
          calls.all fun entry => decide (entry.1.Agrees entry.2),
        (before.context.facts.relationalTally 6, (before.context.facts.relational 6).isComplete),
        result.isOk, (after.context.facts.scalar 3).isComplete && (after.found.get? 6).isSome)) =
      some (true, (2, false), true, true) := by decide +kernel
  obtain ⟨memo, history, run⟩ := Option.bind_eq_some_iff.1 run
  obtain ⟨⟨before, calls⟩, performed, run⟩ := Option.bind_eq_some_iff.1 run
  obtain ⟨⟨result, after⟩, done, run⟩ := Option.bind_eq_some_iff.1 run
  obtain ⟨checked, run⟩ := Prod.mk.inj (Option.some.inj run)
  obtain ⟨refused, run⟩ := Prod.mk.inj run
  obtain ⟨ended, last⟩ := Prod.mk.inj run
  obtain ⟨tally, incomplete⟩ := Prod.mk.inj refused
  obtain ⟨first, agree⟩ := Bool.and_eq_true_iff.1 checked
  obtain ⟨headed, headedToo⟩ := Bool.and_eq_true_iff.1 first
  obtain ⟨whole, estimated⟩ := Bool.and_eq_true_iff.1 last
  have history := toOption_eq_some_iff.1 history
  have done := toOption_eq_some_iff.1 done
  have agree : ∀ entry ∈ calls, entry.1.Agrees entry.2 :=
    fun entry member => of_decide_eq_true (List.all_eq_true.1 agree entry member)
  obtain ⟨past, reached⟩ :=
    (Reached.start history (Memo.logicalFirst_of_isLogicalFirst headed)).performAll performed
  obtain ⟨⟨_, keeps⟩, ⟨_, estimates⟩, right, _, ⟨scalars, relations⟩, _⟩ :=
    reached.never_stale done (Memo.logicalFirst_of_isLogicalFirst headedToo)
  cases result with
  | error abort => cases ended
  | ok value =>
    obtain ⟨_, known, settled⟩ := right (List.forall_mem_cons.2 ⟨trivial, agree⟩)
    obtain ⟨statistics, found⟩ := Option.isSome_iff_exists.1 estimated
    exact ⟨memo, before, after, calls, past, history, performed, reached, agree, tally, incomplete,
      done, (relations 6).2.2 (keeps value rfl), (scalars 3).2.2 whole, known 3 .usedColumns,
      settled 6 .constraint, statistics, found, estimates 6 statistics found⟩

/-- Columns that a conjunction with FALSE does not depend on. -/
def falseConjunctions : List Memo.Request :=
  [.insert (.scalar (.constant (.bool false))) [], .insert (.scalar (.column ⟨7, none, "id"⟩)) [],
    .insert (.scalar .and) [1, 0], .insertInto 2 (.scalar .and) [0, 0]]

/-- A conjunction is asked through its second member. -/
def secondMemberCalls : List Call :=
  [.deriveScalar 0, .deriveScalar 1, .readScalar 3 .usedColumns]

/-- **What is read through a first member** need not be what is found from scratch, where another member
was asked before. -/
theorem readScalar_after_secondMember :
    ∃ (before after : Caches) (calls : List (Call × Context)) (past : List Derivation),
      Reached before calls past ∧
      (Call.readScalar 2 .usedColumns).perform before = .ok (.ok .empty, after) ∧
      ScalarProperty.usedColumns.settle (.scratch after.context.memo after.context.catalog) 2 =
        .ok (.ofList [7]) := by
  have run : (do
      let memo ← (Memo.empty.performAll falseConjunctions).toOption
      let (before, calls) ← Call.performAll secondMemberCalls { context := { memo } } []
      let (result, after) ← ((Call.readScalar 2 .usedColumns).perform before).toOption
      return (memo.isLogicalFirst, result.toOption,
        (ScalarProperty.usedColumns.settle
          (.scratch after.context.memo after.context.catalog) 2).toOption)) =
      some (true, some SortedSet.empty, some (.ofList [7])) := by decide +kernel
  obtain ⟨memo, history, run⟩ := Option.bind_eq_some_iff.1 run
  obtain ⟨⟨before, calls⟩, performed, run⟩ := Option.bind_eq_some_iff.1 run
  obtain ⟨⟨result, after⟩, done, run⟩ := Option.bind_eq_some_iff.1 run
  obtain ⟨headed, run⟩ := Prod.mk.inj (Option.some.inj run)
  obtain ⟨ended, settled⟩ := Prod.mk.inj run
  have history := toOption_eq_some_iff.1 history
  have done := toOption_eq_some_iff.1 done
  obtain ⟨past, reached⟩ :=
    (Reached.start history (Memo.logicalFirst_of_isLogicalFirst headed)).performAll performed
  rw [toOption_eq_some_iff.1 ended] at done
  exact ⟨before, after, calls, past, reached, done, toOption_eq_some_iff.1 settled⟩

end Caches

end Cascades
