/-
**Calls that change a memo or ask for what follows from it.**

Properties and statistics are kept once they are found, while the memo grows. A call adds to what is
kept, and puts nothing out of date. A scalar group may be asked through any member: what is kept is what
was found through one of them, and what is found from scratch if that is as good as the first one.

* `Caches`: a context and the statistics that are found; `Call`: what changes it or asks for something;
* `Call.Agrees`: a scalar group is asked through its first member, or one that is as good;
* `Call.Does`: what a call can do; `Call.does`: it does so;
* `Call.Does.exists_log`: a call is made of single derivations;
* `Call.Does.fresh`, `Call.Does.keeps`, `Call.Does.right`: what a call leaves;
* `Call.Does.completes_scalar`, `Call.Does.completes_relational`, `Call.Does.unfinished`: how derivations
  end.
-/

import Cascades.Proofs.Estimate
import Cascades.Proofs.Memo.History
import Cascades.Proofs.Property.Interchange

namespace Cascades

/-- A context, and the statistics that are found already. -/
structure Caches where
  context : Context
  found : Statistics.Found := {}

namespace Caches

variable {before after caches : Caches} {log : List Derivation} {id : GroupId}

/-! ### Calls -/

/-- A call that changes the memo or the guard, or that asks for what follows from the memo. A scalar
group is asked through any member. -/
inductive Call where
  | change (request : Memo.Request)
  | watch (guard : Guard)
  | readScalar (number : ExprId) (property : ScalarProperty)
  | deriveScalar (number : ExprId)
  | readRelational (id : GroupId) (property : RelationalProperty)
  | deriveRelational (id : GroupId)
  | statistics (id : GroupId)

namespace Call

/-- The type of the value of a call. -/
abbrev Value : Call → Type
  | change _ | watch _ | deriveScalar _ | deriveRelational _ => Unit
  | readScalar _ property => property.Value
  | readRelational _ property => property.Value
  | statistics _ => Statistics

/-- An action on the context. -/
def onContext {α : Type} (action : Action Context α) : Action Caches α :=
  Action.onPart Caches.context (fun caches context => { caches with context }) action

theorem onContext_eq_ok_iff {α : Type} {action : Action Context α} {before after : Caches}
    {result : Except Abort α} :
    onContext action before = .ok (result, after) ↔
      ∃ context, action before.context = .ok (result, context) ∧ after = { before with context } :=
  Action.onPart_eq_ok_iff

/-- What a call does. -/
def perform : (call : Call) → Action Caches call.Value
  | change request => onContext do
    let context ← get
    let memo ← (context.memo.perform request : Except Fault Memo)
    set { context with memo }
  | watch guard => onContext (modify fun context => { context with guard })
  | readScalar number property => onContext (Context.readScalar number property)
  | deriveScalar number => onContext (Context.deriveScalar number)
  | readRelational id property => onContext (Context.readRelational id property)
  | deriveRelational id => onContext (Context.deriveRelational id)
  | statistics id => do
    let caches ← get
    let (value, found) ←
      (Statistics.find caches.context.memo caches.context.catalog id caches.found : Except Fault _)
    set { caches with found }
    return value

/-- Scalar properties are derived through expressions of some kind. -/
def Fits (through : Expr → ScalarProperty → Prop) : Call → Context → Prop
  | readScalar number property, context =>
    ∀ expr, context.memo.exprs[number]? = some expr → through expr property
  | deriveScalar number, context =>
    ∀ expr, context.memo.exprs[number]? = some expr → ∀ property, through expr property
  | _, _ => True

/-- **A scalar group is asked through its first member**, or through one that is as good. -/
def Agrees (call : Call) (context : Context) : Prop :=
  call.Fits (fun expr property => expr.position = 0 ∨
    Context.Matches context.memo context.catalog expr property) context

instance {through : Expr → ScalarProperty → Prop}
    [∀ expr property, Decidable (through expr property)] {expr : Expr} :
    Decidable (∀ property, through expr property) :=
  decidable_of_iff (∀ property ∈ ScalarProperty.all, through expr property)
    ⟨fun each property => each property (by cases property <;> decide), fun each property _ => each property⟩

instance {through : Expr → ScalarProperty → Prop}
    [∀ expr property, Decidable (through expr property)] (call : Call) (context : Context) :
    Decidable (call.Fits through context) :=
  match call with
  | readScalar number property => inferInstanceAs
    (Decidable (∀ expr, context.memo.exprs[number]? = some expr → through expr property))
  | deriveScalar number => inferInstanceAs
    (Decidable (∀ expr, context.memo.exprs[number]? = some expr → ∀ property, through expr property))
  | change _ | watch _ | readRelational _ _ | deriveRelational _ | statistics _ =>
    inferInstanceAs (Decidable True)

theorem fits_anyMember (call : Call) (context : Context) :
    call.Fits Context.AnyMember context := by
  cases call with
  | readScalar number property => exact fun _ _ => trivial
  | deriveScalar number => exact fun _ _ _ => trivial
  | _ => trivial

instance (call : Call) (context : Context) : Decidable (call.Agrees context) :=
  inferInstanceAs (Decidable (call.Fits _ context))

/-- The derivations of a call. Only those that ask for properties have any. -/
def Logs (through : Expr → ScalarProperty → Prop) :
    Call → Context → List Derivation → Context → Prop
  | change _, before, log, after | watch _, before, log, after | statistics _, before, log, after =>
    log = [] ∧ after.facts = before.facts
  | _, before, log, after => before.DerivesBy through log after

/-- A value is the one that is kept, and what was to be derived is complete. -/
def Keeps : (call : Call) → call.Value → Caches → Prop
  | readScalar number property, value, caches => ∃ expr sheet,
    caches.context.scalarExpr number = .ok (expr, sheet) ∧
      (caches.context.facts.scalar sheet).get? property = some value
  | deriveScalar number, _, caches => ∃ expr sheet,
    caches.context.scalarExpr number = .ok (expr, sheet) ∧
      (caches.context.facts.scalar sheet).isComplete = true
  | readRelational id property, value, caches =>
    (caches.context.facts.relational id).get? property = some value
  | deriveRelational id, _, caches => (caches.context.facts.relational id).isComplete = true
  | statistics id, value, caches => caches.found.get? id = some value
  | change _, _, _ | watch _, _, _ => True

/-- A value is the one that is found from scratch. -/
def FromScratch (memo : Memo) (catalog : Catalog) : (call : Call) → call.Value → Prop
  | readScalar number property, value => ∃ expr, memo.exprs[number]? = some expr ∧
    property.settle (Context.scratch memo catalog) expr.group = .ok value
  | readRelational id property, value =>
    property.settle (Context.scratch memo catalog) id = .ok value
  | statistics id, value => Statistics.ofGroup memo catalog id = .ok value
  | change _, _ | watch _, _ | deriveScalar _, _ | deriveRelational _, _ => True

end Call

/-! ### One call -/

/-- Nothing that is kept is out of date. -/
structure Fresh (caches : Caches) : Prop where
  context : caches.context.FreshBy Context.AnyMember
  known : Statistics.Known caches.context.memo caches.context.catalog caches.found

/-- What single derivations leave is not out of date. -/
theorem Fresh.derive (fresh : before.Fresh) {context : Context}
    (derives : before.context.DerivesBy Context.AnyMember log context) :
    Fresh { before with context } where
  context := fresh.context.derive derives
  known := by
    have same := derives.sameMemo
    show Statistics.Known context.memo context.catalog before.found
    rw [same.memo, same.catalog]
    exact fresh.known

/-- The statistics that are kept of a group are its statistics. -/
theorem Fresh.ofGroup_eq (fresh : caches.Fresh) {statistics : Statistics}
    (found : caches.found.get? id = some statistics) :
    Statistics.ofGroup caches.context.memo caches.context.catalog id = .ok statistics := by
  have estimated := fresh.known id statistics found
  exact ((Statistics.find_mirrors fresh.context.valid fresh.context.headed id).run'
    Statistics.known_empty {}).trans (run'_eq_ok_iff.2 ⟨{}, estimated.2 {}⟩)

namespace Call

/-- **What a call can do**, where scalar properties are derived through some expressions. -/
inductive Does (through : Expr → ScalarProperty → Prop) :
    (call : Call) → Except Abort call.Value → Caches → Caches → Prop
  | change {caches : Caches} {request : Memo.Request} {memo : Memo} :
      caches.context.memo.perform request = .ok memo →
        Does through (.change request) (.ok ()) caches
          { caches with context := { caches.context with memo } }
  | watch {caches : Caches} {guard : Guard} :
      Does through (.watch guard) (.ok ()) caches
        { caches with context := { caches.context with guard } }
  | readScalar {caches : Caches} {context : Context} {number : ExprId} {expr : Expr}
      {sheet : SheetId} {property : ScalarProperty} {value : property.Value} {log : List Derivation} :
      caches.context.scalarExpr number = .ok (expr, sheet) →
      caches.context.Fills through (Context.OfScalar sheet) log context →
      (context.facts.scalar sheet).get? property = some value →
        Does through (.readScalar number property) (.ok value) caches { caches with context }
  | findScalar {caches : Caches} {number : ExprId} {expr : Expr} {sheet : SheetId} :
      caches.context.scalarExpr number = .ok (expr, sheet) →
      (caches.context.facts.scalar sheet).isComplete = true →
        Does through (.deriveScalar number) (.ok ()) caches caches
  | refuseScalar {caches : Caches} {number : ExprId} {expr : Expr} {sheet : SheetId} {abort : Abort} :
      caches.context.scalarExpr number = .ok (expr, sheet) →
      (caches.context.facts.scalar sheet).isComplete = false →
      caches.context.guard.check 0 = .error abort →
        Does through (.deriveScalar number) (.error abort) caches caches
  | deriveScalar {caches : Caches} {middle : Context} {number : ExprId} {expr : Expr}
      {sheet : SheetId} {values : ScalarProperties} {log : List Derivation} :
      caches.context.scalarExpr number = .ok (expr, sheet) →
      caches.context.Fills through (Context.OfScalar sheet) log middle →
      (∀ property, (middle.facts.scalar sheet).get? property = some (values property)) →
        Does through (.deriveScalar number) (.ok ()) caches
          { caches with context := middle.completeScalar sheet values }
  | readRelational {caches : Caches} {context : Context} {id : GroupId}
      {property : RelationalProperty} {result : Except Abort property.Value} {log : List Derivation} :
      Context.Reads through id property caches.context result log context →
        Does through (.readRelational id property) result caches { caches with context }
  | findRelational {caches : Caches} {id : GroupId} :
      (caches.context.facts.relational id).isComplete = true →
        Does through (.deriveRelational id) (.ok ()) caches caches
  | refuseRelational {caches : Caches} {id : GroupId} {abort : Abort} :
      (caches.context.facts.relational id).isComplete = false →
      caches.context.guard.check 0 = .error abort →
        Does through (.deriveRelational id) (.error abort) caches caches
  | deriveRelational {caches : Caches} {middle : Context} {id : GroupId}
      {values : RelationalProperties} {log : List Derivation} :
      caches.context.Fills through (Context.OfRelational id) log middle →
      (∀ property, (middle.facts.relational id).get? property = some (values property)) →
        Does through (.deriveRelational id) (.ok ()) caches
          { caches with context := middle.completeRelational id values }
  | abortRelational {caches : Caches} {context : Context} {id : GroupId} {abort : Abort}
      {log : List Derivation} :
      (caches.context.facts.relational id).isComplete = false →
      caches.context.Fills through (Context.OfRelational id) log context →
      (context.facts.relational id).get? .constraint = none →
      RelationalProperty.derive context id none .constraint = .error (.abort abort) →
        Does through (.deriveRelational id) (.error abort) caches { caches with context }
  | statistics {caches : Caches} {id : GroupId} {value : Statistics} {found : Statistics.Found} :
      Statistics.find caches.context.memo caches.context.catalog id caches.found =
        .ok (value, found) →
        Does through (.statistics id) (.ok value) caches { caches with found }

variable {through : Expr → ScalarProperty → Prop} {call : Call} {result : Except Abort call.Value}

/-- **A call does one of these**, through the expressions that are asked. -/
theorem does (done : call.perform before = .ok (result, after))
    (fits : call.Fits through before.context) : call.Does through result before after := by
  cases call with
  | change request =>
    obtain ⟨context, acted, rfl⟩ := onContext_eq_ok_iff.1 done
    obtain ⟨memo, performed, acted⟩ :=
      Action.lift_bind_eq_ok_iff.1 (Action.get_bind_eq_ok_iff.1 acted)
    cases acted
    exact .change performed
  | watch guard =>
    obtain ⟨context, acted, rfl⟩ := onContext_eq_ok_iff.1 done
    cases acted
    exact .watch
  | readScalar number property =>
    obtain ⟨context, acted, rfl⟩ := onContext_eq_ok_iff.1 done
    obtain ⟨expr, sheet, _, named, _⟩ := Context.readScalar_cases acted
    have own : through expr property := fits expr (Context.scalarExpr_ok_iff.1 named).1
    obtain ⟨value, log, rfl, fills, known⟩ := Context.readScalar_fills named own acted
    exact .readScalar named fills known
  | deriveScalar number =>
    obtain ⟨context, acted, rfl⟩ := onContext_eq_ok_iff.1 done
    obtain ⟨⟨expr, sheet⟩, named, _⟩ :=
      Action.lift_bind_eq_ok_iff.1 (Action.get_bind_eq_ok_iff.1 acted)
    have own : ∀ property, through expr property := fits expr (Context.scalarExpr_ok_iff.1 named).1
    rcases Context.deriveScalar_cases named own acted with
      ⟨rfl, complete, rfl⟩ | ⟨abort, rfl, incomplete, refused, rfl⟩ |
        ⟨rfl, _, _, log, middle, values, fills, each, rfl⟩
    · exact .findScalar named complete
    · exact .refuseScalar named incomplete refused
    · exact .deriveScalar named fills each
  | readRelational id property =>
    obtain ⟨context, acted, rfl⟩ := onContext_eq_ok_iff.1 done
    obtain ⟨_, log, reads⟩ := Context.readRelational_reads through acted
    exact .readRelational reads
  | deriveRelational id =>
    obtain ⟨context, acted, rfl⟩ := onContext_eq_ok_iff.1 done
    rcases (Context.deriveRelational_cases through acted).2 with
      ⟨rfl, complete, rfl⟩ | ⟨abort, rfl, incomplete, refused, rfl⟩ |
        ⟨rfl, _, _, log, middle, values, fills, each, rfl⟩ |
          ⟨abort, log, rfl, incomplete, fills, unknown, failed⟩
    · exact .findRelational complete
    · exact .refuseRelational incomplete refused
    · exact .deriveRelational fills each
    · exact .abortRelational incomplete fills unknown failed
  | statistics id =>
    obtain ⟨⟨value, found⟩, given, done⟩ :=
      Action.lift_bind_eq_ok_iff.1 (Action.get_bind_eq_ok_iff.1 done)
    cases done
    exact .statistics given

/-- **A call is made of single derivations.** -/
theorem Does.exists_log (does : call.Does through result before after) :
    ∃ log, call.Logs through before.context log after.context := by
  cases does with
  | change performed => exact ⟨[], rfl, rfl⟩
  | watch => exact ⟨[], rfl, rfl⟩
  | readScalar named fills known => exact ⟨_, fills.derives⟩
  | findScalar named complete => exact ⟨[], .none⟩
  | refuseScalar named incomplete refused => exact ⟨[], .none⟩
  | deriveScalar named fills each =>
    exact ⟨_, fills.derives.append (.completeScalar each .none)⟩
  | readRelational reads => exact ⟨_, reads.fills.derives⟩
  | findRelational complete => exact ⟨[], .none⟩
  | refuseRelational incomplete refused => exact ⟨[], .none⟩
  | deriveRelational fills each =>
    exact ⟨_, fills.derives.append (.completeRelational each .none)⟩
  | abortRelational incomplete fills unknown failed => exact ⟨_, fills.derives⟩
  | statistics given => exact ⟨[], rfl, rfl⟩

/-- **One call** leaves nothing out of date. -/
theorem Does.fresh (does : call.Does Context.AnyMember result before after) (fresh : before.Fresh)
    (headed : after.context.memo.LogicalFirst) : after.Fresh := by
  have valid := fresh.context.valid
  obtain ⟨log, logs⟩ := does.exists_log
  cases does with
  | change performed =>
    obtain ⟨validToo, grows⟩ := Memo.perform_keeps performed valid
    exact ⟨fresh.context.grow (.of_facts validToo grows rfl rfl) rfl headed,
      fresh.known.grow grows valid fresh.context.headed⟩
  | watch =>
    exact ⟨fresh.context.grow (.of_facts valid (.refl _) rfl rfl) rfl headed, fresh.known⟩
  | statistics given =>
    rcases Statistics.find_mirrors valid fresh.context.headed _ _ fresh.known with
      ⟨_, _, same, known, _⟩ | ⟨_, same, _⟩
    · cases same.symm.trans given
      exact ⟨fresh.context, known⟩
    · cases same.symm.trans given
  | findScalar named complete => exact fresh
  | refuseScalar named incomplete refused => exact fresh
  | findRelational complete => exact fresh
  | refuseRelational incomplete refused => exact fresh
  | readScalar named fills known => exact fresh.derive logs
  | deriveScalar named fills each => exact fresh.derive logs
  | readRelational reads => exact fresh.derive logs
  | deriveRelational fills each => exact fresh.derive logs
  | abortRelational incomplete fills unknown failed => exact fresh.derive logs

/-- What was known is known after a call. -/
theorem Logs.remembers {log : List Derivation}
    (logs : call.Logs through before.context log after.context) :
    before.context.Remembers after.context := by
  cases call with
  | change request => exact .of_facts logs.2
  | watch guard => exact .of_facts logs.2
  | statistics id => exact .of_facts logs.2
  | readScalar number property => exact Context.DerivesBy.remembers logs
  | deriveScalar number => exact Context.DerivesBy.remembers logs
  | readRelational id property => exact Context.DerivesBy.remembers logs
  | deriveRelational id => exact Context.DerivesBy.remembers logs

/-- **A value is kept**, and what was to be derived is complete. -/
theorem Does.keeps (does : call.Does through result before after) {value : call.Value}
    (ended : result = .ok value) : call.Keeps value after := by
  cases does with
  | change performed => trivial
  | watch => trivial
  | readScalar named fills known =>
    cases ended
    exact ⟨_, _, (Context.scalarExpr_eq fills.derives.sameMemo.memo _).trans named, known⟩
  | findScalar named complete => exact ⟨_, _, named, complete⟩
  | refuseScalar named incomplete refused => cases ended
  | @deriveScalar _ middle _ _ sheet _ _ named fills each =>
    refine ⟨_, sheet, (Context.scalarExpr_eq fills.derives.sameMemo.memo _).trans named, ?_⟩
    rw [Context.scalar_completeScalar, if_pos rfl]
    rfl
  | readRelational reads => exact reads.known value ended
  | findRelational complete => exact complete
  | refuseRelational incomplete refused => cases ended
  | @deriveRelational _ middle id values _ fills each =>
    show ((middle.completeRelational id values).facts.relational id).isComplete = true
    rw [Context.relational_completeRelational, if_pos rfl]
    rfl
  | abortRelational incomplete fills unknown failed => cases ended
  | statistics given =>
    cases ended
    exact Statistics.get?_of_find given

/-- A member that is first is as good as itself. -/
theorem Agrees.fits {context : Context} (agrees : call.Agrees context) (valid : context.memo.Valid)
    (headed : context.memo.LogicalFirst) :
    call.Fits (Context.Matches context.memo context.catalog) context := by
  have each : ∀ {number : ExprId} {expr : Expr} {property : ScalarProperty},
      context.memo.exprs[number]? = some expr →
        (expr.position = 0 ∨ Context.Matches context.memo context.catalog expr property) →
        Context.Matches context.memo context.catalog expr property :=
    fun stored good => good.elim (fun first =>
      Context.matches_of_first valid headed context.catalog stored first _) id
  cases call with
  | readScalar number property => exact fun expr stored => each stored (agrees expr stored)
  | deriveScalar number =>
    exact fun expr stored property => each stored (agrees expr stored property)
  | _ => trivial

/-- A call through members that are as good as the first ones leaves all that is known right. -/
theorem Does.right (does : call.Does
      (Context.Matches before.context.memo before.context.catalog) result before after)
    (fresh : before.Fresh) (headed : after.context.memo.LogicalFirst)
    (right : before.context.Right) : after.context.Right := by
  have valid := fresh.context.valid
  obtain ⟨log, logs⟩ := does.exists_log
  have derives {log : List Derivation} (logs : before.context.DerivesBy
      (Context.Matches before.context.memo before.context.catalog) log after.context) :
      after.context.Right :=
    .derive logs valid fresh.context.headed rfl rfl right
  cases does with
  | change performed =>
    obtain ⟨validToo, grows⟩ := Memo.perform_keeps performed valid
    exact right.grow valid fresh.context.headed (.of_facts validToo grows rfl rfl) rfl headed
  | watch => exact ⟨right.scalar, right.relational⟩
  | statistics given => exact right
  | findScalar named complete => exact right
  | refuseScalar named incomplete refused => exact right
  | findRelational complete => exact right
  | refuseRelational incomplete refused => exact right
  | readScalar named fills known => exact derives logs
  | deriveScalar named fills each => exact derives logs
  | readRelational reads => exact derives logs
  | deriveRelational fills each => exact derives logs
  | abortRelational incomplete fills unknown failed => exact derives logs

/-- A value that is kept is found from scratch, if all that is known is right. -/
theorem fromScratch (fresh : after.Fresh) (right : after.context.Right) {value : call.Value}
    (keeps : call.Keeps value after) :
    call.FromScratch after.context.memo after.context.catalog value := by
  have valid := fresh.context.valid
  cases call with
  | change request => trivial
  | watch guard => trivial
  | readScalar number property =>
    obtain ⟨expr, sheet, named, known⟩ := keeps
    obtain ⟨stored, own, _⟩ := Context.scalarExpr_cases valid.toLinked named
    exact ⟨expr, stored, right.settle valid.toLinked (Context.scalar_eq own ▸ known)⟩
  | deriveScalar number => trivial
  | readRelational id property => exact (right.relational keeps).2
  | deriveRelational id => trivial
  | statistics id => exact fresh.ofGroup_eq keeps

end Call

/-! ### Complete sheets -/

namespace Call

variable {through : Expr → ScalarProperty → Prop} {call : Call} {result : Except Abort call.Value}
  {sheet : SheetId}

/-- A call leaves the same sheets complete, or it derives all properties of one more. -/
theorem Does.completes (does : call.Does through result before after) :
    before.context.AsComplete after.context ∨
      (∃ number expr sheet value middle values, call = .deriveScalar number ∧
        before.context.scalarExpr number = .ok (expr, sheet) ∧ result = .ok value ∧
        before.context.AsComplete middle ∧ after.context = middle.completeScalar sheet values) ∨
      ∃ other value middle values, call = .deriveRelational other ∧ result = .ok value ∧
        before.context.AsComplete middle ∧ after.context = middle.completeRelational other values := by
  have same (context : Context) : context.AsComplete context := ⟨fun _ => rfl, fun _ => rfl⟩
  cases does with
  | change performed => exact Or.inl ⟨fun _ => rfl, fun _ => rfl⟩
  | watch => exact Or.inl ⟨fun _ => rfl, fun _ => rfl⟩
  | readScalar named fills known => exact Or.inl fills.toAsComplete
  | findScalar named complete => exact Or.inl (same _)
  | refuseScalar named incomplete refused => exact Or.inl (same _)
  | deriveScalar named fills each =>
    exact Or.inr (Or.inl ⟨_, _, _, (), _, _, rfl, named, rfl, fills.toAsComplete, rfl⟩)
  | readRelational reads => exact Or.inl reads.fills.toAsComplete
  | findRelational complete => exact Or.inl (same _)
  | refuseRelational incomplete refused => exact Or.inl (same _)
  | deriveRelational fills each =>
    exact Or.inr (Or.inr ⟨_, (), _, _, rfl, rfl, fills.toAsComplete, rfl⟩)
  | abortRelational incomplete fills unknown failed => exact Or.inl fills.toAsComplete
  | statistics given => exact Or.inl (same _)

/-- **A scalar sheet is completed** only by a derivation for its group that ends well. -/
theorem Does.completes_scalar (does : call.Does through result before after)
    (incomplete : (before.context.facts.scalar sheet).isComplete = false)
    (complete : (after.context.facts.scalar sheet).isComplete = true) :
    ∃ number expr value, call = .deriveScalar number ∧
      before.context.scalarExpr number = .ok (expr, sheet) ∧ result = .ok value := by
  rcases does.completes with
    same | ⟨number, expr, other, value, middle, values, called, named, ended, same, shown⟩ |
      ⟨other, value, middle, values, _, _, same, shown⟩
  · cases (same.scalar sheet).symm.trans complete |>.symm.trans incomplete
  · by_cases own : sheet = other
    · exact ⟨number, expr, value, called, own ▸ named, ended⟩
    · rw [shown, Context.scalar_completeScalar, if_neg own, same.scalar sheet, incomplete] at complete
      cases complete
  · rw [shown] at complete
    cases (same.scalar sheet).symm.trans complete |>.symm.trans incomplete

/-- **A relational sheet is completed** only by a derivation for its group that ends well. -/
theorem Does.completes_relational (does : call.Does through result before after)
    (incomplete : (before.context.facts.relational id).isComplete = false)
    (complete : (after.context.facts.relational id).isComplete = true) :
    call = .deriveRelational id ∧ ∃ value, result = .ok value := by
  rcases does.completes with
    same | ⟨number, expr, other, value, middle, values, _, _, _, same, shown⟩ |
      ⟨other, value, middle, values, called, ended, same, shown⟩
  · cases (same.relational id).symm.trans complete |>.symm.trans incomplete
  · rw [shown] at complete
    cases (same.relational id).symm.trans complete |>.symm.trans incomplete
  · by_cases own : id = other
    · exact ⟨own ▸ called, value, ended⟩
    · rw [shown, Context.relational_completeRelational, if_neg own, same.relational id, incomplete]
        at complete
      cases complete

/-- What a call leaves that is aborted: nothing happened, or the constraint, which is still not known,
could not be derived. The sheet is as incomplete as before. -/
def Unfinished : Call → Abort → Caches → Caches → Prop
  | deriveScalar number, abort, before, after =>
    before.context.guard.check 0 = .error abort ∧ after = before ∧ ∃ expr sheet,
      after.context.scalarExpr number = .ok (expr, sheet) ∧
        (after.context.facts.scalar sheet).isComplete = false
  | readRelational id property, abort, before, after =>
    after = before ∧ (after.context.facts.relational id).get? property = none ∧
      (after.context.facts.relational id).get? .constraint = none ∧
      RelationalProperty.derive after.context id none .constraint = .error (.abort abort)
  | deriveRelational id, abort, before, after =>
    (after.context.facts.relational id).isComplete = false ∧
      ((before.context.guard.check 0 = .error abort ∧ after = before) ∨
        ((after.context.facts.relational id).get? .constraint = none ∧
          RelationalProperty.derive after.context id none .constraint = .error (.abort abort)))
  | _, _, _, _ => False

/-- **A call that is aborted** leaves what could not be derived as it was. -/
theorem Does.unfinished (does : call.Does through result before after) {abort : Abort}
    (aborted : result = .error abort) : call.Unfinished abort before after := by
  cases does with
  | change performed => cases aborted
  | watch => cases aborted
  | readScalar named fills known => cases aborted
  | findScalar named complete => cases aborted
  | refuseScalar named incomplete refused =>
    cases aborted
    exact ⟨refused, rfl, _, _, named, incomplete⟩
  | deriveScalar named fills each => cases aborted
  | readRelational reads =>
    obtain ⟨rfl, unknown, missing, failed⟩ := reads.aborted abort aborted
    exact ⟨rfl, unknown, missing, failed⟩
  | findRelational complete => cases aborted
  | refuseRelational incomplete refused =>
    cases aborted
    exact ⟨incomplete, Or.inl ⟨refused, rfl⟩⟩
  | deriveRelational fills each => cases aborted
  | abortRelational incomplete fills unknown failed =>
    cases aborted
    exact ⟨(fills.relational _).trans incomplete, Or.inr ⟨unknown, failed⟩⟩
  | statistics given => cases aborted

end Call

end Caches

end Cascades
