/-
**No property is used before it is found.**

The properties of a group are derived from those of its children, which have to be found already. In a memo
whose relational groups begin with logical members that is so for all groups in the order of their numbers,
since the children of a first member are older than its group. Nothing is asked of the children themselves:
where an operator has not the children that it should have, the derivation ends for that reason.

* `Fault.Premature`: properties were used before they were found;
* `RelationalProperty.derive_ready`: one property over children that are complete;
* `Context.deriveBelow_ready`, `Context.deriveAll_ready`: the groups in the order of their numbers.
-/

import Cascades.Proofs.Property.Completion

namespace Cascades

variable {context : Context} {memo : Memo} {id : GroupId}

/-- Properties were used before they were found. -/
def Fault.Premature : Fault → Prop
  | .scalarUnderived _ | .relationalUnderived _ => True
  | _ => False

/-- A computation may end in any fault but that one. -/
abbrev Ready {α : Type} (computation : Except Fault α) (gives : α → Prop) : Prop :=
  Ends (fun cause => ¬ cause.Premature) computation gives

/-! ### Groups and children -/

theorem Memo.group_ready : Ready (memo.group id) fun group => memo.groups[id]? = some group := by
  unfold Memo.group
  split
  · rename_i there
    exact there
  · exact not_false

theorem Memo.firstMember_ready : Ready (memo.firstMember id) fun _ => True := by
  unfold Memo.firstMember
  refine Ends.bind Memo.group_ready fun group _ => ?_
  have first : Ready group.first fun _ => True := by
    unfold Group.first
    split
    · trivial
    · exact not_false
  refine Ends.bind first fun number _ => ?_
  unfold Memo.expr
  split
  · trivial
  · exact not_false

theorem Expr.child_ready {expr : Expr} {position : Nat} :
    Ready (expr.child position) fun child => child ∈ expr.children := by
  unfold Expr.child
  split
  · rename_i place
    exact List.mem_of_getElem? place
  · exact not_false

theorem Expr.lastChild_ready {expr : Expr} : Ready expr.lastChild fun child => child ∈ expr.children := by
  unfold Expr.lastChild Count.sub
  split
  · exact Expr.child_ready
  · exact not_false

/-- The properties of a complete group can be read, unless it is scalar. -/
theorem Context.Complete.relational_ready (complete : context.Complete id) :
    Ready (context.relationalProperties id) fun _ => True := by
  by_cases relational : context.memo.Relational id
  · exact complete.relationalProperties relational
  unfold Context.relationalProperties
  refine Ends.bind Memo.group_ready fun group there => ?_
  cases family : group.isScalar with
  | true => exact not_false
  | false => exact absurd ⟨group, there, family⟩ relational

/-! ### Constraints of predicates -/

theorem Constraint.ofPredicateWithin_ready {guard : Guard} (room : Nat) : ∀ {id : GroupId},
    Ends (Failure.Allowed fun cause => ¬ cause.Premature) (ofPredicateWithin memo guard room id)
      fun _ => True := by
  induction room with
  | zero => exact Ends.throw Guard.refusal_stops
  | succ room ih =>
    intro id
    unfold ofPredicateWithin
    split
    · exact Ends.throw Guard.refusal_stops
    refine Ends.bind (Ends.lift Memo.firstMember_ready) fun first _ => ?_
    split
    · refine Ends.ite ?_ (Ends.pure trivial)
      refine Ends.bind (Ends.lift Expr.child_ready) fun left _ => ?_
      exact Ends.bind (Ends.lift Expr.child_ready) fun right _ => Ends.pure trivial
    · exact Ends.bind (Ends.lift Expr.child_ready) fun operand _ => Ends.pure trivial
    · exact Ends.bind (Ends.lift Expr.child_ready) fun operand _ => Ends.pure trivial
    · exact (Ends.mapM fun part _ => ih).returns
    · exact (Ends.mapM_option fun part _ => ih).returns
    · exact Ends.pure trivial

/-! ### Relational properties -/

section Relational

variable {expr : Expr} (ready : ∀ child ∈ expr.children, context.Complete child)
include ready

theorem relationalChild_ready : ∀ child ∈ context.memo.relationalChildren expr,
    Ready (context.relationalProperties child) fun _ => True :=
  fun child member => (ready child (List.mem_filter.1 member).1).relational_ready

/-- What is read of the child at a position. -/
theorem readAt_ready {α : Type} {position : Nat} {read : RelationalProperties → α} :
    Ready (do return read (← context.relationalProperties (← expr.child position))) fun _ => True :=
  Ends.bind Expr.child_ready fun child member => (ready child member).relational_ready.returns

theorem deriveOutput_ready {operator : LogicalOp} :
    Ready (RelationalProperty.deriveOutput context expr operator) fun _ => True := by
  have defined : ∀ start, Ready (RelationalProperty.addDefined context start expr) fun _ => True :=
    fun start => gather_ends fun child member => (scalarChild_ends ready child member).returns
  have all : Ready (gather .empty (context.memo.relationalChildren expr)
      (RelationalProperty.outputOf context)) fun _ => True :=
    gather_ends fun child member => (relationalChild_ready ready child member).returns
  cases operator with
  | get => exact Ends.pure trivial
  | select | naryJoin | limit => exact all
  | aggregate keys => exact defined _
  | project =>
    refine Ends.bind Expr.child_ready fun child member => ?_
    exact Ends.bind (ready child member).relational_ready.returns fun _ _ => defined _
  | join type =>
    cases type with
    | semi | anti => exact readAt_ready ready
    | inner | left | right | full | cross => exact all

/-- What comes after the constraint of the child at a position. -/
theorem constraintAt_ready {α : Type} {next : List Constraint → Except Failure α} {position : Nat}
    (rest : ∀ found, Ends (Failure.Allowed fun cause => ¬ cause.Premature) (next found) fun _ => True) :
    Ends (Failure.Allowed fun cause => ¬ cause.Premature) (do
      next (← RelationalProperty.constraintOf context
        (← (expr.child position : Except Fault GroupId)))) fun _ => True := by
  refine Ends.bind (Ends.lift Expr.child_ready) fun child member => ?_
  exact Ends.bind (Ends.lift (ready child member).relational_ready).returns fun found _ => rest found

theorem deriveConstraint_ready {operator : LogicalOp} :
    Ends (Failure.Allowed fun cause => ¬ cause.Premature)
      (RelationalProperty.deriveConstraint context expr operator) fun _ => True := by
  have predicate : ∀ {group : GroupId}, Ends (Failure.Allowed fun cause => ¬ cause.Premature)
      (RelationalProperty.constraintOfPredicate context group) fun _ => True :=
    (Constraint.ofPredicateWithin_ready _).returns
  have predicateAt : ∀ {position : Nat} {change : List Constraint → Option Constraint},
      Ends (Failure.Allowed fun cause => ¬ cause.Premature) (do
        return change (← RelationalProperty.constraintOfPredicate context
          (← (expr.child position : Except Fault GroupId)))) fun _ => True :=
    Ends.bind (Ends.lift Expr.child_ready) fun _ _ => predicate.returns
  cases operator with
  | get => exact Ends.pure trivial
  | select => exact constraintAt_ready ready fun _ => predicateAt
  | project | aggregate | limit => exact constraintAt_ready ready fun _ => Ends.pure trivial
  | naryJoin =>
    have inputs : ∀ group ∈ context.memo.relationalChildren expr,
        Ends (Failure.Allowed fun cause => ¬ cause.Premature)
          (RelationalProperty.constraintOf context group) fun _ => True :=
      fun group member => (Ends.lift (relationalChild_ready ready group member)).returns
    refine Ends.bind (Ends.mapM inputs) fun _ _ => ?_
    exact Ends.bind (Ends.lift Expr.lastChild_ready) fun _ _ => predicate.returns
  | join type =>
    cases type with
    | inner | cross =>
      exact constraintAt_ready ready fun _ => constraintAt_ready ready fun _ => predicateAt
    | left | semi | anti | right => exact constraintAt_ready ready fun _ => Ends.pure trivial
    | full => exact Ends.pure trivial

theorem deriveCardinality_ready {operator : LogicalOp} :
    Ready (RelationalProperty.deriveCardinality context expr operator) fun _ => True := by
  have first : Ready (do RelationalProperty.cardinalityOf context (← expr.child 0)) fun _ => True :=
    readAt_ready ready
  have product : Ready (RelationalProperty.deriveCardinality context expr .naryJoin) fun _ => True := by
    refine Ends.foldlM (fun child member product (_ : True) => ?_) trivial
    refine Ends.bind (relationalChild_ready ready child member).returns fun _ _ => ?_
    split
    · exact Ends.pure trivial
    · exact Ends.pure trivial
  cases operator with
  | get => exact Ends.pure trivial
  | select | project => exact first
  | aggregate keys =>
    cases keys with
    | nil => exact Ends.pure trivial
    | cons => exact first
  | limit offset count =>
    refine Ends.bind Expr.child_ready fun child member => ?_
    refine Ends.bind (ready child member).relational_ready.returns fun _ _ => ?_
    split
    · exact Ends.pure trivial
    · exact Ends.pure trivial
  | naryJoin => exact product
  | join type =>
    cases type with
    | semi | anti => exact first
    | inner | left | right | full | cross => exact product

theorem deriveDepth_ready {operator : LogicalOp} :
    Ready (RelationalProperty.deriveDepth context expr operator) fun _ => True := by
  have total : Ready ((context.memo.relationalChildren expr).foldlM (fun depth child => do
      Count.add depth ((← context.relationalProperties child) .joinDepth)) 0) fun _ => True := by
    have none : False → context.KnowsTables fun _ => 0 := False.elim
    have ends := addDepths_ends (relationalChild_ready ready) none (Nat.zero_le _)
      fun proper => absurd not_false proper
    exact ends.mono fun _ _ => trivial
  cases operator with
  | get => exact Ends.pure trivial
  | _ => exact total

end Relational

/-- **A relational property** over complete groups is derived, or something else is wrong. -/
theorem RelationalProperty.derive_ready (valid : context.memo.Valid) (headed : context.memo.LogicalFirst)
    (relational : context.memo.Relational id) (complete : ∀ child < id, context.Complete child)
    (known : Option Constraint) (property : RelationalProperty) :
    Ends (Failure.Allowed fun cause => ¬ cause.Premature) (property.derive context id known)
      fun _ => True := by
  obtain ⟨number, expr, operator, found, stored, logical, _, older⟩ :=
    headed.firstLogical valid.toLinked relational
  have ready : ∀ child ∈ expr.children, context.Complete child :=
    fun child member => complete child (older child member)
  cases property with
  | outputColumns => exact Ends.bind_lift_ok found (Ends.lift (deriveOutput_ready ready))
  | outerReferences => exact Ends.bind_lift_ok found (Ends.lift (deriveOuter_ends valid stored ready))
  | constraint => exact Ends.bind_lift_ok found (deriveConstraint_ready ready)
  | maxCardinality =>
    exact Ends.ite (Ends.pure trivial)
      (Ends.bind_lift_ok found (Ends.lift (deriveCardinality_ready ready)))
  | joinDepth => exact Ends.bind_lift_ok found (Ends.lift (deriveDepth_ready ready))
  | partitions => exact Ends.bind_lift_ok found (Ends.lift (derivePartitions_ends valid stored ready))

/-! ### All groups -/

namespace Context

open Cascades.Action

variable (valid : memo.Valid) (headed : memo.LogicalFirst)
include valid headed

/-- Numbers of joined tables are not followed. -/
theorem derivable_of_logicalFirst (relational : memo.Relational id) :
    Derivable False (fun cause => ¬ cause.Premature) (fun _ => 0) memo id := by
  rintro context ⟨rfl, complete, _⟩ known property
  have ends := RelationalProperty.derive_ready valid headed relational complete known property
  exact ends.mono fun _ _ => False.elim

/-- **The groups below a number** are complete once all their properties were derived. -/
theorem deriveBelow_ready {count : Nat} (inside : count ≤ memo.groups.size) :
    Leads (fun cause => ¬ cause.Premature) (fun context => context.memo = memo)
      ((List.range count).forM deriveGroup) fun _ context =>
        context.memo = memo ∧ ∀ id < count, context.Complete id := by
  have pass := deriveBelow_leads valid headed (derivable_of_logicalFirst valid headed) inside
  refine (pass.of_start fun _ same => ⟨same, False.elim⟩).mono fun _ _ filled => ?_
  exact ⟨filled.memo_eq, filled.complete⟩

/-- **All groups** are complete once all properties were derived. -/
theorem deriveAll_ready :
    Leads (fun cause => ¬ cause.Premature) (fun context => context.memo = memo) deriveAll
      fun _ context => context.memo = memo ∧ ∀ id < memo.groups.size, context.Complete id := by
  have pass := deriveAll_leads_of_derivable valid headed (derivable_of_logicalFirst valid headed)
  refine (pass.of_start fun _ same => ⟨same, False.elim⟩).mono fun _ _ filled => ?_
  exact ⟨filled.memo_eq, filled.complete⟩

end Context

end Cascades
