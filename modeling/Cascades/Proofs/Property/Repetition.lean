/-
**What a property depends on.**

A property is derived from the first member of a group and from what is read of the children of that
member. So it is the same in every context that reads the same of these groups, although its memo has grown
and more is known of other groups. The guard only decides whether there is a value at all: with at
least as many levels as there are groups it refuses nothing.

* `Repeats`: of some groups one context reads what another one reads;
* `ofPredicate?_repeated`: the constraint of a predicate;
* `ScalarProperty.settle`, `RelationalProperty.settle`: a property that is derived anew;
* `ScalarProperty.settle_repeated`, `RelationalProperty.settle_repeated`: it is the same again.
-/

import Cascades.Proofs.Property.Retention

namespace Cascades

/-! ### Guards -/

/-- A guard that lets every step of a recursion pass that another guard lets pass, if the recursion
has no more than some levels. -/
def Guard.Covers (guard other : Guard) (levels : Nat) : Prop :=
  other.cancelled = false →
    guard.cancelled = false ∧ (other.maxDepth ≤ guard.maxDepth ∨ levels ≤ guard.maxDepth)

theorem Guard.Covers.refl (guard : Guard) (levels : Nat) : guard.Covers guard levels :=
  fun running => ⟨running, Or.inl (Nat.le_refl _)⟩

/-- The guard that refuses nothing in a recursion with some levels. -/
def Guard.ample (levels : Nat) : Guard := { maxDepth := levels }

theorem Guard.ample_covers {other : Guard} {levels more : Nat} (enough : levels ≤ more) :
    (Guard.ample more).Covers other levels :=
  fun _ => ⟨rfl, Or.inr enough⟩

/-! ### Steps -/

namespace Yields

variable {α β : Type}

/-- A computation without aborts as a step of one with aborts. -/
theorem lift {computation other : Except Fault α} (yields : Yields computation other) :
    Yields (liftM computation : Except Failure α) (liftM other) :=
  fun value given => lift_fault_eq_ok_iff.2 (yields value (lift_fault_eq_ok_iff.1 given))

/-- What is done with a child of an expression. -/
theorem bind_child {expr : Expr} {position : Nat} {next onward : GroupId → Except Fault β}
    (each : ∀ child ∈ expr.children, Yields (next child) (onward child)) :
    Yields (expr.child position >>= next) (expr.child position >>= onward) :=
  (refl _).bind_given fun child given => each child (Expr.mem_of_child given)

theorem bind_lift_child {expr : Expr} {position : Nat} {next onward : GroupId → Except Failure β}
    (each : ∀ child ∈ expr.children, Yields (next child) (onward child)) :
    Yields ((liftM (expr.child position) : Except Failure GroupId) >>= next)
      ((liftM (expr.child position) : Except Failure GroupId) >>= onward) :=
  (refl _).bind_given fun child given =>
    each child (Expr.mem_of_child (lift_fault_eq_ok_iff.1 given))

theorem bind_lift_lastChild {expr : Expr} {next onward : GroupId → Except Failure β}
    (each : ∀ child ∈ expr.children, Yields (next child) (onward child)) :
    Yields ((liftM expr.lastChild : Except Failure GroupId) >>= next)
      ((liftM expr.lastChild : Except Failure GroupId) >>= onward) :=
  (refl _).bind_given fun child given =>
    each child (Expr.mem_of_lastChild (lift_fault_eq_ok_iff.1 given))

end Yields

/-! ### Predicates -/

namespace Constraint

variable {memo next : Memo} (grows : memo.Grows next) (valid : memo.Valid)
include grows valid

theorem ofComparison?_grown {operator : BinaryOp} {left right : GroupId}
    (leftInside : left < memo.groups.size) (rightInside : right < memo.groups.size) :
    ofComparison? next operator left right = ofComparison? memo operator left right := by
  unfold ofComparison?
  rw [grows.column?_eq valid leftInside, grows.column?_eq valid rightInside,
    grows.constant?_eq valid leftInside, grows.constant?_eq valid rightInside]

/-- A guard that lets more steps pass finds the same constraint, also where the memo has grown. -/
theorem ofPredicateWithin_repeated {guard other : Guard}
    (running : other.cancelled = false → guard.cancelled = false) (room : Nat) :
    ∀ {more : Nat} {id : GroupId}, id < memo.groups.size → (room ≤ more ∨ id < more) →
      Yields (ofPredicateWithin memo other room id) (ofPredicateWithin next guard more id) := by
  induction room with
  | zero => exact fun _ _ => .throw
  | succ room ih =>
    intro more id inside enough
    cases more with
    | zero =>
      rcases enough with few | few
      · exact absurd few (Nat.not_succ_le_zero _)
      · exact absurd few (Nat.not_lt_zero _)
    | succ more =>
      unfold ofPredicateWithin
      cases stopped : other.cancelled with
      | true => exact .throw
      | false =>
        simp only [Bool.false_eq_true, if_false, running stopped]
        obtain ⟨first, found⟩ := valid.exists_firstMember inside
        obtain ⟨_, number, _, _, stored⟩ := Memo.firstMember_ok_iff.1 found
        have again := grows.firstMember found
        have older := (valid.of_firstMember found).2
        have below : ∀ child ∈ first.children, Yields (ofPredicateWithin memo other room child)
            (ofPredicateWithin next guard more child) := by
          intro child member
          have smaller := older child member
          exact ih (Nat.lt_trans smaller inside) (enough.imp Nat.le_of_succ_le_succ fun few =>
            Nat.lt_of_lt_of_le smaller (Nat.le_of_lt_succ few))
        have there : ∀ child ∈ first.children, child < memo.groups.size :=
          fun child => valid.childExists stored
        rw [found, again]
        refine (Yields.refl _).bind_given fun _ same => ?_
        cases lift_fault_eq_ok_iff.1 same
        split
        · refine .ite ?_ (.refl _)
          refine .bind_lift_child fun left leftIn => .bind_lift_child fun right rightIn => ?_
          rw [ofComparison?_grown grows valid (there left leftIn) (there right rightIn)]
          exact .refl _
        · refine .bind_lift_child fun operand operandIn => ?_
          rw [grows.column?_eq valid (there operand operandIn)]
          exact .refl _
        · refine .bind_lift_child fun operand operandIn => ?_
          rw [grows.column?_eq valid (there operand operandIn)]
          exact .refl _
        · exact (Yields.mapM below).returns
        · exact (Yields.mapM_option below).returns
        · exact .refl _

/-- **The constraint of a predicate** is the same under a guard that lets as much pass, also where the
memo has grown. -/
theorem ofPredicate?_repeated {guard other : Guard} {id : GroupId}
    (inside : id < memo.groups.size) (covers : guard.Covers other memo.groups.size) :
    Yields (ofPredicate? memo other id) (ofPredicate? next guard id) := by
  cases stopped : other.cancelled with
  | true =>
    unfold ofPredicate? ofPredicateWithin Guard.room
    rw [stopped]
    exact .throw
  | false =>
    obtain ⟨running, enough⟩ := covers stopped
    refine ofPredicateWithin_repeated grows valid (fun _ => running) _ inside ?_
    exact enough.imp Nat.succ_le_succ fun enough =>
      Nat.lt_of_lt_of_le inside (Nat.le_succ_of_le enough)

end Constraint

/-! ### Reading some groups -/

/-- **Of some groups** the later context reads what the first one reads. Its memo grew, and its guard
lets as much pass. -/
structure Context.Repeats (first later : Context) (groups : GroupId → Prop) : Prop where
  grows : first.memo.Grows later.memo
  catalog : later.catalog = first.catalog
  covers : later.guard.Covers first.guard first.memo.groups.size
  scalar : ∀ id, groups id → Yields (first.scalarProperties id) (later.scalarProperties id)
  relational : ∀ id, groups id → Yields (first.relationalProperties id) (later.relationalProperties id)

namespace Context

/-- A context that extends another one reads what that one reads. -/
theorem Extends.repeats {first later : Context} (extending : first.Extends later)
    (covers : later.guard.Covers first.guard first.memo.groups.size) (groups : GroupId → Prop) :
    first.Repeats later groups where
  grows := extending.grows
  catalog := extending.catalog
  covers
  scalar _ _ _ := extending.scalarProperties
  relational _ _ _ := extending.relationalProperties

end Context

section Repeats

variable {first later : Context} {groups : GroupId → Prop} (repeats : first.Repeats later groups)
  (valid : first.memo.Valid)

/-- What is read of a group, and something made of it. -/
theorem Context.Repeats.readScalar (repeats : first.Repeats later groups) {id : GroupId}
    (among : groups id) {α : Type} {change : ScalarProperties → α} :
    Yields (do return change (← first.scalarProperties id))
      (do return change (← later.scalarProperties id)) :=
  (repeats.scalar id among).returns

theorem Context.Repeats.readRelational (repeats : first.Repeats later groups) {id : GroupId}
    (among : groups id) {α : Type} {change : RelationalProperties → α} :
    Yields (do return change (← first.relationalProperties id))
      (do return change (← later.relationalProperties id)) :=
  (repeats.relational id among).returns

theorem gather_yields {α : Type} [Ord α] [Std.TransOrd α] [Std.LawfulEqOrd α] {start : SortedSet α}
    {children : List GroupId} {read again : GroupId → Except Fault (SortedSet α)}
    (each : ∀ child ∈ children, Yields (read child) (again child)) :
    Yields (gather start children read) (gather start children again) :=
  Yields.foldlM fun child member _ => (each child member).returns

variable {expr : Expr} {number : ExprId} (stored : first.memo.exprs[number]? = some expr)
  (among : ∀ child ∈ expr.children, groups child)

section Children

include repeats valid stored

theorem scalarChildren_repeated : later.memo.scalarChildren expr = first.memo.scalarChildren expr :=
  List.filter_congr fun _ member =>
    repeats.grows.isScalarGroup_eq (valid.childExists stored member)

theorem relationalChildren_repeated :
    later.memo.relationalChildren expr = first.memo.relationalChildren expr :=
  List.filter_congr fun _ member =>
    congrArg _ (repeats.grows.isScalarGroup_eq (valid.childExists stored member))

end Children

omit valid stored among in
include repeats in
theorem distinctAggregateCalls_repeated :
    Yields (distinctAggregateCalls first.memo expr) (distinctAggregateCalls later.memo expr) := by
  have member : ∀ id, Yields (first.memo.firstMember id) (later.memo.firstMember id) :=
    fun id _ => repeats.grows.firstMember
  refine Yields.returns (Yields.mapM fun elementGroup _ => (member elementGroup).bind fun element => ?_)
  split
  · refine Yields.returns (Yields.mapM fun valueGroup _ => (member valueGroup).bind fun value => ?_)
    exact .refl _
  · exact .refl _

/-! ### Scalar properties -/

include repeats valid stored among

/-- **A scalar property** that is derived is the same again. -/
theorem ScalarProperty.derive_repeated (property : ScalarProperty) :
    Yields (property.derive first expr) (property.derive later expr) := by
  have same := scalarChildren_repeated repeats valid stored
  have sameToo := relationalChildren_repeated repeats valid stored
  have read : ∀ child ∈ first.memo.scalarChildren expr, ∀ {α : Type} {change : ScalarProperties → α},
      Yields (do return change (← first.scalarProperties child))
        (do return change (← later.scalarProperties child)) :=
    fun child member => repeats.readScalar (among child (List.mem_of_mem_filter member))
  have readToo : ∀ child ∈ first.memo.relationalChildren expr, ∀ {α : Type}
      {change : RelationalProperties → α},
      Yields (do return change (← first.relationalProperties child))
        (do return change (← later.relationalProperties child)) :=
    fun child member => repeats.readRelational (among child (List.mem_of_mem_filter member))
  cases property with
  | definedColumns =>
    simp only [derive, deriveDefined, same]
    exact gather_yields fun child member => read child member
  | usedColumns =>
    simp only [derive, deriveUsed, same, sameToo]
    exact (gather_yields fun child member => read child member).bind fun _ =>
      gather_yields fun child member => readToo child member
  | setReturningColumns =>
    simp only [derive, deriveSetReturning, same]
    split
    · exact gather_yields fun child member => read child member
    · exact gather_yields fun child member => read child member
    · exact .refl _
  | hasSubquery =>
    simp only [derive, deriveHasSubquery, same]
    split
    · exact .refl _
    · exact .refl _
    · exact .anyM fun child member => read child member
  | partitions =>
    simp only [derive, derivePartitions, same, sameToo]
    exact (gather_yields fun child member => read child member).bind fun _ =>
      gather_yields fun child member => readToo child member
  | functionTraits =>
    simp only [derive, deriveTraits, same, repeats.catalog]
    exact .foldlM fun child member _ => read child member
  | hasSetFunction =>
    simp only [derive, deriveHasSetFunction, same, repeats.catalog]
    exact .ite (.refl _) (.anyM fun child member => read child member)
  | distinctAggregates =>
    simp only [derive, deriveDistinctAggregates]
    split
    · exact (distinctAggregateCalls_repeated repeats).returns
    · exact .refl _
  | multipleDistinctAggregates =>
    simp only [derive, deriveMultipleDistinct]
    split
    · exact (distinctAggregateCalls_repeated repeats).returns
    · exact .refl _
  | hasArrayComparison =>
    simp only [derive, deriveHasArrayComparison, same]
    split
    · exact .refl _
    · exact .anyM fun child member => read child member

/-! ### Relational properties -/

namespace RelationalProperty

theorem deriveOutput_repeated (operator : LogicalOp) :
    Yields (deriveOutput first expr operator) (deriveOutput later expr operator) := by
  have same := scalarChildren_repeated repeats valid stored
  have sameToo := relationalChildren_repeated repeats valid stored
  have output : ∀ child ∈ expr.children, Yields (outputOf first child) (outputOf later child) :=
    fun child member => repeats.readRelational (among child member)
  have defined : ∀ start, Yields (addDefined first start expr) (addDefined later start expr) := by
    intro start
    simp only [addDefined, same]
    exact gather_yields fun child member =>
      repeats.readScalar (among child (List.mem_of_mem_filter member))
  have inputs : Yields (gather .empty (first.memo.relationalChildren expr) (outputOf first))
      (gather .empty (first.memo.relationalChildren expr) (outputOf later)) :=
    gather_yields fun child member => output child (List.mem_of_mem_filter member)
  rw [← sameToo] at inputs
  unfold deriveOutput
  split
  · exact .refl _
  · exact .bind_child output
  · exact .bind_child output
  · exact defined _
  · exact .bind_child fun child member => (output child member).bind fun _ => defined _
  all_goals
    rw [sameToo] at inputs ⊢
    exact inputs

theorem deriveOuter_repeated (operator : LogicalOp) :
    Yields (deriveOuter first expr operator) (deriveOuter later expr operator) := by
  have same := scalarChildren_repeated repeats valid stored
  have sameToo := relationalChildren_repeated repeats valid stored
  simp only [deriveOuter, same, sameToo]
  refine Yields.bind (gather_yields fun child member =>
    repeats.readScalar (among child (List.mem_of_mem_filter member))) fun used => ?_
  exact .bind (.foldlM fun child member _ =>
    repeats.readRelational (among child (List.mem_of_mem_filter member))) fun _ => .refl _

theorem deriveConstraint_repeated (operator : LogicalOp) :
    Yields (deriveConstraint first expr operator) (deriveConstraint later expr operator) := by
  have sameToo := relationalChildren_repeated repeats valid stored
  have input : ∀ child ∈ expr.children,
      Yields (constraintOf first child) (constraintOf later child) := fun child member =>
    (repeats.relational child (among child member)).lift.bind fun _ => .refl _
  have predicate : ∀ child ∈ expr.children,
      Yields (constraintOfPredicate first child) (constraintOfPredicate later child) :=
    fun child member => (Constraint.ofPredicate?_repeated repeats.grows valid
      (valid.childExists stored member) repeats.covers).returns
  unfold deriveConstraint
  split
  · exact .refl _
  · refine .bind_lift_child fun child member => (input child member).bind fun _ => ?_
    exact .bind_lift_child fun child member => (predicate child member).returns
  iterate 2
    refine .bind_lift_child fun child member => (input child member).bind fun _ => ?_
    refine .bind_lift_child fun child member => (input child member).bind fun _ => ?_
    exact .bind_lift_child fun child member => (predicate child member).returns
  iterate 4
    exact .bind_lift_child fun child member => (input child member).returns
  · exact .refl _
  · rw [sameToo]
    refine (Yields.mapM fun child member => input child (List.mem_of_mem_filter member)).bind
      fun _ => ?_
    exact .bind_lift_lastChild fun child member => (predicate child member).returns
  iterate 2
    exact .bind_lift_child fun child member => (input child member).returns
  · exact .bind_lift_child fun child member => (input child member).returns

theorem deriveCardinality_repeated (operator : LogicalOp) :
    Yields (deriveCardinality first expr operator) (deriveCardinality later expr operator) := by
  have sameToo := relationalChildren_repeated repeats valid stored
  have bounds : ∀ child ∈ expr.children,
      Yields (cardinalityOf first child) (cardinalityOf later child) :=
    fun child member => repeats.readRelational (among child member)
  unfold deriveCardinality
  split
  · exact .refl _
  · exact .bind_child fun child member => (bounds child member).bind fun _ => .refl _
  · exact .refl _
  · exact .bind_child bounds
  · exact .bind_child bounds
  iterate 2
    rw [sameToo]
    exact .foldlM fun child member _ =>
      (bounds child (List.mem_of_mem_filter member)).bind fun _ => .refl _
  iterate 3
    exact .bind_child bounds

theorem deriveDepth_repeated (operator : LogicalOp) :
    Yields (deriveDepth first expr operator) (deriveDepth later expr operator) := by
  have sameToo := relationalChildren_repeated repeats valid stored
  unfold deriveDepth
  split
  · exact .refl _
  · rw [sameToo]
    exact .foldlM fun child member _ =>
      (repeats.relational child (among child (List.mem_of_mem_filter member))).bind fun _ => .refl _

theorem derivePartitions_repeated (operator : LogicalOp) :
    Yields (derivePartitions first expr operator) (derivePartitions later expr operator) := by
  have same := scalarChildren_repeated repeats valid stored
  have sameToo := relationalChildren_repeated repeats valid stored
  simp only [derivePartitions, same, sameToo, repeats.catalog]
  refine Yields.bind (gather_yields fun child member =>
    repeats.readScalar (among child (List.mem_of_mem_filter member))) fun _ => ?_
  exact gather_yields fun child member =>
    repeats.readRelational (among child (List.mem_of_mem_filter member))

end RelationalProperty

omit stored among

variable (headed : first.memo.LogicalFirst)
include headed

omit valid in
/-- The first logical member of a group is the same again. -/
theorem Context.Repeats.firstLogical {id : GroupId} {operator : LogicalOp}
    (found : first.memo.firstLogical id = .ok (expr, operator)) (relational : first.memo.Relational id) :
    later.memo.firstLogical id = .ok (expr, operator) ∧
      (∃ number : ExprId, first.memo.exprs[number]? = some expr) ∧
      first.memo.firstMember id = .ok expr := by
  obtain ⟨group, there, family⟩ := relational
  obtain ⟨number, other, logical, place, stored, shown⟩ := headed there family
  have member := Memo.firstMember_ok_iff.2 ⟨group, number, there, place, stored⟩
  have again := Memo.firstLogical_of_firstMember member shown
  obtain ⟨rfl, rfl⟩ := Prod.mk.inj (Except.ok.inj (found.symm.trans again))
  exact ⟨Memo.firstLogical_of_firstMember (repeats.grows.firstMember member) shown,
    ⟨number, stored⟩, member⟩

/-- **A relational property** that is derived is the same again. -/
theorem RelationalProperty.derive_repeated {id : GroupId} (relational : first.memo.Relational id)
    (below : ∀ child, first.memo.Needs id child → groups child) (known : Option Constraint)
    (property : RelationalProperty) :
    Yields (property.derive first id known) (property.derive later id known) := by
  have chosen : ∀ {β : Type} {next onward : Expr × LogicalOp → Except Failure β},
      (∀ expr operator, (∃ number : ExprId, first.memo.exprs[number]? = some expr) →
        (∀ child ∈ expr.children, groups child) →
        Yields (next (expr, operator)) (onward (expr, operator))) →
      Yields ((liftM (first.memo.firstLogical id) : Except Failure _) >>= next)
        ((liftM (later.memo.firstLogical id) : Except Failure _) >>= onward) := by
    intro β next onward each result given
    obtain ⟨⟨expr, operator⟩, found, given⟩ := bind_eq_ok_iff.1 given
    obtain ⟨again, stored, member⟩ :=
      repeats.firstLogical headed (lift_fault_eq_ok_iff.1 found) relational
    refine bind_eq_ok_iff.2 ⟨(expr, operator), lift_fault_eq_ok_iff.2 again, ?_⟩
    exact each expr operator stored (fun child there => below child ⟨expr, member, there⟩) result given
  cases property with
  | outputColumns =>
    exact chosen fun expr operator ⟨_, stored⟩ among =>
      (deriveOutput_repeated repeats valid stored among operator).lift
  | outerReferences =>
    exact chosen fun expr operator ⟨_, stored⟩ among =>
      (deriveOuter_repeated repeats valid stored among operator).lift
  | constraint =>
    exact chosen fun expr operator ⟨_, stored⟩ among =>
      deriveConstraint_repeated repeats valid stored among operator
  | maxCardinality =>
    refine .ite (.refl _) (chosen fun expr operator ⟨_, stored⟩ among => ?_)
    exact (deriveCardinality_repeated repeats valid stored among operator).lift
  | joinDepth =>
    exact chosen fun expr operator ⟨_, stored⟩ among =>
      (deriveDepth_repeated repeats valid stored among operator).lift
  | partitions =>
    exact chosen fun expr operator ⟨_, stored⟩ among =>
      (derivePartitions_repeated repeats valid stored among operator).lift

end Repeats

/-! ### Deriving anew -/

/-- A scalar property that is derived from the first member of its group. -/
def ScalarProperty.settle (context : Context) (id : GroupId) (property : ScalarProperty) :
    Except Fault property.Value := do
  property.derive context (← context.memo.firstMember id)

/-- A relational property that is derived anew, with the constraint where it matters. -/
def RelationalProperty.settle (context : Context) (id : GroupId) (property : RelationalProperty) :
    Except Failure property.Value :=
  if property = .maxCardinality then do
    property.derive context id (← derive context id none .constraint)
  else property.derive context id none

section Settle

variable {first later : Context} {groups : GroupId → Prop} {id : GroupId}
  (repeats : first.Repeats later groups) (valid : first.memo.Valid)
  (below : ∀ child, first.memo.Needs id child → groups child)
include repeats valid below

theorem ScalarProperty.settle_repeated (property : ScalarProperty) :
    Yields (property.settle first id) (property.settle later id) := by
  intro value given
  obtain ⟨expr, found, given⟩ := bind_eq_ok_iff.1 given
  obtain ⟨_, number, _, _, stored⟩ := Memo.firstMember_ok_iff.1 found
  refine bind_eq_ok_iff.2 ⟨expr, repeats.grows.firstMember found, ?_⟩
  exact property.derive_repeated repeats valid stored
    (fun child member => below child ⟨expr, found, member⟩) value given

theorem RelationalProperty.settle_repeated (headed : first.memo.LogicalFirst)
    (relational : first.memo.Relational id) (property : RelationalProperty) :
    Yields (property.settle first id) (property.settle later id) := by
  have again := fun known property =>
    derive_repeated repeats valid headed relational below known property
  exact .ite ((again none .constraint).bind fun known => again known property) (again none property)

end Settle

end Cascades
