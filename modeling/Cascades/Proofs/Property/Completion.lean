/-
**Every property can be found.**

A property follows from the properties of child groups, and those of a first member are older than
its group. So in a memo that is laid out, where relational groups begin with logical members, all
properties of all groups are found one group after another, and every sheet is complete in the end.
The number of joined tables may be greater than any count; nothing else can go wrong. Where those that
are known already are right, all are, and where each such number is a count, nothing goes wrong.

* `Complete`: a group all of whose properties are known; `Filled`: all groups below a number are;
* `Memo.AddsUp`, `KnowsTables`: numbers of joined tables that add up, and are known;
* `Memo.Counting`: what is asked of them, if anything;
* `ScalarProperty.derive_ends`, `RelationalProperty.derive_ends`: one property over complete groups;
* `Derivable`, `deriveAll_leads_of_derivable`: all properties of all groups, where each can be derived;
* `deriveAll_leads`: all properties of all groups of a memo that is laid out.
-/

import Cascades.Proofs.Meaning.Facts
import Cascades.Proofs.Statistics

namespace Cascades

variable {context : Context} {memo : Memo} {id : GroupId} {exact : Prop} {faulty : Fault → Prop}
  {tables : GroupId → Nat}

/-! ### Numbers of joined tables -/

/-- Numbers of joined tables that add up: one for a table, and for any other relation the sum of those
of its inputs. -/
structure Memo.AddsUp (memo : Memo) (tables : GroupId → Nat) : Prop where
  single : ∀ {id : GroupId} {expr : Expr} {table : Table} {columns : List Column},
    memo.firstLogical id = .ok (expr, .get table columns) → tables id = 1
  sum : ∀ {id : GroupId} {expr : Expr} {operator : LogicalOp},
    memo.firstLogical id = .ok (expr, operator) →
    (∀ table columns, operator ≠ .get table columns) →
      tables id = ((memo.relationalChildren expr).map tables).sum

/-- Numbers of joined tables add up where they are followed at all. They are followed, and all of them
are counts, where none may turn out too great. -/
structure Memo.Counting (exact : Prop) (faulty : Fault → Prop) (memo : Memo)
    (tables : GroupId → Nat) : Prop where
  adds : exact → memo.AddsUp tables
  small : ¬ faulty .sumTooGreat →
    exact ∧ ∀ id : GroupId, memo.Relational id → tables id ≤ greatestCount

/-- What a property says of the number of joined tables: it is right, and it is a count. -/
def RelationalProperty.Counts (tables : GroupId → Nat) (id : GroupId) :
    (property : RelationalProperty) → property.Value → Prop
  | .joinDepth, depth => depth = tables id ∧ depth ≤ greatestCount
  | _, _ => True

namespace Context

/-- The numbers of joined tables that are known are right, and nothing is known of groups that are not
there. -/
def KnowsTables (tables : GroupId → Nat) (context : Context) : Prop :=
  ∀ (id : GroupId) (property : RelationalProperty) (value : property.Value),
    (context.facts.relational id).get? property = some value →
      id < context.memo.groups.size ∧ property.Counts tables id value

/-- Nothing is known of groups without sheets. -/
theorem knowsTables_of_blank {catalog : Catalog} {guard : Guard} :
    ({ memo, catalog, guard } : Context).KnowsTables tables := by
  intro id property value known
  simp [Facts.relational] at known

/-- A number that is found keeps them right. -/
theorem KnowsTables.noteRelational (counted : context.KnowsTables tables) {group : GroupId}
    {property : RelationalProperty} {value : property.Value}
    (unknown : (context.facts.relational group).get? property = none)
    (inside : group < context.memo.groups.size) (right : property.Counts tables group value) :
    (context.noteRelational group property value).KnowsTables tables := by
  intro id other found known
  rw [relational_noteRelational] at known
  by_cases same : id = group
  · subst same
    rw [if_pos rfl] at known
    by_cases again : other = property
    · subst again
      rw [Sheet.get?_put unknown] at known
      cases known
      exact ⟨inside, right⟩
    · rw [Sheet.get?_put_ne again] at known
      exact counted id other found known
  · rw [if_neg same] at known
    exact counted id other found known

/-- So does a sheet that is completed. -/
theorem KnowsTables.complete (counted : context.KnowsTables tables) {group : GroupId}
    {values : RelationalProperties} (inside : group < context.memo.groups.size)
    (right : RelationalProperty.joinDepth.Counts tables group (values .joinDepth)) :
    (context.completeRelational group values).KnowsTables tables := by
  intro id other found known
  rw [relational_completeRelational] at known
  by_cases same : id = group
  · subst same
    rw [if_pos rfl] at known
    cases known
    refine ⟨inside, ?_⟩
    cases other with
    | joinDepth => exact right
    | _ => trivial
  · rw [if_neg same] at known
    exact counted id other found known

theorem KnowsTables.joinDepth (counted : context.KnowsTables tables) {values : RelationalProperties}
    (read : context.relationalProperties id = .ok values) :
    values .joinDepth = tables id ∧ values .joinDepth ≤ greatestCount :=
  (counted id .joinDepth _ (known_of_relationalProperties read .joinDepth)).2

/-! ### Complete groups -/

/-- All properties of a group are known. -/
structure Complete (context : Context) (id : GroupId) : Prop where
  scalar : context.memo.Scalar id → (context.scalar id).isComplete = true
  relational : context.memo.Relational id → (context.facts.relational id).isComplete = true

theorem Complete.scalarProperties (complete : context.Complete id)
    (scalar : context.memo.Scalar id) :
    Ends faulty (context.scalarProperties id) fun _ => True := by
  have known := complete.scalar scalar
  cases sheet : context.scalar id with
  | draft values =>
    rw [sheet] at known
    cases known
  | complete values =>
    rw [scalarProperties_ok scalar sheet]
    exact Ends.pure trivial

theorem Complete.relationalProperties (complete : context.Complete id)
    (relational : context.memo.Relational id) :
    Ends faulty (context.relationalProperties id) fun _ => True := by
  obtain ⟨group, there, family⟩ := relational
  have known := complete.relational ⟨group, there, family⟩
  unfold Context.relationalProperties
  refine Ends.bind_ok (Memo.group_ok_iff.2 there) ?_
  rw [family]
  cases sheet : context.facts.relational id with
  | draft values =>
    rw [sheet] at known
    cases known
  | complete values => exact Ends.pure trivial

end Context

theorem gather_ends {α : Type} [Ord α] [Std.TransOrd α] [Std.LawfulEqOrd α] {start : SortedSet α}
    {groups : List GroupId} {read : GroupId → Except Fault (SortedSet α)}
    (each : ∀ group ∈ groups, Ends faulty (read group) fun _ => True) :
    Ends faulty (gather start groups read) fun _ => True :=
  Ends.foldlM (fun group member _ _ =>
    (each group member).returns) trivial

/-! ### One property -/

section Derive

variable {expr : Expr} {number : ExprId} (valid : context.memo.Valid)
  (stored : context.memo.exprs[number]? = some expr)
  (ready : ∀ child ∈ expr.children, context.Complete child)
include ready

/-- The properties of a scalar child can be read. -/
theorem scalarChild_ends : ∀ child ∈ context.memo.scalarChildren expr,
    Ends faulty (context.scalarProperties child) fun _ => True := by
  intro child member
  obtain ⟨below, family⟩ := List.mem_filter.1 member
  exact (ready child below).scalarProperties (Memo.scalar_iff.2 family)

include valid stored

/-- The properties of a relational child can be read. -/
theorem relationalChild_ends : ∀ child ∈ context.memo.relationalChildren expr,
    Ends faulty (context.relationalProperties child) fun _ => True := by
  intro child member
  obtain ⟨below, family⟩ := List.mem_filter.1 member
  refine (ready child below).relationalProperties ?_
  exact Memo.relational_iff.2 ⟨valid.childExists stored below, by simpa using family⟩

omit ready in
theorem distinctAggregateCalls_ends :
    Ends faulty (distinctAggregateCalls context.memo expr) fun _ => True := by
  have first : ∀ {parent : Expr} {place : ExprId}, context.memo.exprs[place]? = some parent →
      ∀ child ∈ parent.children, Ends faulty (context.memo.firstMember child) fun found =>
        ∃ place : ExprId, context.memo.exprs[place]? = some found := by
    intro parent place there child member
    obtain ⟨found, done⟩ := valid.exists_firstMember (valid.childExists there member)
    obtain ⟨_, place, _, _, again⟩ := Memo.firstMember_ok_iff.1 done
    exact Ends.of_ok done ⟨place, again⟩
  unfold distinctAggregateCalls
  refine (Ends.mapM fun child member => (?_ : Ends faulty _ fun _ => True)).returns
  refine Ends.bind (first stored child member) fun element there => ?_
  obtain ⟨place, there⟩ := there
  split
  · refine (Ends.mapM fun value below => (?_ : Ends faulty _ fun _ => True)).returns
    refine Ends.bind (first there value below) fun found _ => ?_
    split
    · exact Ends.pure trivial
    · exact Ends.pure trivial
  · exact Ends.pure trivial

/-- **A scalar property** can be derived over complete groups. -/
theorem ScalarProperty.derive_ends (property : ScalarProperty) :
    Ends faulty (property.derive context expr) fun _ => True := by
  have scalars : ∀ child ∈ context.memo.scalarChildren expr,
      Ends faulty (context.scalarProperties child) fun _ => True := scalarChild_ends ready
  have relations : ∀ child ∈ context.memo.relationalChildren expr,
      Ends faulty (context.relationalProperties child) fun _ => True :=
    relationalChild_ends valid stored ready
  have any : ∀ {read : ScalarProperties → Bool}, Ends faulty
      ((context.memo.scalarChildren expr).anyM fun child =>
        return read (← context.scalarProperties child)) fun _ => True :=
    Ends.anyM fun child member => (scalars child member).returns
  cases property with
  | definedColumns => exact gather_ends fun child member => (scalars child member).returns
  | usedColumns =>
    refine Ends.bind (gather_ends fun child member => (scalars child member).returns) fun _ _ => ?_
    exact gather_ends fun child member => (relations child member).returns
  | setReturningColumns =>
    show Ends faulty (ScalarProperty.deriveSetReturning context expr) _
    unfold ScalarProperty.deriveSetReturning
    split
    · exact gather_ends fun child member => (scalars child member).returns
    · exact gather_ends fun child member => (scalars child member).returns
    · exact Ends.pure trivial
  | hasSubquery =>
    show Ends faulty (ScalarProperty.deriveHasSubquery context expr) _
    unfold ScalarProperty.deriveHasSubquery
    split
    · exact Ends.pure trivial
    · exact Ends.pure trivial
    · exact any
  | partitions =>
    refine Ends.bind (gather_ends fun child member => (scalars child member).returns) fun _ _ => ?_
    exact gather_ends fun child member => (relations child member).returns
  | functionTraits =>
    have each : ∀ child ∈ context.memo.scalarChildren expr, ∀ traits : FunctionTraits, True →
        Ends faulty (do
          return traits.combine ((← context.scalarProperties child) .functionTraits))
          fun _ => True :=
      fun child member _ _ => (scalars child member).returns
    exact Ends.foldlM each trivial
  | hasSetFunction => exact Ends.ite (Ends.pure trivial) any
  | distinctAggregates =>
    show Ends faulty (ScalarProperty.deriveDistinctAggregates context expr) _
    unfold ScalarProperty.deriveDistinctAggregates
    split
    · exact (distinctAggregateCalls_ends valid stored).returns
    · exact Ends.pure trivial
  | multipleDistinctAggregates =>
    show Ends faulty (ScalarProperty.deriveMultipleDistinct context expr) _
    unfold ScalarProperty.deriveMultipleDistinct
    split
    · exact (distinctAggregateCalls_ends valid stored).returns
    · exact Ends.pure trivial
  | hasArrayComparison =>
    show Ends faulty (ScalarProperty.deriveHasArrayComparison context expr) _
    unfold ScalarProperty.deriveHasArrayComparison
    split
    · exact Ends.pure trivial
    · exact any

end Derive

/-! ### Constraints of predicates -/

/-- The constraint of a predicate can be found, unless the guard refuses: the search was cancelled, or the
predicate is deeper than the levels that are left, of which there are no more than its number. -/
theorem Constraint.ofPredicateWithin_ends (valid : memo.Valid) (laid : memo.Laid) {guard : Guard}
    (room : Nat) : ∀ {id : GroupId}, memo.Scalar id →
      Ends (fun failure => failure = .abort guard.refusal ∧ (guard.cancelled = true ∨ room ≤ id))
        (ofPredicateWithin memo guard room id) fun _ => True := by
  induction room with
  | zero => exact fun _ => Ends.throw ⟨rfl, .inr (Nat.zero_le _)⟩
  | succ room ih =>
    intro id scalar
    obtain ⟨first, found⟩ := valid.exists_firstMember scalar.inside
    obtain ⟨_, number, _, _, stored⟩ := Memo.firstMember_ok_iff.1 found
    unfold ofPredicateWithin
    by_cases cancelled : guard.cancelled = true
    · rw [if_pos cancelled]
      exact Ends.throw ⟨rfl, .inl cancelled⟩
    rw [if_neg cancelled]
    refine Ends.bind_lift_ok found ?_
    -- A part that is too deep for the levels below is older, so the predicate is too deep as well.
    have below : ∀ part ∈ first.children, memo.Scalar part →
        Ends (fun failure => failure = .abort guard.refusal ∧
          (guard.cancelled = true ∨ room + 1 ≤ id)) (ofPredicateWithin memo guard room part)
          fun _ => True := by
      intro part member scalar
      have older := (valid.of_firstMember found).2 part member
      refine (ih scalar).allow fun failure cause => ⟨cause.1, cause.2.imp_right fun deep => ?_⟩
      exact Nat.lt_of_le_of_lt deep older
    split
    · rename_i operator binary
      obtain ⟨left, right, shown, _⟩ := laid.binary stored binary
      refine Ends.ite ?_ (Ends.pure trivial)
      refine Ends.bind_lift_ok (Expr.child_ok (by rw [shown]; rfl)) ?_
      exact Ends.bind_lift_ok (Expr.child_ok (by rw [shown]; rfl)) (Ends.pure trivial)
    · rename_i unary
      obtain ⟨operand, shown, _⟩ := laid.unary stored unary
      exact Ends.bind_lift_ok (Expr.child_ok (by rw [shown]; rfl)) (Ends.pure trivial)
    · rename_i unary
      obtain ⟨operand, shown, _⟩ := laid.unary stored unary
      exact Ends.bind_lift_ok (Expr.child_ok (by rw [shown]; rfl)) (Ends.pure trivial)
    · rename_i conjunction
      exact (Ends.mapM fun part member =>
        below part member (laid.and stored conjunction part member)).returns
    · rename_i disjunction
      exact (Ends.mapM_option fun part member =>
        below part member (laid.or stored disjunction part member)).returns
    · exact Ends.pure trivial

theorem constraintOfPredicate_ends (valid : context.memo.Valid) (laid : context.memo.Laid)
    {group : GroupId} (scalar : context.memo.Scalar group) :
    Ends (Failure.Allowed faulty) (RelationalProperty.constraintOfPredicate context group)
      fun _ => True := by
  refine Ends.returns ((Constraint.ofPredicateWithin_ends valid laid _ scalar).allow ?_)
  rintro failure ⟨rfl, _⟩
  exact Guard.refusal_stops

/-! ### Relational properties -/

section Relational

variable {expr : Expr} {number : ExprId} (valid : context.memo.Valid) (laid : context.memo.Laid)
  (stored : context.memo.exprs[number]? = some expr) {operator : LogicalOp}
  (logical : expr.operator = .logical operator)
  (ready : ∀ child ∈ expr.children, context.Complete child)
include ready

/-- The output columns of the relational child at a position. -/
theorem outputOf_ends {position : Nat} {input : GroupId}
    (place : expr.children[position]? = some input) (relational : context.memo.Relational input) :
    Ends faulty (do RelationalProperty.outputOf context (← expr.child position)) fun _ => True := by
  refine Ends.bind_ok (Expr.child_ok place) ?_
  exact ((ready _ (List.mem_of_getElem? place)).relationalProperties relational).returns

/-- What comes after the constraint of the relational child at a position. -/
theorem constraintAt_ends {α : Type} {next : List Constraint → Except Failure α} {position : Nat}
    {input : GroupId} (place : expr.children[position]? = some input)
    (relational : context.memo.Relational input)
    (rest : ∀ found, Ends (Failure.Allowed faulty) (next found) fun _ => True) :
    Ends (Failure.Allowed faulty) (do
      next (← RelationalProperty.constraintOf context
        (← (expr.child position : Except Fault GroupId)))) fun _ => True := by
  refine Ends.bind_lift_ok (Expr.child_ok place) ?_
  have complete := ready _ (List.mem_of_getElem? place)
  exact Ends.bind (Ends.lift (complete.relationalProperties relational)).returns
    fun found _ => rest found

omit ready in
/-- What comes after the constraint of the predicate at a position. -/
theorem predicateAt_ends (valid : context.memo.Valid) (laid : context.memo.Laid) {α : Type}
    {next : List Constraint → Except Failure α} {position : Nat} {group : GroupId}
    (place : expr.children[position]? = some group) (scalar : context.memo.Scalar group)
    (rest : ∀ found, Ends (Failure.Allowed faulty) (next found) fun _ => True) :
    Ends (Failure.Allowed faulty) (do
      next (← RelationalProperty.constraintOfPredicate context
        (← (expr.child position : Except Fault GroupId)))) fun _ => True := by
  refine Ends.bind_lift_ok (Expr.child_ok place) ?_
  exact Ends.bind (constraintOfPredicate_ends valid laid scalar) fun found _ => rest found

include valid stored

theorem deriveOuter_ends :
    Ends faulty (RelationalProperty.deriveOuter context expr operator) fun _ => True := by
  have scalars : ∀ child ∈ context.memo.scalarChildren expr,
      Ends faulty (context.scalarProperties child) fun _ => True := scalarChild_ends ready
  have relations : ∀ child ∈ context.memo.relationalChildren expr,
      ∀ sets : ColumnSet × ColumnSet, True → Ends faulty (do
        let properties ← context.relationalProperties child
        return (sets.1.union (properties .outerReferences),
          sets.2.union (properties .outputColumns))) fun _ => True :=
    fun child member sets _ => (relationalChild_ends valid stored ready child member).returns
  refine Ends.bind (gather_ends fun child member => (scalars child member).returns) fun _ _ => ?_
  exact Ends.bind (Ends.foldlM relations trivial) fun _ _ => Ends.pure trivial

theorem derivePartitions_ends :
    Ends faulty (RelationalProperty.derivePartitions context expr operator) fun _ => True := by
  have scalars : ∀ child ∈ context.memo.scalarChildren expr,
      Ends faulty (context.scalarProperties child) fun _ => True := scalarChild_ends ready
  have relations : ∀ child ∈ context.memo.relationalChildren expr,
      Ends faulty (context.relationalProperties child) fun _ => True :=
    relationalChild_ends valid stored ready
  refine Ends.bind (gather_ends fun child member => (scalars child member).returns) fun _ _ => ?_
  exact gather_ends fun child member => (relations child member).returns

omit valid stored ready in
/-- **Numbers of joined tables are added up** as long as their sum is a count. -/
theorem addDepths_ends {children : List GroupId} {depth : Nat}
    (each : ∀ child ∈ children, Ends faulty (context.relationalProperties child) fun _ => True)
    (knows : exact → context.KnowsTables tables) (bounded : depth ≤ greatestCount)
    (small : ¬ faulty .sumTooGreat → exact ∧ depth + (children.map tables).sum ≤ greatestCount) :
    Ends faulty (children.foldlM (fun depth child => do
      Count.add depth ((← context.relationalProperties child) .joinDepth)) depth) fun total =>
        exact → total = depth + (children.map tables).sum ∧ total ≤ greatestCount := by
  induction children generalizing depth with
  | nil => exact Ends.pure fun _ => ⟨rfl, bounded⟩
  | cons child children ih =>
    rw [List.map_cons, List.sum_cons, ← Nat.add_assoc] at small ⊢
    rw [List.foldlM_cons]
    cases read : context.relationalProperties child with
    | error cause =>
      have ends := each child List.mem_cons_self
      rw [read] at ends
      exact ends
    | ok values =>
      have right : exact → values .joinDepth = tables child := fun known =>
        ((knows known).joinDepth read).1
      show Ends faulty (Count.add depth (values .joinDepth) >>= _) _
      by_cases counts : depth + values .joinDepth ≤ greatestCount
      · have rest := ih (fun other member => each other (List.mem_cons_of_mem _ member)) counts
          fun proper => by
            obtain ⟨known, bound⟩ := small proper
            rw [right known]
            exact ⟨known, bound⟩
        refine Ends.bind_ok (Count.add_eq_ok_iff.2 ⟨rfl, counts⟩) (rest.mono ?_)
        intro total sum known
        rw [← right known]
        exact sum known
      · have overflow : faulty .sumTooGreat := by
          by_contra proper
          obtain ⟨known, bound⟩ := small proper
          rw [right known] at counts
          omega
        unfold Count.add
        rw [if_neg counts]
        exact overflow

/-- The number of joined tables is found, or it is no count. It is right where it is followed. -/
theorem deriveDepth_ends (found : context.memo.firstLogical id = .ok (expr, operator))
    (relational : context.memo.Relational id) (counting : context.memo.Counting exact faulty tables)
    (knows : exact → context.KnowsTables tables) :
    Ends faulty (RelationalProperty.deriveDepth context expr operator) fun depth =>
      exact → RelationalProperty.joinDepth.Counts tables id depth := by
  have total : ∀ {other : LogicalOp}, operator = other →
      (∀ table columns, other ≠ .get table columns) →
      Ends faulty ((context.memo.relationalChildren expr).foldlM (fun depth child => do
        Count.add depth ((← context.relationalProperties child) .joinDepth)) 0)
        fun depth => exact → depth = tables id ∧ depth ≤ greatestCount := by
    rintro _ rfl other
    have sum := fun known => (counting.adds known).sum found other
    refine (addDepths_ends (relationalChild_ends valid stored ready) knows (Nat.zero_le _)
      fun proper => ?_).mono fun depth added known => ?_
    · obtain ⟨known, bound⟩ := counting.small proper
      rw [Nat.zero_add, ← sum known]
      exact ⟨known, bound id relational⟩
    · rw [Nat.zero_add] at added
      rw [sum known]
      exact added known
  cases operator with
  | get => exact Ends.pure fun known => ⟨((counting.adds known).single found).symm, by decide⟩
  | _ => exact total rfl nofun

include laid logical

theorem deriveOutput_ends :
    Ends faulty (RelationalProperty.deriveOutput context expr operator) fun _ => True := by
  have layout := laid.logical valid.toLinked stored logical
  have scalars : ∀ child ∈ context.memo.scalarChildren expr,
      Ends faulty (context.scalarProperties child) fun _ => True := scalarChild_ends ready
  have defined : ∀ start, Ends faulty (RelationalProperty.addDefined context start expr)
      fun _ => True := fun start => gather_ends fun child member => (scalars child member).returns
  have all : Ends faulty (gather .empty (context.memo.relationalChildren expr)
      (RelationalProperty.outputOf context)) fun _ => True :=
    gather_ends fun child member => (relationalChild_ends valid stored ready child member).returns
  cases operator with
  | get => exact Ends.pure trivial
  | select | naryJoin | limit => exact all
  | aggregate keys => exact defined _
  | project =>
    obtain ⟨input, last, shown, relational, _⟩ := layout
    refine Ends.bind_ok (Expr.child_ok (by rw [shown]; rfl)) ?_
    have read : Ends faulty (context.relationalProperties _) fun _ => True :=
      (ready _ (by rw [shown]; exact List.mem_cons_self)).relationalProperties relational
    exact Ends.bind read.returns fun _ _ => defined _
  | join type =>
    obtain ⟨left, right, predicate, shown, relational, _⟩ := layout
    cases type with
    | semi | anti => exact outputOf_ends ready (by rw [shown]; rfl) relational
    | inner | left | right | full | cross => exact all

theorem deriveConstraint_ends :
    Ends (Failure.Allowed faulty) (RelationalProperty.deriveConstraint context expr operator)
      fun _ => True := by
  have layout := laid.logical valid.toLinked stored logical
  cases operator with
  | get => exact Ends.pure trivial
  | select =>
    obtain ⟨source, last, shown, relational, scalar⟩ := layout
    refine constraintAt_ends ready (by rw [shown]; rfl) relational fun _ => ?_
    exact predicateAt_ends valid laid (by rw [shown]; rfl) scalar fun _ => Ends.pure trivial
  | project | aggregate =>
    obtain ⟨source, last, shown, relational, _⟩ := layout
    exact constraintAt_ends ready (by rw [shown]; rfl) relational fun _ => Ends.pure trivial
  | limit offset count =>
    obtain ⟨source, shown, relational⟩ := layout
    exact constraintAt_ends ready (by rw [shown]; rfl) relational fun _ => Ends.pure trivial
  | naryJoin =>
    obtain ⟨first, others, last, shown, _, scalar⟩ := layout
    have inputs : ∀ group ∈ context.memo.relationalChildren expr,
        Ends (Failure.Allowed faulty) (RelationalProperty.constraintOf context group)
          fun _ => True :=
      fun group member => (Ends.lift (relationalChild_ends valid stored ready group member)).returns
    refine Ends.bind (Ends.mapM inputs) fun _ _ => ?_
    refine Ends.bind_lift_ok (Expr.lastChild_ok shown) ?_
    exact (constraintOfPredicate_ends valid laid scalar).returns
  | join type =>
    obtain ⟨left, right, last, shown, first, second, scalar⟩ := layout
    cases type with
    | inner | cross =>
      refine constraintAt_ends ready (by rw [shown]; rfl) first fun _ => ?_
      refine constraintAt_ends ready (by rw [shown]; rfl) second fun _ => ?_
      exact predicateAt_ends valid laid (by rw [shown]; rfl) scalar fun _ => Ends.pure trivial
    | left | semi | anti =>
      exact constraintAt_ends ready (by rw [shown]; rfl) first fun _ => Ends.pure trivial
    | right => exact constraintAt_ends ready (by rw [shown]; rfl) second fun _ => Ends.pure trivial
    | full => exact Ends.pure trivial

theorem deriveCardinality_ends :
    Ends faulty (RelationalProperty.deriveCardinality context expr operator) fun _ => True := by
  have layout := laid.logical valid.toLinked stored logical
  have bound : ∀ {group : GroupId}, group ∈ expr.children → context.memo.Relational group →
      Ends faulty (RelationalProperty.cardinalityOf context group) fun _ => True :=
    fun member relational => ((ready _ member).relationalProperties relational).returns
  have first : ∀ {input : GroupId}, expr.children[0]? = some input →
      context.memo.Relational input →
      Ends faulty (do RelationalProperty.cardinalityOf context (← expr.child 0)) fun _ => True := by
    intro input place relational
    refine Ends.bind_ok (Expr.child_ok place) ?_
    exact bound (List.mem_of_getElem? place) relational
  have product : Ends faulty (RelationalProperty.deriveCardinality context expr .naryJoin)
      fun _ => True := by
    refine Ends.foldlM (fun child member product (_ : True) => ?_) trivial
    refine Ends.bind (relationalChild_ends valid stored ready child member).returns fun _ _ => ?_
    split
    · exact Ends.pure trivial
    · exact Ends.pure trivial
  cases operator with
  | get => exact Ends.pure trivial
  | select =>
    obtain ⟨source, last, shown, relational, _⟩ := layout
    exact first (by rw [shown]; rfl) relational
  | project =>
    obtain ⟨source, last, shown, relational, _⟩ := layout
    exact first (by rw [shown]; rfl) relational
  | aggregate keys =>
    obtain ⟨source, last, shown, relational, _⟩ := layout
    cases keys with
    | nil => exact Ends.pure trivial
    | cons => exact first (by rw [shown]; rfl) relational
  | limit offset count =>
    obtain ⟨source, shown, relational⟩ := layout
    refine Ends.bind_ok (Expr.child_ok (by rw [shown]; rfl)) ?_
    refine Ends.bind (bound (by simp [shown]) relational) fun _ _ => ?_
    split
    · exact Ends.pure trivial
    · exact Ends.pure trivial
  | naryJoin => exact product
  | join type =>
    obtain ⟨left, right, predicate, shown, relational, _⟩ := layout
    cases type with
    | semi | anti => exact first (by rw [shown]; rfl) relational
    | inner | left | right | full | cross => exact product

end Relational

/-- **A relational property** can be derived over complete groups. -/
theorem RelationalProperty.derive_ends (valid : context.memo.Valid) (laid : context.memo.Laid)
    (headed : context.memo.LogicalFirst) (relational : context.memo.Relational id)
    (ready : ∀ child < id, context.Complete child)
    (counting : context.memo.Counting exact faulty tables)
    (knows : exact → context.KnowsTables tables)
    (known : Option Constraint) (property : RelationalProperty) :
    Ends (Failure.Allowed faulty) (property.derive context id known) fun value =>
      exact → property.Counts tables id value := by
  obtain ⟨number, expr, operator, found, stored, logical, _, older⟩ :=
    headed.firstLogical valid.toLinked relational
  have below : ∀ child ∈ expr.children, context.Complete child :=
    fun child member => ready child (older child member)
  have plain : ∀ {property : RelationalProperty},
      Ends (Failure.Allowed faulty) (property.derive context id known) (fun _ => True) →
        property ≠ .joinDepth →
        Ends (Failure.Allowed faulty) (property.derive context id known) fun value =>
          exact → property.Counts tables id value := by
    intro property ends other
    refine ends.mono fun value _ _ => ?_
    cases property with
    | joinDepth => exact absurd rfl other
    | _ => trivial
  cases property with
  | outputColumns =>
    refine plain (Ends.bind_lift_ok found ?_) nofun
    exact Ends.lift (deriveOutput_ends valid laid stored logical below)
  | outerReferences =>
    refine plain (Ends.bind_lift_ok found ?_) nofun
    exact Ends.lift (deriveOuter_ends valid stored below)
  | constraint =>
    refine plain (Ends.bind_lift_ok found ?_) nofun
    exact deriveConstraint_ends valid laid stored logical below
  | maxCardinality =>
    refine plain (Ends.ite (Ends.pure trivial) (Ends.bind_lift_ok found ?_)) nofun
    exact Ends.lift (deriveCardinality_ends valid laid stored logical below)
  | joinDepth =>
    refine Ends.bind_lift_ok found ?_
    exact Ends.lift (deriveDepth_ends valid stored below found relational counting knows)
  | partitions =>
    refine plain (Ends.bind_lift_ok found ?_) nofun
    exact Ends.lift (derivePartitions_ends valid stored below)

/-! ### All properties of a group -/

namespace Context

open Cascades.Action

/-- All groups below a number are complete, on a given memo. The numbers of joined tables that are
known are right where they are followed. -/
structure Filled (exact : Prop) (tables : GroupId → Nat) (memo : Memo) (count : Nat)
    (context : Context) : Prop where
  memo_eq : context.memo = memo
  complete : ∀ id < count, context.Complete id
  counted : exact → context.KnowsTables tables

/-- What is found of other groups leaves those below a number complete. -/
theorem Filled.others {group : GroupId} {after : Context}
    (filled : Filled exact tables memo group context) (same : after.memo = context.memo)
    (scalar : ∀ id < group, after.scalar id = context.scalar id)
    (relational : ∀ id < group, after.facts.relational id = context.facts.relational id)
    (counted : exact → after.KnowsTables tables) : Filled exact tables memo group after where
  memo_eq := same.trans filled.memo_eq
  complete id below :=
    { scalar := fun family => by
        rw [scalar id below]
        exact (filled.complete id below).scalar (same ▸ family)
      relational := fun family => by
        rw [relational id below]
        exact (filled.complete id below).relational (same ▸ family) }
  counted

section Scalar

variable {group : GroupId} {sheet : SheetId} (filled : Filled exact tables memo group context)
  (linked : memo.Linked) (own : memo.sheet? group = some sheet)
include filled linked own

theorem Filled.noteScalar {property : ScalarProperty} {value : property.Value} :
    Filled exact tables memo group (context.noteScalar sheet property value) := by
  obtain ⟨rfl, complete, counted⟩ := filled
  exact Filled.others ⟨rfl, complete, counted⟩ rfl
    (fun id below => scalar_noteScalar_ne linked own (Nat.ne_of_lt below)) (fun _ _ => rfl) counted

theorem Filled.completeScalar {values : ScalarProperties} :
    Filled exact tables memo group (context.completeScalar sheet values) := by
  obtain ⟨rfl, complete, counted⟩ := filled
  exact Filled.others ⟨rfl, complete, counted⟩ rfl
    (fun id below => scalar_completeScalar_ne linked own (Nat.ne_of_lt below)) (fun _ _ => rfl) counted

end Scalar

theorem Filled.noteRelational {group : GroupId} (filled : Filled exact tables memo group context)
    {property : RelationalProperty} {value : property.Value}
    (counted : exact → (context.noteRelational group property value).KnowsTables tables) :
    Filled exact tables memo group (context.noteRelational group property value) :=
  filled.others rfl (fun _ _ => rfl)
    (fun _ below => relational_noteRelational.trans (if_neg (Nat.ne_of_lt below))) counted

theorem Filled.completeRelational {group : GroupId}
    (filled : Filled exact tables memo group context) {values : RelationalProperties}
    (counted : exact → (context.completeRelational group values).KnowsTables tables) :
    Filled exact tables memo group (context.completeRelational group values) :=
  filled.others rfl (fun _ _ => rfl)
    (fun _ below => relational_completeRelational.trans (if_neg (Nat.ne_of_lt below))) counted

/-- What is done on such a context may be done on this one. -/
theorem Filled.leads {α : Type} {count : Nat} (filled : Filled exact tables memo count context)
    {action : Action Context α} {finish : α → Context → Prop}
    (leads : Leads faulty (Filled exact tables memo count) action finish) :
    Leads faulty (· = context) action finish :=
  leads.of_start fun _ same => same.symm ▸ filled

/-- With one more group complete, all groups below the next number are. -/
theorem Filled.succ {count : Nat} (filled : Filled exact tables memo count context)
    (last : context.Complete count) : Filled exact tables memo (count + 1) context where
  memo_eq := filled.memo_eq
  complete id below := by
    rcases Nat.lt_succ_iff_lt_or_eq.1 below with before | rfl
    · exact filled.complete id before
    · exact last
  counted := filled.counted

/-- The numbers of joined tables of complete groups are counts. -/
theorem Filled.tables_le {count : Nat} (filled : Filled exact tables memo count context)
    (known : exact) (below : id < count) (relational : memo.Relational id) :
    tables id ≤ greatestCount := by
  obtain ⟨rfl, complete, counted⟩ := filled
  have ends : Ends (fun _ => False) (context.relationalProperties id) fun _ => True :=
    (complete id below).relationalProperties relational
  obtain ⟨values, read, _⟩ := ends.exists_ok
  obtain ⟨same, counts⟩ := (counted known).joinDepth read
  exact same ▸ counts

section Compute

variable {Value : Type} {count : Context → Context} {find : Action Context Value}
  {keep : Value → Context → Context} {gives : Value → Prop} {finish : Value → Context → Prop}
  (leads : ∀ state, Leads faulty (· = state) find fun value last => gives value ∧ last = state)
  (fits : ∀ value, gives value → finish value (keep value (count context)))
include leads fits

theorem compute_leads : Leads faulty (· = context) (compute count find keep) finish := by
  have counted : Leads faulty (· = context) (modify count : Action Context PUnit)
      fun _ => (· = count context) := Leads.modify fun _ same => congrArg count same
  have kept : ∀ value, Leads faulty (fun last => gives value ∧ last = count context)
      (modify (keep value) : Action Context PUnit) fun _ => finish value := by
    refine fun value => Leads.modify ?_
    rintro _ ⟨given, rfl⟩
    exact fits value given
  refine Leads.bind counted fun _ => ?_
  refine Leads.bind (leads _) fun value => ?_
  exact Leads.bind (kept value) fun _ => Leads.pure fun _ => id

theorem tryCompute_leads : Leads faulty (· = context) (tryCompute count find keep) finish := by
  have counted : ∀ value, Leads faulty (fun last => gives value ∧ last = context)
      (modify count : Action Context PUnit) fun _ last => gives value ∧ last = count context := by
    refine fun value => Leads.modify ?_
    rintro _ ⟨given, rfl⟩
    exact ⟨given, rfl⟩
  have kept : ∀ value, Leads faulty (fun last => gives value ∧ last = count context)
      (modify (keep value) : Action Context PUnit) fun _ => finish value := by
    refine fun value => Leads.modify ?_
    rintro _ ⟨given, rfl⟩
    exact fits value given
  refine Leads.bind (leads context) fun value => ?_
  refine Leads.bind (counted value) fun _ => ?_
  exact Leads.bind (kept value) fun _ => Leads.pure fun _ => id

end Compute

section Scalar

variable (valid : memo.Valid) {expr : Expr} {number : ExprId} {sheet : SheetId}
  (stored : memo.exprs[number]? = some expr) (first : expr.position = 0)
  (own : expr.sheet = some sheet)
include valid stored first own

theorem readScalar_leads (property : ScalarProperty) :
    Leads faulty (Filled exact tables memo expr.group) (readScalar number property)
      fun _ => Filled exact tables memo expr.group := by
  refine Leads.bind_get fun context filled => ?_
  obtain ⟨rfl, complete, counted⟩ := filled
  have kept : Filled exact tables context.memo expr.group context := ⟨rfl, complete, counted⟩
  refine Leads.bind_ok (scalarExpr_ok_iff.2 ⟨stored, own⟩) ?_
  dsimp only
  split
  · refine Leads.pure fun _ same => ?_
    subst same
    exact kept
  · have ready : ∀ child ∈ expr.children, context.Complete child :=
      fun child member => complete child (valid.older stored first member)
    refine compute_leads (fun _ => Leads.lift (ScalarProperty.derive_ends valid stored ready property))
      fun value _ => ?_
    exact kept.noteScalar valid.toLinked ((valid.sheet_eq stored).symm.trans own)

/-- **All properties of a scalar group** are found through its first member. -/
theorem deriveScalar_leads :
    Leads faulty (Filled exact tables memo expr.group) (deriveScalar number)
      fun _ => Filled exact tables memo (expr.group + 1) := by
  have shared : memo.sheet? expr.group = some sheet := (valid.sheet_eq stored).symm.trans own
  have unrelated : ¬ memo.Relational expr.group := by
    intro relational
    have family := (Memo.relational_iff.1 relational).2
    rw [Memo.scalar_iff.1 (valid.scalar_of_sheet? shared)] at family
    cases family
  refine Leads.bind_get fun context filled => ?_
  obtain ⟨rfl, complete, counted⟩ := filled
  have kept : Filled exact tables context.memo expr.group context := ⟨rfl, complete, counted⟩
  refine Leads.bind_ok (scalarExpr_ok_iff.2 ⟨stored, own⟩) ?_
  dsimp only
  by_cases done : (context.facts.scalar sheet).isComplete = true
  · rw [if_pos done]
    refine Leads.pure fun _ same => ?_
    subst same
    refine kept.succ ⟨fun _ => ?_, fun relational => absurd relational unrelated⟩
    rw [scalar_eq shared]
    exact done
  · rw [if_neg done]
    refine Leads.bind_abort Guard.check_ends fun _ _ => ?_
    refine kept.leads ?_
    iterate 10
      refine Leads.bind (readScalar_leads valid stored first own _) fun _ => ?_
    refine Leads.modify fun last filled => ?_
    refine (filled.completeScalar valid.toLinked shared).succ ⟨fun _ => ?_, fun relational => ?_⟩
    · rw [scalar_eq (filled.memo_eq ▸ shared), scalar_completeScalar, if_pos rfl]
      rfl
    · exact absurd (filled.memo_eq ▸ relational) unrelated

end Scalar

/-- Every property of a relational group can be derived once all groups below it are complete. -/
def Derivable (exact : Prop) (faulty : Fault → Prop) (tables : GroupId → Nat) (memo : Memo)
    (id : GroupId) : Prop :=
  ∀ {context : Context}, Filled exact tables memo id context →
    ∀ (known : Option Constraint) (property : RelationalProperty),
      Ends (Failure.Allowed faulty) (property.derive context id known) fun value =>
        exact → property.Counts tables id value

theorem derivable_of_laid (valid : memo.Valid) (laid : memo.Laid) (headed : memo.LogicalFirst)
    (counting : memo.Counting exact faulty tables) (relational : memo.Relational id) :
    Derivable exact faulty tables memo id := by
  rintro context ⟨rfl, complete, counted⟩ known property
  exact RelationalProperty.derive_ends valid laid headed relational complete counting counted known
    property

section Relational

variable (relational : memo.Relational id) (derivable : Derivable exact faulty tables memo id)
include relational derivable

theorem readRelationalWith_leads (known : Option Constraint) (property : RelationalProperty) :
    Leads faulty (Filled exact tables memo id) (readRelationalWith id known property)
      fun value context => Filled exact tables memo id context ∧
        (exact → property.Counts tables id value) := by
  refine Leads.bind_get fun context filled => ?_
  obtain ⟨rfl, complete, counted⟩ := filled
  have kept : Filled exact tables context.memo id context := ⟨rfl, complete, counted⟩
  have sheet : context.relationalSheet id = .ok (context.facts.relational id) :=
    relationalSheet_ok_iff.2 ⟨relational, rfl⟩
  refine Leads.bind_ok sheet ?_
  split
  · rename_i value found
    refine Leads.pure fun _ same => ?_
    subst same
    exact ⟨kept, fun known => (counted known id property value found).2⟩
  · rename_i unknown
    have found := fun state : Context =>
      (Leads.lift_failure (derivable kept known property) : Leads faulty (· = state) _ _)
    have keeps : ∀ value, (exact → property.Counts tables id value) →
        Filled exact tables context.memo id (context.noteRelational id property value) ∧
          (exact → property.Counts tables id value) :=
      fun value right => ⟨kept.noteRelational fun known =>
        (counted known).noteRelational unknown relational.inside (right known), right⟩
    split
    · exact tryCompute_leads found keeps
    · exact compute_leads found keeps

theorem readRelational_leads (property : RelationalProperty) :
    Leads faulty (Filled exact tables memo id) (readRelational id property)
      fun value context => Filled exact tables memo id context ∧
        (exact → property.Counts tables id value) := by
  have last := fun known => readRelationalWith_leads relational derivable known property
  refine Leads.bind_get fun context filled => ?_
  obtain ⟨rfl, complete, counted⟩ := filled
  have kept : Filled exact tables context.memo id context := ⟨rfl, complete, counted⟩
  have sheet : context.relationalSheet id = .ok (context.facts.relational id) :=
    relationalSheet_ok_iff.2 ⟨relational, rfl⟩
  refine Leads.bind_ok sheet ?_
  refine kept.leads ?_
  show Leads faulty (Filled exact tables context.memo id)
    (if property = .maxCardinality ∧ ((context.facts.relational id).get? property).isNone then
      readRelationalWith id none .constraint >>= fun known => readRelationalWith id known property
    else pure none >>= fun known => readRelationalWith id known property) _
  split
  · refine Leads.bind (readRelationalWith_leads relational derivable none _) ?_
    exact fun known => (last known).of_start fun _ found => found.1
  · exact Leads.bind (Leads.pure fun _ filled => filled) last

/-- **All properties of a relational group** are found. -/
theorem deriveRelational_leads :
    Leads faulty (Filled exact tables memo id) (deriveRelational id)
      fun _ => Filled exact tables memo (id + 1) := by
  have unscalar : ¬ memo.Scalar id := by
    intro scalar
    have family := (Memo.relational_iff.1 relational).2
    rw [Memo.scalar_iff.1 scalar] at family
    cases family
  refine Leads.bind_get fun context filled => ?_
  obtain ⟨rfl, complete, counted⟩ := filled
  have kept : Filled exact tables context.memo id context := ⟨rfl, complete, counted⟩
  have sheet : context.relationalSheet id = .ok (context.facts.relational id) :=
    relationalSheet_ok_iff.2 ⟨relational, rfl⟩
  refine Leads.bind_ok sheet ?_
  by_cases done : (context.facts.relational id).isComplete = true
  · rw [if_pos done]
    refine Leads.pure fun _ same => ?_
    subst same
    exact kept.succ ⟨fun scalar => absurd scalar unscalar, fun _ => done⟩
  · rw [if_neg done]
    refine Leads.bind_abort Guard.check_ends fun _ _ => ?_
    refine kept.leads ?_
    have read : ∀ property {β : Type} {next : property.Value → Action Context β}
        {finish : β → Context → Prop},
        (∀ value, (exact → property.Counts tables id value) →
          Leads faulty (Filled exact tables context.memo id) (next value) finish) →
        Leads faulty (Filled exact tables context.memo id) (readRelational id property >>= next)
          finish := fun property _ _ _ rest =>
      Leads.bind (readRelational_leads relational derivable property)
        fun value before found => rest value found.2 before found.1
    refine read .outputColumns fun _ _ => read .outerReferences fun _ _ => ?_
    refine read .constraint fun _ _ => read .maxCardinality fun _ _ => ?_
    refine read .joinDepth fun _ depth => read .partitions fun _ _ => ?_
    refine Leads.modify fun last filled => ?_
    refine (filled.completeRelational fun known => ?_).succ ⟨fun scalar => ?_, fun _ => ?_⟩
    · exact (filled.counted known).complete (filled.memo_eq ▸ relational.inside) (depth known)
    · exact absurd (filled.memo_eq ▸ scalar) unscalar
    · rw [relational_completeRelational, if_pos rfl]
      rfl

end Relational

/-! ### All groups -/

section All

variable (valid : memo.Valid) (headed : memo.LogicalFirst)
  (derivable : ∀ {id : GroupId}, memo.Relational id → Derivable exact faulty tables memo id)
include valid headed derivable

theorem deriveGroup_leads (inside : id < memo.groups.size) :
    Leads faulty (Filled exact tables memo id) (deriveGroup id)
      fun _ => Filled exact tables memo (id + 1) := by
  refine Leads.bind_get fun context filled => ?_
  obtain ⟨rfl, complete, counted⟩ := filled
  have kept : Filled exact tables context.memo id context := ⟨rfl, complete, counted⟩
  refine Leads.bind_abort Guard.check_ends fun _ _ => ?_
  obtain ⟨group, there⟩ := Memo.group_of_lt inside
  refine Leads.bind_ok (Memo.group_ok_iff.2 there) ?_
  cases family : group.isScalar with
  | true =>
    obtain ⟨number, place⟩ : ∃ number, group.members[0]? = some number :=
      ⟨_, Array.getElem?_eq_getElem (valid.inhabited there)⟩
    obtain ⟨expr, stored, rfl, first⟩ := valid.listed there place
    obtain ⟨sheet, shared⟩ := valid.exists_sheet ⟨group, there, family⟩
    refine Leads.bind_ok (Group.first_ok_iff.2 place) ?_
    exact kept.leads (deriveScalar_leads valid stored first ((valid.sheet_eq stored).trans shared))
  | false =>
    have relational : context.memo.Relational id := ⟨group, there, family⟩
    have some : (context.memo.logicalMembers group).isEmpty = false := by
      obtain ⟨first, expr, operator, place, stored, logical⟩ := headed there family
      have member : first ∈ context.memo.logicalMembers group :=
        List.mem_filter.2 ⟨Array.mem_toList_iff.2 (Array.mem_of_getElem? place),
          Memo.hasOperator_iff.2 ⟨expr, stored, by rw [logical]; rfl⟩⟩
      exact List.isEmpty_eq_false_iff.2 (List.ne_nil_of_mem member)
    rw [if_neg Bool.false_ne_true, some, if_neg Bool.false_ne_true]
    exact kept.leads (deriveRelational_leads relational (derivable relational))

/-- All properties of all groups below a number are found. -/
theorem deriveBelow_leads {count : Nat} (inside : count ≤ memo.groups.size) :
    Leads faulty
      (fun context => context.memo = memo ∧ (exact → context.KnowsTables tables))
      ((List.range count).forM deriveGroup) fun _ => Filled exact tables memo count := by
  refine Leads.of_start (Leads.forM_range fun id below => ?_) fun context start => ?_
  · exact deriveGroup_leads valid headed derivable (Nat.lt_of_lt_of_le below inside)
  · exact ⟨start.1, fun _ none => absurd none (Nat.not_lt_zero _), start.2⟩

theorem deriveAll_leads_of_derivable :
    Leads faulty
      (fun context => context.memo = memo ∧ (exact → context.KnowsTables tables))
      deriveAll fun _ => Filled exact tables memo memo.groups.size := by
  refine Leads.bind_get fun context start => ?_
  have pass := deriveBelow_leads valid headed derivable (Nat.le_refl memo.groups.size)
  rw [start.1]
  exact pass.of_start fun _ same => same.symm ▸ start

end All

/-- **All properties of all groups** are found, unless the search is stopped or there are more joined
tables than can be counted. -/
theorem deriveAll_leads (valid : memo.Valid) (laid : memo.Laid) (headed : memo.LogicalFirst)
    (counting : memo.Counting exact faulty tables) :
    Leads faulty
      (fun context => context.memo = memo ∧ (exact → context.KnowsTables tables))
      deriveAll fun _ => Filled exact tables memo memo.groups.size :=
  deriveAll_leads_of_derivable valid headed (derivable_of_laid valid laid headed counting)

end Context

end Cascades
