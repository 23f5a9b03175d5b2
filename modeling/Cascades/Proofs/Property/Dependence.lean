/-
**What a group depends on.**

The columns that a scalar uses, and those that a relation takes from outside, are derived from sets of
columns alone: what an operator takes from outside is what is used below it and made by none of its
inputs. So a column is lost that one input takes from outside while an input makes a column of the same
number. Where that happens nowhere below a group, the group depends on no other column of the environment
than those that are derived.

* `Memo.behaviour`: what a group does in an environment;
* `Context.Unhidden`: nowhere below a group is a column lost; `Fresh.confined`: then the group only
  depends on what it takes from outside;
* `dependencies_sound`: environments that agree on what is derived give the same value and the same rows;
* `dependencies_unsound`: they need not where a column is lost.
-/

import Cascades.Proofs.Meaning.Behaviour
import Cascades.Proofs.Property.Profile
import Mathlib.Logic.Relation

namespace Cascades

variable {V : Type} [DecidableEq V] {world : World V}

/-! ### Behaviours of groups -/

namespace Memo

variable {memo : Memo} {id : GroupId} {expr : Expr}

/-- **What a group does in an environment.** -/
def behaviour (world : World V) (memo : Memo) : GroupId → Behaviour V :=
  memo.fold world.behaviour .nothing

theorem Linked.behaviour_eq (linked : memo.Linked) (found : memo.firstMember id = .ok expr) :
    memo.behaviour world id =
      world.behaviour expr.operator (expr.children.map (memo.behaviour world)) :=
  linked.fold_eq found

theorem Valid.scope_behaviour (valid : memo.Valid) (catalog : Catalog) :
    ∀ {id : GroupId}, id < memo.groups.size →
      (memo.behaviour world id).scope = (memo.profile catalog id).scope := by
  intro id
  induction id using Nat.strongRecOn with
  | ind id ih =>
    intro inside
    obtain ⟨expr, found⟩ := valid.exists_firstMember inside
    obtain ⟨_, number, _, _, stored⟩ := firstMember_ok_iff.1 found
    obtain ⟨_, older⟩ := valid.of_firstMember found
    rw [valid.behaviour_eq found, World.scope_behaviour, valid.scope_eq catalog found, List.map_map]
    refine congrArg _ (List.map_congr_left fun child member => ?_)
    exact ih child (older child member) (valid.childExists stored member)

end Memo

/-! ### What was read -/

/-- All groups were read whose sets are gathered. -/
theorem gather_read {α β : Type} [Ord α] [Std.TransOrd α] [Std.LawfulEqOrd α]
    {start found : SortedSet α} {groups : List GroupId} {read : GroupId → Except Fault β}
    {view : β → SortedSet α}
    (done : gather start groups (fun group => return view (← read group)) = .ok found) :
    ∀ group ∈ groups, ∃ values, read group = .ok values := by
  intro group member
  obtain ⟨_, _, step⟩ := foldlM_step done group member
  obtain ⟨_, given, _⟩ := bind_eq_ok_iff.1 step
  obtain ⟨values, read, _⟩ := bind_eq_ok_iff.1 given
  exact ⟨values, read⟩

namespace Context

variable {context : Context} {id : GroupId} {expr : Expr}

/-- Children whose properties were read are complete. -/
theorem complete_of_read
    (scalars : ∀ child ∈ context.memo.scalarChildren expr, ∃ values,
      context.scalarProperties child = .ok values)
    (relations : ∀ child ∈ context.memo.relationalChildren expr, ∃ values,
      context.relationalProperties child = .ok values) :
    ∀ child ∈ expr.children, context.Complete child := by
  refine fun child member => ⟨fun scalar => ?_, fun relational => ?_⟩
  · obtain ⟨values, read⟩ := scalars child (List.mem_filter.2 ⟨member, Memo.scalar_iff.1 scalar⟩)
    rw [(scalarProperties_cases read).2]
    rfl
  · have family := (Memo.relational_iff.1 relational).2
    obtain ⟨values, read⟩ := relations child (List.mem_filter.2 ⟨member, by rw [family]; rfl⟩)
    rw [(relationalProperties_cases read).2]
    rfl

section Fresh

variable (fresh : context.Fresh) (found : context.memo.firstMember id = .ok expr)
include fresh found

/-- The columns that a relation takes from outside are derived from its first member. -/
theorem Fresh.outer_derived {outer : ColumnSet}
    (known : (context.facts.relational id).get? .outerReferences = some outer) :
    ∃ operator, expr.operator = .logical operator ∧
      RelationalProperty.deriveOuter context.ample expr operator = .ok outer := by
  obtain ⟨operator, logical, first, derived⟩ := fresh.derive_relational found known nofun
  exact ⟨operator, logical, derived_from_first first derived⟩

/-- Where the columns that a scalar uses are known, the groups below are complete. -/
theorem Fresh.complete_of_used {used : ColumnSet}
    (known : (context.scalar id).get? .usedColumns = some used) :
    ∀ child ∈ expr.children, context.Complete child := by
  obtain ⟨_, scalars, relations⟩ := bind_eq_ok_iff.1 (fresh.derive_scalar found known)
  exact complete_of_read (gather_read scalars) (gather_read relations)

/-- Where the columns that a relation takes from outside are known, the groups below are complete. -/
theorem Fresh.complete_of_outer {outer : ColumnSet}
    (known : (context.facts.relational id).get? .outerReferences = some outer) :
    ∀ child ∈ expr.children, context.Complete child := by
  obtain ⟨operator, _, derived⟩ := fresh.outer_derived found known
  obtain ⟨_, scalars, derived⟩ := bind_eq_ok_iff.1 derived
  obtain ⟨_, relations, _⟩ := bind_eq_ok_iff.1 derived
  refine complete_of_read (gather_read scalars) fun child member => ?_
  obtain ⟨_, _, step⟩ := foldlM_step relations child member
  obtain ⟨values, read, _⟩ := bind_eq_ok_iff.1 step
  exact ⟨values, read⟩

/-- Below a complete group all groups are complete. -/
theorem Fresh.complete_children (complete : context.Complete id) :
    ∀ child ∈ expr.children, context.Complete child := by
  obtain ⟨group, _, there, _⟩ := Memo.firstMember_ok_iff.1 found
  cases family : group.isScalar with
  | true =>
    obtain ⟨values, sheet⟩ := Sheet.exists_of_isComplete (complete.scalar ⟨group, there, family⟩)
    exact fresh.complete_of_used found (by rw [sheet]; rfl)
  | false =>
    obtain ⟨values, sheet⟩ :=
      Sheet.exists_of_isComplete (complete.relational ⟨group, there, family⟩)
    exact fresh.complete_of_outer found (by rw [sheet]; rfl)

end Fresh

/-! ### Groups without a hidden column -/

/-- **No column is hidden below a group**: wherever relations are inputs of one operator, none of them
takes a column from outside that one of them makes. -/
def Unhidden (context : Context) (id : GroupId) : Prop :=
  ∀ (below : GroupId) (expr : Expr), Relation.ReflTransGen context.memo.Needs id below →
    context.memo.firstMember below = .ok expr → expr.operator.isScalar = false →
    ∀ taker ∈ context.memo.relationalChildren expr, ∀ source ∈ context.memo.relationalChildren expr,
    ∀ taken made, context.relationalProperties taker = .ok taken →
      context.relationalProperties source = .ok made →
      ∀ column, column ∈ taken .outerReferences → ¬ column ∈ made .outputColumns

theorem Unhidden.below {child : GroupId} (unhidden : context.Unhidden id)
    (needs : context.memo.Needs id child) : context.Unhidden child :=
  fun below expr path => unhidden below expr (.head needs path)

/-- Whether no column is hidden at any expression of the memo. -/
def isUnhidden (context : Context) : Bool :=
  context.memo.exprs.all fun expr =>
    let relations := context.memo.relationalChildren expr
    relations.all fun taker => relations.all fun source =>
      match context.relationalProperties taker, context.relationalProperties source with
      | .ok taken, .ok made =>
        (taken .outerReferences).toList.all fun column => decide (¬ column ∈ made .outputColumns)
      | _, _ => true

theorem unhidden_of_isUnhidden (checked : context.isUnhidden = true) : context.Unhidden id := by
  intro below expr _ found _ taker takerIn source sourceIn taken made takerRead sourceRead column taking
  obtain ⟨_, number, _, _, stored⟩ := Memo.firstMember_ok_iff.1 found
  have here := List.all_eq_true.1
    (List.all_eq_true.1 (Array.all_eq_true_iff_forall_mem.1 checked expr (Array.mem_of_getElem? stored))
      taker takerIn) source sourceIn
  rw [takerRead, sourceRead] at here
  exact of_decide_eq_true (List.all_eq_true.1 here column taking)

section Confined

variable (fresh : context.Fresh) (world : World V)
include fresh

/-- No scope of an input is hidden, where no column is. -/
theorem Fresh.unhidden_scopes (found : context.memo.firstMember id = .ok expr)
    (unhidden : context.Unhidden id) (complete : ∀ child ∈ expr.children, context.Complete child)
    (relational : expr.operator.isScalar = false) : Scope.Unhidden
      ((expr.children.map (context.memo.behaviour world)).map Behaviour.scope) := by
  obtain ⟨_, number, _, _, stored⟩ := Memo.firstMember_ok_iff.1 found
  have valid := fresh.valid
  -- The scope of a relation says what is known of it.
  have read : ∀ input ∈ (expr.children.map (context.memo.behaviour world)).map Behaviour.scope,
      input.isScalar = false → ∃ child ∈ context.memo.relationalChildren expr, ∃ values,
        context.relationalProperties child = .ok values ∧
        values .outerReferences = input.free ∧ values .outputColumns = input.columns := by
    intro input member family
    obtain ⟨_, among, rfl⟩ := List.mem_map.1 member
    obtain ⟨child, below, rfl⟩ := List.mem_map.1 among
    have inside := valid.childExists stored below
    rw [valid.scope_behaviour context.catalog inside] at family ⊢
    rw [valid.isScalar_profile inside] at family
    have relation := Memo.relational_iff.2 ⟨inside, family⟩
    obtain ⟨values, sheet⟩ := Sheet.exists_of_isComplete ((complete child below).relational relation)
    have given := relationalProperties_ok relation sheet
    have agrees := (fresh.profiled inside).relational given
    exact ⟨child, List.mem_filter.2 ⟨below, by rw [family]; rfl⟩, values, given,
      agrees .outerReferences, agrees .outputColumns⟩
  intro taker takerIn relation source sourceIn relationToo column
  obtain ⟨one, oneIn, taken, oneRead, free, _⟩ := read taker takerIn relation
  obtain ⟨other, otherIn, made, otherRead, _, columns⟩ := read source sourceIn relationToo
  rw [← free, ← columns]
  exact unhidden id expr .refl found relational one oneIn other otherIn taken made oneRead otherRead
    column

/-- **A group only depends on what it takes from outside**, where no column is hidden below it. -/
theorem Fresh.confined : ∀ {id : GroupId} {expr : Expr}, context.memo.firstMember id = .ok expr →
    (∀ child ∈ expr.children, context.Complete child) → context.Unhidden id →
    (context.memo.behaviour world id).Confined := by
  intro id
  induction id using Nat.strongRecOn with
  | ind id ih =>
    intro expr found complete unhidden
    have valid := fresh.valid
    obtain ⟨_, number, _, _, stored⟩ := Memo.firstMember_ok_iff.1 found
    obtain ⟨_, older⟩ := valid.of_firstMember found
    rw [valid.behaviour_eq found]
    refine World.confined_behaviour (fun input member => ?_)
      (fresh.unhidden_scopes world found unhidden complete)
    obtain ⟨child, below, rfl⟩ := List.mem_map.1 member
    obtain ⟨first, foundToo⟩ := valid.exists_firstMember (valid.childExists stored below)
    exact ih child (older child below) foundToo
      (fresh.complete_children foundToo (complete child below)) (unhidden.below ⟨expr, found, below⟩)

/-- What is known of the children of an expression is their profile. -/
theorem Fresh.reflects_children {number : ExprId}
    (stored : context.memo.exprs[number]? = some expr) : ∀ child ∈ expr.children,
      context.ample.Reflects (fun id => (context.memo.profile context.catalog id).scope) child :=
  have ample : context.ample.Fresh := fresh.ample
  fun _ member => (ample.profiled (fresh.valid.childExists stored member)).toReflects

/-- The columns that a scalar uses are what its behaviour takes from outside. -/
theorem Fresh.used_eq {used : ColumnSet}
    (known : (context.scalar id).get? .usedColumns = some used) :
    (context.memo.behaviour world id).scope.free = used := by
  have valid := fresh.valid
  obtain ⟨scalar, _⟩ := fresh.current.settle fresh.valid.toLinked known
  obtain ⟨operator, expr, found, kind, _⟩ := scalar.exists_scalarFirst? valid
  obtain ⟨_, number, _, _, stored⟩ := Memo.firstMember_ok_iff.1 found
  have agrees : ScalarProperty.usedColumns.Agrees _ used :=
    agrees_scalar (fresh.reflects_children stored) kind (fresh.derive_scalar found known)
  rw [valid.scope_behaviour context.catalog scalar.inside, valid.scope_eq context.catalog found]
  exact agrees.symm

/-- What a relation takes from outside is what its behaviour does. -/
theorem Fresh.outer_eq {outer : ColumnSet}
    (known : (context.facts.relational id).get? .outerReferences = some outer) :
    (context.memo.behaviour world id).scope.free = outer := by
  have valid := fresh.valid
  have relational := (fresh.current.relational known).1
  obtain ⟨expr, found⟩ := valid.exists_firstMember relational.inside
  obtain ⟨_, number, _, _, stored⟩ := Memo.firstMember_ok_iff.1 found
  obtain ⟨operator, kind, derived⟩ := fresh.outer_derived found known
  rw [valid.scope_behaviour context.catalog relational.inside, valid.scope_eq context.catalog found,
    kind]
  exact (derive_outer (fresh.reflects_children stored) derived).symm

end Confined

/-! ### Environments that agree -/

/-- **Environments that agree on the derived columns** give the same. The properties of a memo whose
relational groups begin with logical members are derived in any order. If no column is hidden below a
group, then environments that agree in the columns that it uses give a scalar the same value, also for
groups of environments that agree pairwise, and the same definitions; and environments that agree in the
columns that it takes from outside give a relation the same rows. -/
theorem dependencies_sound {memo : Memo} (valid : memo.Valid) (headed : memo.LogicalFirst)
    {catalog : Catalog} {guard : Guard} {log : List Derivation}
    (derives : Derives { memo, catalog, guard } log context) (world : World V)
    (unhidden : context.Unhidden id) :
    (∀ used : ColumnSet, (context.scalar id).get? .usedColumns = some used →
      ∀ (environment other : Row V) (group others : Bag V), environment.Agree used other →
        Multiset.Rel (Row.Agree used) group others →
          (memo.behaviour world id).value environment group =
              (memo.behaviour world id).value other others ∧
            (memo.behaviour world id).cells environment group =
              (memo.behaviour world id).cells other others) ∧
    ∀ outer : ColumnSet, (context.facts.relational id).get? .outerReferences = some outer →
      ∀ environment other : Row V, environment.Agree outer other →
        (memo.behaviour world id).rows environment = (memo.behaviour world id).rows other := by
  have fresh : context.Fresh := FreshBy.derive ⟨valid, headed, current_of_blank⟩ derives
  obtain rfl : context.memo = memo := derives.sameMemo.memo
  constructor
  · intro used known environment other group others agree grouped
    obtain ⟨scalar, _⟩ := fresh.current.settle fresh.valid.toLinked known
    obtain ⟨expr, found⟩ := valid.exists_firstMember scalar.inside
    have confined := fresh.confined world found (fresh.complete_of_used found known) unhidden
    obtain rfl := fresh.used_eq world known
    exact ⟨confined.value agree grouped, confined.cells agree grouped⟩
  · intro outer known environment other agree
    have relational := (fresh.current.relational known).1
    obtain ⟨expr, found⟩ := valid.exists_firstMember relational.inside
    have confined := fresh.confined world found (fresh.complete_of_outer found known) unhidden
    obtain rfl := fresh.outer_eq world known
    exact confined.rows agree

/-- A world of natural numbers in which every table has one row, which has their numbers in its columns,
and one is the truth value TRUE. -/
noncomputable def oneRowWorld : World Nat where
  table _ _ := {fun column => some column}
  scalar
    | .constant (.bool true), _, _ => some 1
    | .binary .eq, [some left, some right], _ => some (if left = right then 1 else 0)
    | .subqueryExists, _, [rows] => some (if rows.card = 0 then 0 else 1)
    | _, _, _ => none
  aggregate _ _ arguments := some arguments.card
  isTrue value := value == some 1
  listed := Multiset.toList
  listed_eq := Multiset.coe_toList

/-- The orders for which there are items. -/
def ordersWithItems : List (Operator × List GroupId) :=
  [(.logical (.get ⟨"shop", "orders"⟩ [⟨1, some "orders", "id"⟩]), []),
    (.logical (.get ⟨"shop", "items"⟩ [⟨2, some "items", "order"⟩]), []),
    (.scalar (.column ⟨1, some "orders", "id"⟩), []), (.scalar (.column ⟨2, some "items", "order"⟩), []),
    (.scalar (.binary .eq), [3, 2]), (.logical .select, [1, 4]), (.scalar .subqueryExists, [5]),
    (.logical .select, [0, 6])]

/-- The items of an order take its number from outside, and the subquery uses nothing else. -/
theorem dependencies_sound_ordersWithItems :
    ∃ (memo : Memo) (context : Context) (log : List Derivation) (used outer : ColumnSet),
      Memo.empty.build? ordersWithItems = some memo ∧ Derives { memo } log context ∧
      (context.scalar 6).get? .usedColumns = some used ∧
      (context.facts.relational 5).get? .outerReferences = some outer ∧
      used.toList = [1] ∧ outer.toList = [1] ∧
      ∀ environment other : Row Nat, environment 1 = other 1 →
        (memo.behaviour oneRowWorld 6).value environment {environment} =
          (memo.behaviour oneRowWorld 6).value other {other} ∧
        (memo.behaviour oneRowWorld 5).rows environment =
          (memo.behaviour oneRowWorld 5).rows other := by
  have shown : (Memo.empty.build? ordersWithItems).bind (fun memo =>
      (deriveAll { memo }).toOption.map fun ended => (ended.2.isUnhidden,
        ((ended.2.scalar 6).get? .usedColumns).map SortedSet.toList,
        ((ended.2.facts.relational 5).get? .outerReferences).map SortedSet.toList)) =
      some (true, some [1], some [1]) := by decide +kernel
  obtain ⟨memo, made, shown⟩ := Option.bind_eq_some_iff.1 shown
  obtain ⟨ended, done, shown⟩ := Option.map_eq_some_iff.1 shown
  obtain ⟨checked, shown⟩ := Prod.mk.inj shown
  obtain ⟨known, knownToo⟩ := Prod.mk.inj shown
  obtain ⟨used, scalar, one⟩ := Option.map_eq_some_iff.1 known
  obtain ⟨outer, relational, oneToo⟩ := Option.map_eq_some_iff.1 knownToo
  obtain ⟨_, formed⟩ := (Memo.Built.empty.build? made).formed
  obtain ⟨log, derives⟩ := deriveAll_derives formed.toValid (toOption_eq_some_iff.1 done)
  refine ⟨memo, ended.2, log, used, outer, made, derives, scalar, relational, one, oneToo, ?_⟩
  intro environment other same
  have agree : ∀ columns : ColumnSet, columns.toList = [1] → environment.Agree columns other := by
    intro columns only column member
    have listed : column ∈ columns.toList := member
    rw [only] at listed
    rw [List.mem_singleton.1 listed]
    exact same
  have values := (dependencies_sound formed.toValid formed.logicalFirst derives oneRowWorld
    (unhidden_of_isUnhidden checked)).1 used scalar environment other {environment} {other} (agree used one)
      (.cons (agree used one) .zero)
  have rows := (dependencies_sound formed.toValid formed.logicalFirst derives oneRowWorld
    (unhidden_of_isUnhidden checked)).2 outer relational environment other (agree outer oneToo)
  exact ⟨values.1, rows⟩

/-- A selection on orders that are grouped by a column from outside, and a join of orders with items that
take the number of an order from outside. -/
def hiddenColumns : List (Operator × List GroupId) :=
  [(.logical (.get ⟨"shop", "orders"⟩ [⟨1, some "orders", "id"⟩]), []), (.scalar .projectList, []),
    (.logical (.aggregate [⟨7, none, "day"⟩]), [0, 1]), (.truth, []), (.logical .select, [2, 3]),
    (.logical (.get ⟨"shop", "items"⟩ [⟨2, some "items", "order"⟩]), []),
    (.scalar (.column ⟨1, some "orders", "id"⟩), []), (.scalar (.column ⟨2, some "items", "order"⟩), []),
    (.scalar (.binary .eq), [7, 6]), (.logical .select, [5, 8]), (.logical (.join .inner), [0, 9, 3])]

/-- **Environments that agree on the derived columns need not give the same rows.** An aggregation has the
columns that it groups by in its rows, also those from outside. A selection on it takes none of them from
outside, as its input makes them, but its rows still depend on them. So do the rows of a join on a column
that one side takes from outside and the other side makes. -/
theorem dependencies_unsound :
    ∃ (memo : Memo) (context : Context) (log : List Derivation),
      Memo.empty.build? hiddenColumns = some memo ∧ memo.Built ∧ Derives { memo } log context ∧
      ∀ id ∈ [4, 10], ∃ (outer : ColumnSet) (environment other : Row Nat),
        (context.facts.relational id).get? .outerReferences = some outer ∧
        environment.Agree outer other ∧
        (memo.behaviour oneRowWorld id).rows environment ≠
          (memo.behaviour oneRowWorld id).rows other := by
  -- The values of one column tell the rows in two environments apart.
  have shown : (Memo.empty.build? hiddenColumns).bind (fun memo =>
      (deriveAll { memo }).toOption.map fun ended => [4, 10].map fun id =>
        (((ended.2.facts.relational id).get? .outerReferences).map SortedSet.toList,
          [2, 3].map fun value => ((memo.behaviour oneRowWorld id).rows fun _ => some value).map
            fun row => row 7)) =
      some [(some [], [{some 2}, {some 3}]), (some [], [{none}, 0])] := by decide +kernel
  obtain ⟨memo, made, shown⟩ := Option.bind_eq_some_iff.1 shown
  obtain ⟨ended, done, shown⟩ := Option.map_eq_some_iff.1 shown
  have built := Memo.Built.empty.build? made
  obtain ⟨_, formed⟩ := built.formed
  obtain ⟨log, derives⟩ := deriveAll_derives formed.toValid (toOption_eq_some_iff.1 done)
  refine ⟨memo, ended.2, log, made, built, derives, fun id member => ?_⟩
  have told : ∀ {two three : Multiset (Option Nat)}, two ≠ three →
      (((ended.2.facts.relational id).get? .outerReferences).map SortedSet.toList,
        [2, 3].map fun value => ((memo.behaviour oneRowWorld id).rows fun _ => some value).map
          fun row => row 7) = (some [], [two, three]) →
      ∃ (outer : ColumnSet) (environment other : Row Nat),
        (ended.2.facts.relational id).get? .outerReferences = some outer ∧
        environment.Agree outer other ∧
        (memo.behaviour oneRowWorld id).rows environment ≠
          (memo.behaviour oneRowWorld id).rows other := by
    intro two three different same
    obtain ⟨known, values⟩ := Prod.mk.inj same
    obtain ⟨outer, relational, nothing⟩ := Option.map_eq_some_iff.1 known
    obtain ⟨first, rest⟩ := List.cons.inj values
    have second := (List.cons.inj rest).1
    refine ⟨outer, fun _ => some 2, fun _ => some 3, relational, fun column taken => ?_, fun equal => ?_⟩
    · have listed : column ∈ outer.toList := taken
      rw [nothing] at listed
      exact absurd listed List.not_mem_nil
    · have rows := congrArg (Multiset.map fun row => row 7) equal
      exact different (first.symm.trans (rows.trans second))
  obtain ⟨grouped, rest⟩ := List.cons.inj shown
  have joined := (List.cons.inj rest).1
  rcases List.mem_cons.1 member with rfl | member
  · exact told (by decide) grouped
  · obtain rfl := List.mem_singleton.1 member
    exact told (by decide) joined

end Context

end Cascades
