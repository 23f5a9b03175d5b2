/-
**What the rules for joins owe to a memo.**

A memo is saturated for a rule if whatever the rule proposes for a join below the root is there already,
in the group of the join or in one that counts as one with it. If it is saturated for commutativity, the
inputs of every join can be exchanged; if it is saturated for associativity, a join over a join can be
regrouped, and its conjuncts are divided by the columns that they use.

* `Memo.LeadsTo`, `Binding.Fits`: the groups below a root and the bindings, where groups count as one;
* `Context.Saturated`: all proposals of a rule are there;
* `Context.Exact`, `Fresh.exact`: what the rules read is what the groups amount to;
* `joinCommutativity_transform`, `joinAssociativity_transform`: the proposals for a binding;
* `Saturated.exchange`, `Saturated.regroup`: what a saturated memo has.
-/

import Cascades.Proofs.Gathering.Rearranging
import Cascades.Proofs.Memo.Offering
import Cascades.Proofs.Order.Nesting

namespace Cascades

open Memo

variable {memo : Memo} {context : Context} {breadth : GroupId → Breadth}
  {same : GroupId → GroupId → Prop} {root : GroupId}

/-! ### Settled memos -/

namespace Memo

/-- The groups below a root, where some groups count as one. -/
inductive LeadsTo (memo : Memo) (same : GroupId → GroupId → Prop) (root : GroupId) : GroupId → Prop
  | root {id : GroupId} (is : same root id) : LeadsTo memo same root id
  | input {number : ExprId} {expr : Expr} {child id : GroupId} (stored : memo.exprs[number]? = some expr)
      (leads : LeadsTo memo same root expr.group) (member : child ∈ memo.relationalChildren expr)
      (is : same child id) : LeadsTo memo same root id

theorem LeadsTo.of_same (merging : memo.Merging same) {id twin : GroupId}
    (leads : memo.LeadsTo same root id) (is : same id twin) : memo.LeadsTo same root twin := by
  cases leads with
  | root first => exact .root (merging.trans first is)
  | input stored leads member first => exact .input stored leads member (merging.trans first is)

end Memo

/-- A binding of a pattern shows stored expressions over their child groups, where some groups count as
one. -/
inductive Binding.Fits (memo : Memo) (same : GroupId → GroupId → Prop) : Pattern → Binding → Prop
  | leaf {pattern : Pattern} {id : ExprId} {expr : Expr} (stops : pattern.isLeaf = true)
      (stored : memo.exprs[id]? = some expr) : Fits memo same pattern (Cursor.nodeOf id expr [])
  | node {pattern : Pattern} {id : ExprId} {expr : Expr} {children : List Binding}
      (inner : pattern.isLeaf = false) (stored : memo.exprs[id]? = some expr)
      (root : pattern.matchesRoot expr.operator expr.arity = true)
      (groups : List.Forall₂ same expr.children (children.map group))
      (below : ∀ position child part, children[position]? = some child →
        pattern.child position expr.arity = .ok part → Fits memo same part child) :
      Fits memo same pattern (Cursor.nodeOf id expr children)

/-- The root of a binding, where the pattern goes on below it. -/
theorem Binding.Fits.inner {binding : Binding} {pattern : Pattern}
    (fits : binding.Fits memo same pattern) (inner : pattern.isLeaf = false) :
    ∃ expr, memo.exprs[binding.expr]? = some expr ∧ binding.operator = expr.operator ∧
      binding.group = expr.group ∧ pattern.matchesRoot expr.operator expr.arity = true := by
  cases fits with
  | leaf stops =>
    rw [inner] at stops
    cases stops
  | node _ stored matching => exact ⟨_, stored, rfl, rfl, matching⟩

/-- **A memo is saturated for a rule** below a root if what the rule proposes for a binding is offered by
the group of the binding. -/
structure Context.Saturated (context : Context) (same : GroupId → GroupId → Prop) (root : GroupId)
    (rule : Rule) : Prop where
  offers : ∀ {binding : Binding} {alternatives : List Proposal} {proposal : Proposal},
    context.memo.LeadsTo same root binding.group → binding.Fits context.memo same rule.pattern →
      rule.transform context binding = .ok alternatives → proposal ∈ alternatives →
        context.memo.Offers same proposal binding.group

/-! ### What the rules read -/

/-- **What the rules read of a memo** is what its groups amount to. -/
structure Context.Exact (context : Context) : Prop where
  columns : ∀ {id : GroupId}, context.memo.Relational id →
    Rule.outputColumns context id = .ok (context.memo.scope id).columns
  used : ∀ {id : GroupId}, context.memo.Scalar id →
    Rule.usedColumns context id = .ok (context.memo.scope id).free

theorem Context.Fresh.exact (fresh : context.Fresh)
    (complete : ∀ id < context.memo.groups.size, context.Complete id) : context.Exact where
  columns {id} relational := by
    let never (_ : Fault) : Prop := False
    have ends : Ends never (context.relationalProperties id) fun _ => True :=
      (complete id relational.inside).relationalProperties relational
    unfold Rule.outputColumns
    cases known : context.relationalProperties id with
    | error cause =>
      rw [known] at ends
      exact ends.elim
    | ok values =>
      have agrees := (fresh.profiled relational.inside).relational known .outputColumns
      rw [(Grows.refl _).profile_scope fresh.valid fresh.valid context.catalog relational.inside]
        at agrees
      exact congrArg Except.ok agrees
  used {id} scalar := by
    let never (_ : Fault) : Prop := False
    have ends : Ends never (context.scalarProperties id) fun _ => True :=
      (complete id scalar.inside).scalarProperties scalar
    unfold Rule.usedColumns
    cases known : context.scalarProperties id with
    | error cause =>
      rw [known] at ends
      exact ends.elim
    | ok values =>
      have agrees := (fresh.profiled scalar.inside).scalar known .usedColumns
      rw [(Grows.refl _).profile_scope fresh.valid fresh.valid context.catalog scalar.inside] at agrees
      exact congrArg Except.ok agrees

/-! ### Proposals -/

namespace Rule

/-- What is proposed where a join over a join is regrouped: one input stays, another one is moved. -/
def regrouping? (memo : Memo) (predicate condition stay moved other : GroupId) : Option Proposal :=
  regroup? ((memo.conjuncts predicate).map fun conjunct => (conjunct, (memo.scope conjunct).free))
    (memo.conjuncts condition) stay moved other (memo.scope moved).columns (memo.scope other).columns

/-- A predicate moves to a join if it is on the two inputs. -/
theorem movesTo_iff_links {conjunct first second : GroupId} :
    MovesTo (memo.scope first).columns (memo.scope second).columns (memo.scope conjunct).free ↔
      memo.Links conjunct first second :=
  ⟨fun moves => ⟨moves.within, moves.moved, moves.other⟩,
    fun links => ⟨links.within, links.left, links.right⟩⟩

/-- **A regrouped join**: the conjuncts that move go to the new inner join. -/
theorem exists_regrouping {predicate condition stay moved other conjunct : GroupId}
    (member : conjunct ∈ memo.conjuncts predicate) (moves : memo.Links conjunct moved other) :
    ∃ pushed kept : List GroupId, (pushed ++ kept).Perm (memo.conjuncts predicate) ∧
      (∀ conjunct ∈ pushed, memo.Links conjunct moved other) ∧
      (∀ conjunct ∈ kept, ¬ memo.Links conjunct moved other) ∧
      regrouping? memo predicate condition stay moved other = some (.node innerJoin [.group stay,
        .node innerJoin [.group moved, .group other, .conjunction pushed],
        .conjunction (memo.conjuncts condition ++ kept)]) := by
  let entry (conjunct : GroupId) : GroupId × ColumnSet :=
    (conjunct, (memo.scope conjunct).free)
  obtain ⟨proposal, found⟩ : ∃ proposal,
      regrouping? memo predicate condition stay moved other = some proposal :=
    exists_regroup? (List.mem_map_of_mem member) (movesTo_iff_links.2 moves)
  obtain ⟨pushed, kept, _, divided, moving, staying, rfl⟩ := regroup?_divides found
  have paired : ∀ pair ∈ pushed ++ kept, pair = entry pair.1 := fun pair inside => by
    obtain ⟨_, _, rfl⟩ := List.mem_map.1 (divided.subset inside)
    rfl
  refine ⟨pushed.map (·.1), kept.map (·.1), ?_, ?_, ?_, found⟩
  · have whole := divided.map Prod.fst
    rwa [List.map_append, List.map_map, Function.comp_def, List.map_id'] at whole
  · intro conjunct listed
    obtain ⟨pair, inside, rfl⟩ := List.mem_map.1 listed
    have shown := moving pair inside
    rw [paired pair (List.mem_append_left _ inside)] at shown
    exact movesTo_iff_links.1 shown
  · intro conjunct listed
    obtain ⟨pair, inside, rfl⟩ := List.mem_map.1 listed
    have shown := staying pair inside
    rw [paired pair (List.mem_append_right _ inside)] at shown
    exact fun links => shown (movesTo_iff_links.2 links)

variable {binding below : Binding} {left right other predicate condition : GroupId}

theorem joinCommutativity_transform (operator : binding.operator = innerJoin)
    (groups : binding.childGroups = [left, right, predicate]) :
    joinCommutativity.transform context binding =
      .ok [.overGroups innerJoin [right, left, predicate]] := by
  have child : ∀ {position : Nat} {id : GroupId}, [left, right, predicate][position]? = some id →
      binding.childGroup position = .ok id := fun place =>
    Binding.childGroup_ok_iff.2 (groups.symm ▸ place)
  unfold joinCommutativity
  simp only [operator, innerJoin, joinType?, JoinType.isInner, if_true,
    @child 0 left rfl, @child 1 right rfl, @child 2 predicate rfl]
  rfl

theorem joinAssociativity_transform (exactly : context.Exact) (operator : binding.operator = innerJoin)
    (groups : binding.childGroups = [below.group, other, predicate])
    (first : binding.children[0]? = some below) (operatorBelow : below.operator = innerJoin)
    (groupsBelow : below.childGroups = [left, right, condition])
    (leftIs : context.memo.Relational left) (rightIs : context.memo.Relational right)
    (otherIs : context.memo.Relational other)
    (conjuncts : ∀ conjunct ∈ context.memo.conjuncts predicate, context.memo.Scalar conjunct) :
    joinAssociativity.transform context binding =
      .ok ((regrouping? context.memo predicate condition left right other).toList ++
        (regrouping? context.memo predicate condition right left other).toList) := by
  have child : ∀ {position : Nat} {id : GroupId}, [below.group, other, predicate][position]? = some id →
      binding.childGroup position = .ok id := fun place =>
    Binding.childGroup_ok_iff.2 (groups.symm ▸ place)
  have childBelow : ∀ {position : Nat} {id : GroupId}, [left, right, condition][position]? = some id →
      below.childGroup position = .ok id := fun place =>
    Binding.childGroup_ok_iff.2 (groupsBelow.symm ▸ place)
  have found : childBinding binding 0 = .ok below := by
    unfold childBinding
    rw [first]
  have outer : (context.memo.conjuncts predicate).mapM (fun conjunct => do
      return (conjunct, ← (usedColumns context conjunct : Except Fault ColumnSet)) :
        GroupId → Except Failure (GroupId × ColumnSet)) =
      .ok ((context.memo.conjuncts predicate).map fun conjunct =>
        (conjunct, (context.memo.scope conjunct).free)) := by
    refine mapM_eq_ok_iff.2 (List.forall₂_map_right_iff.2 (List.forall₂_same.2 ?_))
    intro conjunct member
    rw [exactly.used (conjuncts conjunct member)]
    rfl
  have inner : (joinType? binding.operator != some .inner || joinType? below.operator != some .inner) =
      false := by
    rw [operator, operatorBelow]
    rfl
  refine bind_eq_ok_iff.2 ⟨below, lift_fault_eq_ok_iff.2 found, ?_⟩
  rw [if_neg (by simp [inner])]
  refine bind_eq_ok_iff.2 ⟨left, lift_fault_eq_ok_iff.2 (childBelow rfl), ?_⟩
  refine bind_eq_ok_iff.2 ⟨right, lift_fault_eq_ok_iff.2 (childBelow rfl), ?_⟩
  refine bind_eq_ok_iff.2 ⟨other, lift_fault_eq_ok_iff.2 (child rfl), ?_⟩
  refine bind_eq_ok_iff.2 ⟨_, lift_fault_eq_ok_iff.2 (exactly.columns leftIs), ?_⟩
  refine bind_eq_ok_iff.2 ⟨_, lift_fault_eq_ok_iff.2 (exactly.columns rightIs), ?_⟩
  refine bind_eq_ok_iff.2 ⟨_, lift_fault_eq_ok_iff.2 (exactly.columns otherIs), ?_⟩
  refine bind_eq_ok_iff.2 ⟨predicate, lift_fault_eq_ok_iff.2 (child rfl), ?_⟩
  refine bind_eq_ok_iff.2 ⟨_, outer, ?_⟩
  refine bind_eq_ok_iff.2 ⟨condition, lift_fault_eq_ok_iff.2 (childBelow rfl), ?_⟩
  rfl

end Rule

/-! ### Bindings of joins -/

namespace Binding

variable {left right predicate id : GroupId}

/-- A leaf of a binding for a group. -/
theorem exists_leaf (same : GroupId → GroupId → Prop) (valid : memo.Valid)
    (inside : id < memo.groups.size) :
    ∃ binding : Binding, binding.group = id ∧
      ∀ {pattern : Pattern}, pattern.isLeaf = true → binding.Fits memo same pattern := by
  obtain ⟨expr, found⟩ := valid.exists_firstMember inside
  obtain ⟨_, number, _, _, stored⟩ := firstMember_ok_iff.1 found
  exact ⟨Cursor.nodeOf number expr [], (valid.of_firstMember found).1, fun stops => .leaf stops stored⟩

/-- A binding for an inner join, over a given binding of its left input. -/
theorem exists_over (formed : memo.Formed breadth) (merging : memo.Merging same) {part : Pattern}
    (single : part.isRepeated = false) (has : memo.HasJoin same id left right predicate)
    {first : Binding} (is : same left first.group) (fits : first.Fits memo same part) :
    ∃ binding : Binding, same id binding.group ∧ binding.operator = Rule.innerJoin ∧
      binding.childGroups = [first.group, right, predicate] ∧ binding.children[0]? = some first ∧
      binding.Fits memo same (.logical .join [part, .leaf, .leaf]) := by
  have valid := formed.toValid
  obtain ⟨_, rightIs, predicateIs⟩ := has.families valid formed.laid
  obtain ⟨number, expr, stored, operator, children, here⟩ := has
  obtain ⟨second, rfl, secondFits⟩ := exists_leaf same valid rightIs.inside
  obtain ⟨third, rfl, thirdFits⟩ := exists_leaf same valid predicateIs.inside
  refine ⟨Cursor.nodeOf number expr [first, second, third], here, operator, rfl, rfl, ?_⟩
  have plain : Pattern.repeatedFirst? [part, .leaf, .leaf] = none := by
    rw [Pattern.repeatedFirst?, single]
    rfl
  have root : (Pattern.logical .join [part, .leaf, .leaf]).matchesRoot expr.operator expr.arity =
      true := by
    simp only [Pattern.logical, Pattern.matchesRoot, plain, operator, Expr.arity, children]
    rfl
  refine .node rfl stored root ?_ fun position child pattern place given => ?_
  · rw [children]
    exact .cons is (.cons (merging.refl _) (.cons (merging.refl _) .nil))
  · simp only [Pattern.logical, Pattern.child, plain, Expr.arity, children] at given
    rcases position with _ | _ | _ | position
    · cases place
      cases given
      exact fits
    · cases place
      cases given
      exact secondFits rfl
    · cases place
      cases given
      exact thirdFits rfl
    · cases place

end Binding

/-! ### What a saturated memo has -/

namespace Memo

variable {id : GroupId}

/-- **A group that offers a conjunction** holds its conjuncts. -/
theorem Offers.contents_conjunction (holds : memo.Holds) (merging : memo.Merging same)
    {ids : List GroupId} (each : ∀ conjunct ∈ ids, memo.Atomic conjunct)
    (offers : memo.Offers same (.conjunction ids) id) : memo.contents id = (ids : Multiset GroupId) := by
  match ids with
  | [] =>
    obtain ⟨number, expr, stored, is, equal, none⟩ := offers
    have whole := holds number expr stored
    rw [Operator.gather_of_gathers ((Operator.gathers_congr equal).trans rfl),
      show expr.children = [] from none] at whole
    rw [merging.contents is, ← whole]
    rfl
  | [single] =>
    rw [merging.contents offers]
    exact (each single List.mem_cons_self).alone
  | one :: two :: rest =>
    obtain ⟨number, expr, stored, is, equal, all⟩ := offers
    have whole := holds number expr stored
    rw [Operator.gather_of_gathers ((Operator.gathers_congr equal).trans rfl)] at whole
    have alike : List.Forall₂ same expr.children (one :: two :: rest) := offersAll_groups.1 all
    have contents : expr.children.map memo.contents = (one :: two :: rest).map memo.contents := by
      rw [← List.forall₂_eq_eq_eq, List.forall₂_map_left_iff, List.forall₂_map_right_iff]
      exact alike.imp fun _ _ is => merging.contents is
    rw [merging.contents is, ← whole, contents, sum_atomic each]

/-- What a group offers as a join of two proposals under a predicate, it has as an inner join. -/
theorem Offers.hasJoin {left right predicate : Proposal}
    (offers : memo.Offers same (.node Rule.innerJoin [left, right, predicate]) id) :
    ∃ low high condition, memo.HasJoin same id low high condition ∧ memo.Offers same left low ∧
      memo.Offers same right high ∧ memo.Offers same predicate condition := by
  obtain ⟨number, expr, stored, is, equal, low, _, shape, left, high, _, rfl, right, condition, _, rfl,
    predicate, rfl⟩ := offers
  exact ⟨low, high, condition, ⟨number, expr, stored, Operator.eq_of_beq equal rfl, shape, is⟩, left,
    right, predicate⟩

end Memo

namespace Context.Saturated

variable {id left right upper other predicate condition : GroupId}
  (formed : context.memo.Formed breadth) (merging : context.memo.Merging same)

include formed merging

/-- **The inputs of a join can be exchanged** where a memo is saturated for commutativity. -/
theorem exchange (saturated : context.Saturated same root Rule.joinCommutativity)
    (leads : context.memo.LeadsTo same root id)
    (has : context.memo.HasJoin same id left right predicate) :
    ∃ low high across, context.memo.HasJoin same id low high across ∧ same low right ∧ same high left ∧
      (context.memo.conjuncts across).Perm (context.memo.conjuncts predicate) := by
  have valid := formed.toValid
  have laid : context.memo.Laid := formed.laid
  obtain ⟨leftIs, _, predicateIs⟩ := has.families valid laid
  obtain ⟨first, rfl, fits⟩ := Binding.exists_leaf same valid leftIs.inside
  obtain ⟨binding, is, operator, groups, _, drawn⟩ :=
    Binding.exists_over formed merging rfl has (merging.refl _) (@fits .leaf rfl)
  have offers := saturated.offers (leads.of_same merging is) drawn
    (Rule.joinCommutativity_transform operator groups) List.mem_cons_self
  obtain ⟨low, high, across, joins, leftOffers, rightOffers, acrossOffers⟩ := offers.hasJoin
  refine ⟨low, high, across, joins.of_same merging is, leftOffers, rightOffers, ?_⟩
  obtain ⟨_, _, acrossIs⟩ := joins.families valid laid
  rw [← Multiset.coe_eq_coe, laid.conjuncts_eq valid acrossIs, laid.conjuncts_eq valid predicateIs]
  exact merging.contents acrossOffers

/-- **A join over a join can be regrouped** where a memo is saturated for associativity and some conjunct
moves: the conjuncts that move go to the new inner join, all others stay. -/
theorem regroup (holds : context.memo.Holds) (exactly : context.Exact)
    (saturated : context.Saturated same root Rule.joinAssociativity)
    (leads : context.memo.LeadsTo same root id)
    (has : context.memo.HasJoin same id upper other predicate)
    (below : context.memo.HasJoin same upper left right condition) {conjunct : GroupId}
    (member : conjunct ∈ context.memo.conjuncts predicate)
    (moves : context.memo.Links conjunct right other) :
    ∃ stay lower outer moved beside inner pushed kept,
      context.memo.HasJoin same id stay lower outer ∧
      context.memo.HasJoin same lower moved beside inner ∧
      same stay left ∧ same moved right ∧ same beside other ∧
      (pushed ++ kept).Perm (context.memo.conjuncts predicate) ∧
      (∀ conjunct ∈ pushed, context.memo.Links conjunct right other) ∧
      (∀ conjunct ∈ kept, ¬ context.memo.Links conjunct right other) ∧
      (context.memo.conjuncts inner).Perm pushed ∧
      (context.memo.conjuncts outer).Perm (context.memo.conjuncts condition ++ kept) := by
  have valid := formed.toValid
  have laid : context.memo.Laid := formed.laid
  obtain ⟨_, otherIs, predicateIs⟩ := has.families valid laid
  obtain ⟨leftIs, rightIs, conditionIs⟩ := below.families valid laid
  have atomic := laid.atomic_conjuncts valid predicateIs
  obtain ⟨leaf, rfl, leafFits⟩ := Binding.exists_leaf same valid leftIs.inside
  obtain ⟨first, near, operatorBelow, groupsBelow, _, fits⟩ :=
    Binding.exists_over formed merging rfl below (merging.refl _) (@leafFits .leaf rfl)
  obtain ⟨binding, is, operator, groups, place, drawn⟩ :=
    Binding.exists_over formed merging rfl has near fits
  obtain ⟨pushed, kept, divided, moving, staying, regrouped⟩ :=
    @Rule.exists_regrouping _ predicate condition leaf.group right other _ member moves
  have offers := saturated.offers (leads.of_same merging is) drawn
    (Rule.joinAssociativity_transform exactly operator groups place operatorBelow groupsBelow leftIs
      rightIs otherIs fun conjunct listed => (atomic conjunct listed).scalar)
    (List.mem_append_left _ (Option.mem_toList.2 regrouped))
  obtain ⟨stay, lower, outer, joins, stayOffers, lowerOffers, outerOffers⟩ := offers.hasJoin
  obtain ⟨moved, beside, inner, joinsBelow, movedOffers, besideOffers, innerOffers⟩ :=
    lowerOffers.hasJoin
  have among : ∀ conjunct ∈ pushed ++ kept, context.memo.Atomic conjunct := fun conjunct listed =>
    atomic conjunct (divided.subset listed)
  refine ⟨stay, lower, outer, moved, beside, inner, pushed, kept, joins.of_same merging is, joinsBelow,
    stayOffers, movedOffers, besideOffers, divided, moving, staying, ?_, ?_⟩
  · obtain ⟨_, _, innerIs⟩ := joinsBelow.families valid laid
    rw [← Multiset.coe_eq_coe, laid.conjuncts_eq valid innerIs]
    exact innerOffers.contents_conjunction holds merging fun conjunct listed =>
      among conjunct (List.mem_append_left _ listed)
  · obtain ⟨_, _, outerIs⟩ := joins.families valid laid
    rw [← Multiset.coe_eq_coe, laid.conjuncts_eq valid outerIs]
    refine outerOffers.contents_conjunction holds merging fun conjunct listed => ?_
    rcases List.mem_append.1 listed with inside | inside
    · exact laid.atomic_conjuncts valid conditionIs conjunct inside
    · exact among conjunct (List.mem_append_right _ inside)

end Context.Saturated

end Cascades
