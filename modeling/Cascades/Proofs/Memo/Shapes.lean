/-
**How many expressions proposals add.**

A proposal names operators over proposals, not over groups: which shape an operator gets is known once
its inputs have their groups. After an insertion every operator of every proposal has its shape in the
memo. Those of the shapes that were not there before are as many as the expressions that the insertion
counts, however often one of them occurs in the proposals.

* `Receives`: what an open group takes; `Roomy.insertProposals`: all of it is put in;
* `Settled`: an operator over proposals that has its shape; `settled_insertProposals`: so have all of
  them after an insertion;
* `newShapes`: the shapes of proposals that were not there; `newShapes_iff`: they are what was added;
* `insertProposals_counted`: what an insertion adds, and that it adds nothing when it is repeated.
-/

import Cascades.Proofs.Distinct
import Cascades.Proofs.Memo.Offering
import Cascades.Proofs.Memo.Permanence
import Mathlib.Order.Interval.Finset.Nat

namespace Cascades

namespace Memo

variable {memo next later : Memo}

/-! ### What an open group takes -/

/-- The groups in a proposal are there. -/
def HasGroups (memo : Memo) (proposal : Proposal) : Prop :=
  ∀ id, (Proposal.group id).Part proposal → id < memo.groups.size

/-- **A group receives a proposal** whose root has the family of the group and whose groups are there.
One that is nothing but a group adds nothing. -/
def Receives (memo : Memo) (isScalar : Bool) : Proposal → Prop
  | .group _ => True
  | .node operator inputs =>
    operator.isScalar = isScalar ∧ ∀ input ∈ inputs, memo.HasGroups input

theorem HasGroups.mono {proposal : Proposal} (has : memo.HasGroups proposal)
    (grows : memo.Grows next) : next.HasGroups proposal :=
  fun id part => Nat.lt_of_lt_of_le (has id part) grows.size_groups

@[simp] theorem hasGroups_group {id : GroupId} :
    memo.HasGroups (.group id) ↔ id < memo.groups.size := by
  constructor
  · intro has
    exact has id .self
  · intro inside other part
    cases part
    exact inside

@[simp] theorem hasGroups_node {operator : Operator} {inputs : List Proposal} :
    memo.HasGroups (.node operator inputs) ↔ ∀ input ∈ inputs, memo.HasGroups input := by
  constructor
  · intro has input member id part
    exact has id (.child member part)
  · intro each id part
    cases part with
    | child member below => exact each _ member id below

/-- An open memo with an open group of a family. -/
structure Roomy (memo : Memo) (target : GroupId) (isScalar : Bool) : Prop extends memo.Valid where
  isOpen : memo.isOpen = true
  group : ∃ group, memo.groups[target]? = some group ∧ group.isScalar = isScalar ∧
    group.isOpen = true

section Insertion

variable {operator : Operator} {children : List GroupId} {target : GroupId} {isScalar : Bool}

/-- A new expression leaves open what was open. -/
theorem Roomy.append {place : GroupId} (roomy : memo.Roomy target isScalar)
    (valid : (memo.append place operator children).Valid) :
    (memo.append place operator children).Roomy target isScalar where
  toValid := valid
  isOpen := roomy.isOpen
  group := by
    obtain ⟨group, there, family, room⟩ := roomy.group
    rw [groups_append, there]
    split
    · exact ⟨_, rfl, family, room⟩
    · exact ⟨group, rfl, family, room⟩

/-- A step that leaves a memo its open group. -/
def StaysRoomy (target : GroupId) (isScalar : Bool) (memo next : Memo) : Prop :=
  memo.Roomy target isScalar → next.Roomy target isScalar

theorem StaysRoomy.refl (memo : Memo) : StaysRoomy target isScalar memo memo := id

theorem StaysRoomy.trans {last : Memo} (first : StaysRoomy target isScalar memo next)
    (second : StaysRoomy target isScalar next last) : StaysRoomy target isScalar memo last :=
  second ∘ first

theorem insert_staysRoomy {id : ExprId} (done : memo.insert operator children = .ok (id, next)) :
    StaysRoomy target isScalar memo next := by
  intro roomy
  have valid := (insert_keeps done roomy.toValid).1
  obtain ⟨_, ⟨_, rfl⟩ | ⟨_, _, _, rfl⟩⟩ := insert_cases done
  · exact roomy
  · obtain ⟨group, there, family, room⟩ := roomy.group
    refine ⟨valid, roomy.isOpen, ?_⟩
    rw [groups_append, groups_appendGroup, if_neg (Nat.ne_of_lt (lt_of_group there)), there]
    split
    · exact ⟨_, rfl, family, room⟩
    · exact ⟨group, rfl, family, room⟩

theorem insertInto_staysRoomy {place : GroupId} {id : ExprId}
    (done : memo.insertInto place operator children = .ok (id, next)) :
    StaysRoomy target isScalar memo next := by
  intro roomy
  have valid := (insertInto_keeps done roomy.toValid).1
  obtain ⟨_, ⟨_, rfl⟩ | ⟨_, _, rfl, _⟩⟩ := insertInto_cases done
  · exact roomy
  · exact roomy.append valid

/-- An open memo takes every operator over groups that are there. -/
theorem Roomy.insert (roomy : memo.Roomy target isScalar)
    (inside : ∀ child ∈ children, child < memo.groups.size) :
    ∃ number next expr, memo.insert operator children = .ok (number, next) ∧
      next.expr number = .ok expr := by
  have exist : memo.requireChildren operator children = .ok () := requireChildren_ok_iff.2 inside
  cases found : memo.lookup operator children with
  | some existing =>
    obtain ⟨expr, stored, _⟩ := roomy.lookup_eq_some_iff.1 found
    exact ⟨existing, memo, expr, insert_of_lookup roomy.toValid found, expr_ok_iff.2 stored⟩
  | none =>
    have done : memo.insert operator children = .ok (memo.exprs.size,
        (memo.appendGroup operator.isScalar).append memo.groups.size operator children) := by
      unfold Memo.insert
      rw [exist, found, roomy.isOpen]
      rfl
    obtain ⟨expr, stored, _⟩ := insert_stored roomy.toValid done
    exact ⟨_, _, expr, done, expr_ok_iff.2 stored⟩

/-- An open group takes every operator of its family over groups that are there. -/
theorem Roomy.insertInto (roomy : memo.Roomy target operator.isScalar)
    (inside : ∀ child ∈ children, child < memo.groups.size) :
    ∃ number next, memo.insertInto target operator children = .ok (number, next) := by
  have exist : memo.requireChildren operator children = .ok () := requireChildren_ok_iff.2 inside
  cases found : memo.lookup operator children with
  | some existing => exact ⟨existing, memo, insertInto_of_lookup roomy.toValid found target⟩
  | none =>
    obtain ⟨group, there, family, room⟩ := roomy.group
    refine ⟨memo.exprs.size, memo.append target operator children, ?_⟩
    unfold Memo.insertInto
    rw [exist, found, group_ok_iff.2 there]
    simp [room, family, bind, Except.bind, pure, Except.pure]

mutual

/-- **Every proposal gets a group in an open memo.** -/
theorem Roomy.materialize {memo : Memo} (roomy : memo.Roomy target isScalar) :
    (proposal : Proposal) → memo.HasGroups proposal →
      ∃ id next, memo.materialize proposal = .ok (id, next) ∧ id < next.groups.size
  | .group id, has => ⟨id, memo, rfl, hasGroups_group.1 has⟩
  | .node operator inputs, has => by
    obtain ⟨ids, middle, below, inside⟩ :=
      roomy.materializeAll inputs (hasGroups_node.1 has)
    have between : middle.Roomy target isScalar :=
      materializeAll_relates StaysRoomy.refl StaysRoomy.trans insert_staysRoomy inputs below roomy
    obtain ⟨number, next, expr, done, named⟩ : ∃ number next expr,
        middle.insert operator ids = .ok (number, next) ∧ next.expr number = .ok expr :=
      between.insert inside
    refine ⟨expr.group, next, ?_, ?_⟩
    · unfold Memo.materialize
      exact bind_eq_ok_iff.2 ⟨_, below, bind_eq_ok_iff.2 ⟨_, done, bind_eq_ok_iff.2 ⟨_, named, rfl⟩⟩⟩
    · obtain ⟨group, there, _⟩ := (insert_keeps done between.toValid).1.placed (expr_ok_iff.1 named)
      exact lt_of_group there

theorem Roomy.materializeAll {memo : Memo} (roomy : memo.Roomy target isScalar) :
    (proposals : List Proposal) → (∀ proposal ∈ proposals, memo.HasGroups proposal) →
      ∃ ids next, memo.materializeAll proposals = .ok (ids, next) ∧
        ∀ id ∈ ids, id < next.groups.size
  | [], _ => ⟨[], memo, rfl, fun _ none => absurd none List.not_mem_nil⟩
  | proposal :: rest, reach => by
    obtain ⟨id, middle, first, inside⟩ := roomy.materialize proposal (reach _ (.head _))
    have between : middle.Roomy target isScalar :=
      materialize_relates StaysRoomy.refl StaysRoomy.trans insert_staysRoomy proposal first roomy
    have grows := (materialize_keeps first roomy.toValid).2
    obtain ⟨ids, next, others, within⟩ :=
      between.materializeAll rest fun _ member => (reach _ (.tail _ member)).mono grows
    refine ⟨id :: ids, next, ?_, ?_⟩
    · unfold Memo.materializeAll
      exact bind_eq_ok_iff.2 ⟨_, first, bind_eq_ok_iff.2 ⟨_, others, rfl⟩⟩
    · have more := (materializeAll_keeps others between.toValid).2.size_groups
      exact List.forall_mem_cons.2 ⟨Nat.lt_of_lt_of_le inside more, within⟩

end

/-- A proposal is put into an open group that receives it. -/
theorem Roomy.insertProposal (roomy : memo.Roomy target isScalar) {proposal : Proposal}
    (receives : memo.Receives isScalar proposal) :
    ∃ next, memo.insertProposal target proposal = .ok next ∧ next.Roomy target isScalar := by
  cases proposal with
  | group => exact ⟨memo, rfl, roomy⟩
  | node operator inputs =>
    obtain ⟨rfl, reach⟩ := receives
    obtain ⟨ids, middle, below, inside⟩ := roomy.materializeAll inputs reach
    have between : middle.Roomy target operator.isScalar :=
      materializeAll_relates StaysRoomy.refl StaysRoomy.trans insert_staysRoomy inputs below roomy
    obtain ⟨number, next, done⟩ := between.insertInto inside
    refine ⟨next, ?_, insertInto_staysRoomy done between⟩
    unfold Memo.insertProposal
    exact bind_eq_ok_iff.2 ⟨_, below, bind_eq_ok_iff.2 ⟨_, done, rfl⟩⟩

theorem Receives.mono {proposal : Proposal} (receives : memo.Receives isScalar proposal)
    (grows : memo.Grows next) : next.Receives isScalar proposal := by
  cases proposal with
  | group => exact trivial
  | node => exact ⟨receives.1, fun input member => (receives.2 input member).mono grows⟩

/-- **Proposals are put into an open group** that receives all of them. -/
theorem Roomy.insertProposals (roomy : memo.Roomy target isScalar) {proposals : List Proposal}
    (receives : ∀ proposal ∈ proposals, memo.Receives isScalar proposal) :
    ∃ count next, memo.insertProposals target proposals = .ok (count, next) := by
  have run : ∃ next, proposals.foldlM
      (fun memo proposal => memo.insertProposal target proposal) memo = .ok next := by
    induction proposals generalizing memo with
    | nil => exact ⟨memo, rfl⟩
    | cons proposal rest ih =>
      obtain ⟨middle, one, between⟩ := roomy.insertProposal (receives proposal (.head _))
      have grows := (insertProposal_keeps one roomy.toValid).2
      obtain ⟨next, others⟩ :=
        ih between fun other member => (receives other (.tail _ member)).mono grows
      refine ⟨next, ?_⟩
      rw [List.foldlM_cons]
      exact bind_eq_ok_iff.2 ⟨middle, one, others⟩
  obtain ⟨next, run⟩ := run
  exact ⟨_, next, bind_eq_ok_iff.2 ⟨next, run, rfl⟩⟩

end Insertion

/-! ### Operators that have their shapes -/

mutual

/-- What is offered by a group of its own is there. -/
theorem standing_of_offers {memo : Memo} (valid : memo.Valid) {id : GroupId} :
    (proposal : Proposal) → memo.Offers (· = ·) proposal id → memo.standing? proposal = some id
  | .group _, offers => congrArg some (Eq.symm offers)
  | .node operator inputs, offers => by
    obtain ⟨number, expr, stored, rfl, equal, below⟩ := offers
    have found := valid.lookup_eq_some_iff.2 ⟨expr, stored, equal, rfl⟩
    unfold standing?
    rw [standingAll_of_offers valid inputs below]
    show (memo.lookup operator expr.children >>= _) = _
    rw [found]
    show (memo.exprs[number]?).map Expr.group = _
    rw [stored]
    rfl

theorem standingAll_of_offers {memo : Memo} (valid : memo.Valid) {ids : List GroupId} :
    (proposals : List Proposal) → memo.OffersAll (· = ·) proposals ids →
      memo.standingAll? proposals = some ids
  | [], offers => congrArg some (Eq.symm offers)
  | proposal :: rest, offers => by
    obtain ⟨id, others, rfl, first, later⟩ := offers
    unfold standingAll?
    rw [standing_of_offers valid proposal first]
    show (memo.standingAll? rest).map _ = _
    rw [standingAll_of_offers valid rest later]
    rfl

end

/-- **An operator over proposals has its shape**: its inputs have their groups, from the innermost ones
on, and it is found over these. -/
def Settled (memo : Memo) (operator : Operator) (inputs : List Proposal) : Prop :=
  ∃ ids number, memo.standingAll? inputs = some ids ∧ memo.lookup operator ids = some number

theorem settled_of_standing {operator : Operator} {inputs : List Proposal} {id : GroupId}
    (standing : memo.standing? (.node operator inputs) = some id) : memo.Settled operator inputs := by
  unfold standing? at standing
  obtain ⟨ids, below, standing⟩ := Option.bind_eq_some_iff.1 standing
  obtain ⟨number, found, _⟩ := Option.bind_eq_some_iff.1 standing
  exact ⟨ids, number, below, found⟩

theorem standing_of_mem {proposals : List Proposal} {ids : List GroupId}
    (standing : memo.standingAll? proposals = some ids) {proposal : Proposal}
    (member : proposal ∈ proposals) : ∃ id, memo.standing? proposal = some id := by
  induction proposals generalizing ids with
  | nil => cases member
  | cons head tail ih =>
    unfold standingAll? at standing
    obtain ⟨id, first, standing⟩ := Option.bind_eq_some_iff.1 standing
    obtain ⟨others, later, rfl⟩ := Option.map_eq_some_iff.1 standing
    rcases List.mem_cons.1 member with rfl | member
    · exact ⟨id, first⟩
    · exact ih later member

/-- What is in a proposal that is there is there. -/
theorem standing_of_part {part proposal : Proposal} (inside : part.Part proposal) {id : GroupId}
    (standing : memo.standing? proposal = some id) : ∃ own, memo.standing? part = some own := by
  induction inside generalizing id with
  | self => exact ⟨id, standing⟩
  | child member _ ih =>
    obtain ⟨ids, _, below, _⟩ := settled_of_standing standing
    obtain ⟨other, found⟩ := standing_of_mem below member
    exact ih found

/-- A proposal that adds nothing is there. -/
theorem Resolved.standing {target : GroupId} {proposal : Proposal}
    (resolved : memo.Resolved target proposal) (valid : memo.Valid) :
    ∃ id, memo.standing? proposal = some id := by
  cases proposal with
  | group id => exact ⟨id, rfl⟩
  | node operator inputs =>
    obtain ⟨_, _, expr, _, _, _, _, done⟩ := resolved.exists_expr valid
    exact ⟨expr.group, standing_of_offers valid _
      (materialize_offers valid (fun _ => rfl) _ done (.refl memo))⟩

/-- **After their insertion all operators of proposals have their shapes.** -/
theorem settled_insertProposals {target : GroupId} {proposals : List Proposal} {count : Nat}
    (valid : memo.Valid) (done : memo.insertProposals target proposals = .ok (count, next))
    {proposal : Proposal} (member : proposal ∈ proposals) {operator : Operator}
    {inputs : List Proposal} (part : (Proposal.node operator inputs).Part proposal) :
    next.Settled operator inputs := by
  have after := (insertProposals_keeps done valid).1
  obtain ⟨id, standing⟩ := (insertProposals_resolves valid done member).standing after
  obtain ⟨own, found⟩ := standing_of_part part standing
  exact settled_of_standing found

/-! ### The shapes of proposals -/

mutual

/-- The shapes of a proposal: its operators, each over the groups that its inputs have. -/
def shapesOf (memo : Memo) : Proposal → List (Operator × List GroupId)
  | .group _ => []
  | .node operator inputs =>
    shapesOfAll memo inputs ++ ((memo.standingAll? inputs).map fun ids => (operator, ids)).toList

/-- The shapes of some proposals, one for every operator in them. -/
def shapesOfAll (memo : Memo) : List Proposal → List (Operator × List GroupId)
  | [] => []
  | proposal :: rest => shapesOf memo proposal ++ shapesOfAll memo rest

end

section Shapes

variable {operator : Operator} {ids : List GroupId}

mutual

theorem mem_shapesOf_iff : (proposal : Proposal) →
    ((operator, ids) ∈ memo.shapesOf proposal ↔
      ∃ inputs, (Proposal.node operator inputs).Part proposal ∧ memo.standingAll? inputs = some ids)
  | .group id => by
    refine ⟨fun member => absurd member List.not_mem_nil, ?_⟩
    rintro ⟨inputs, part, _⟩
    cases part
  | .node root children => by
    unfold shapesOf
    rw [List.mem_append, mem_shapesOfAll_iff children, Option.mem_toList]
    constructor
    · rintro (⟨proposal, member, inputs, part, standing⟩ | found)
      · exact ⟨inputs, .child member part, standing⟩
      · obtain ⟨others, standing, same⟩ := Option.map_eq_some_iff.1 found
        cases same
        exact ⟨children, .self, standing⟩
    · rintro ⟨inputs, part, standing⟩
      cases part with
      | self => exact .inr (by rw [standing]; rfl)
      | child member part => exact .inl ⟨_, member, inputs, part, standing⟩

/-- A shape belongs to an operator in some proposal. -/
theorem mem_shapesOfAll_iff : (proposals : List Proposal) →
    ((operator, ids) ∈ memo.shapesOfAll proposals ↔
      ∃ proposal ∈ proposals, ∃ inputs, (Proposal.node operator inputs).Part proposal ∧
        memo.standingAll? inputs = some ids)
  | [] => by simp [shapesOfAll]
  | proposal :: rest => by
    unfold shapesOfAll
    rw [List.mem_append, mem_shapesOf_iff proposal, mem_shapesOfAll_iff rest]
    simp only [List.mem_cons, exists_eq_or_imp]

end

/-- Two shapes that are found are equal exactly where they are found as one expression. -/
theorem Valid.lookup_eq_iff (valid : memo.Valid) {first second : Operator × List GroupId}
    {number : ExprId} (found : memo.lookup first.1 first.2 = some number) :
    (first == second) = true ↔ memo.lookup second.1 second.2 = some number := by
  obtain ⟨expr, stored, equal, same⟩ := valid.lookup_eq_some_iff.1 found
  rw [valid.lookup_eq_some_iff]
  constructor
  · intro both
    obtain ⟨operators, children⟩ := Bool.and_eq_true_iff.1 both
    exact ⟨expr, stored, BEq.trans equal operators, same.trans (eq_of_beq children)⟩
  · rintro ⟨again, there, alike, as⟩
    obtain rfl : expr = again := Option.some.inj (stored.symm.trans there)
    exact Bool.and_eq_true_iff.2 ⟨BEq.trans (BEq.symm equal) alike, beq_iff_eq.2 (same.symm.trans as)⟩

/-- A shape that was found is found in the same place. -/
theorem Valid.lookup_mono (valid : memo.Valid) (after : next.Valid) (grows : memo.Grows next)
    {number : ExprId} (found : memo.lookup operator ids = some number) :
    next.lookup operator ids = some number := by
  obtain ⟨expr, stored, shape⟩ := valid.lookup_eq_some_iff.1 found
  exact after.lookup_eq_some_iff.2 ⟨expr, grows.exprs stored, shape⟩

/-- The shapes of some proposals that a memo did not have. -/
def newShapes (memo next : Memo) (proposals : List Proposal) : List (Operator × List GroupId) :=
  (next.shapesOfAll proposals).filter fun shape => (memo.lookup shape.1 shape.2).isNone

variable {target : GroupId} {proposals : List Proposal} {count : Nat}

/-- **The new expressions are those for the new shapes.** -/
theorem newShapes_iff (valid : memo.Valid)
    (done : memo.insertProposals target proposals = .ok (count, next)) {number : ExprId} :
    (∃ shape ∈ memo.newShapes next proposals, next.lookup shape.1 shape.2 = some number) ↔
      memo.exprs.size ≤ number ∧ number < next.exprs.size := by
  obtain ⟨after, grows⟩ := insertProposals_keeps done valid
  constructor
  · rintro ⟨shape, member, found⟩
    obtain ⟨_, absent⟩ := List.mem_filter.1 member
    obtain ⟨expr, stored, alike⟩ := after.lookup_eq_some_iff.1 found
    refine ⟨?_, lt_of_expr stored⟩
    by_contra old
    have before := Array.getElem?_eq_getElem (Nat.lt_of_not_le old)
    obtain rfl := Option.some.inj ((grows.exprs before).symm.trans stored)
    rw [valid.lookup_eq_some_iff.2 ⟨_, before, alike⟩] at absent
    cases absent
  · rintro ⟨new, inside⟩
    obtain ⟨expr, stored⟩ : ∃ expr, next.exprs[number]? = some expr :=
      ⟨_, Array.getElem?_eq_getElem inside⟩
    have found := after.lookup_eq_some_iff.2 ⟨expr, stored, ReflBEq.rfl, rfl⟩
    refine ⟨(expr.operator, expr.children), List.mem_filter.2 ⟨?_, ?_⟩, found⟩
    · rcases stored_insertProposals valid done stored with
        before | ⟨proposal, member, inputs, part, offers⟩
      · exact absurd (lt_of_expr before) (Nat.not_lt.2 new)
      · exact (mem_shapesOfAll_iff proposals).2
          ⟨proposal, member, inputs, part, standingAll_of_offers after inputs offers⟩
    · rw [Option.isNone_iff_eq_none, Option.eq_none_iff_forall_ne_some]
      intro other before
      have same := Option.some.inj (found.symm.trans (valid.lookup_mono after grows before))
      obtain ⟨_, old, _⟩ := valid.lookup_eq_some_iff.1 before
      exact absurd (same ▸ lt_of_expr old) (Nat.not_lt.2 new)

/-- **An insertion counts the distinct new shapes.** -/
theorem insertProposals_count (valid : memo.Valid)
    (done : memo.insertProposals target proposals = .ok (count, next)) :
    count = (memo.newShapes next proposals).eraseDups.length := by
  have after := (insertProposals_keeps done valid).1
  have every : ∀ shape ∈ memo.newShapes next proposals, ∃ number,
      next.lookup shape.1 shape.2 = some number := by
    intro shape member
    obtain ⟨proposal, inside, inputs, part, standing⟩ :=
      (mem_shapesOfAll_iff proposals).1 (List.mem_filter.1 member).1
    obtain ⟨ids, number, below, found⟩ := settled_insertProposals valid done inside part
    obtain rfl := Option.some.inj (below.symm.trans standing)
    exact ⟨number, found⟩
  have places : ((memo.newShapes next proposals).map fun shape =>
      next.lookup shape.1 shape.2).toFinset =
        (Finset.Ico memo.exprs.size next.exprs.size).image some := by
    ext place
    rw [List.mem_toFinset, List.mem_map, Finset.mem_image]
    constructor
    · rintro ⟨shape, member, rfl⟩
      obtain ⟨number, found⟩ := every shape member
      have between := (newShapes_iff valid done).1 ⟨shape, member, found⟩
      exact ⟨number, Finset.mem_Ico.2 between, found.symm⟩
    · rintro ⟨number, between, rfl⟩
      obtain ⟨shape, member, found⟩ := (newShapes_iff valid done).2 (Finset.mem_Ico.1 between)
      exact ⟨shape, member, found⟩
  have tells : ∀ first ∈ memo.newShapes next proposals, ∀ second ∈ memo.newShapes next proposals,
      (first == second) = true ↔
        next.lookup first.1 first.2 = next.lookup second.1 second.2 := by
    intro first member second other
    obtain ⟨number, found⟩ := every first member
    rw [after.lookup_eq_iff found, found, eq_comm]
  rw [length_eraseDups tells, places, Finset.card_image_of_injective _ (Option.some_injective _),
    Nat.card_Ico]
  obtain ⟨grown, _, done⟩ := bind_eq_ok_iff.1 done
  cases pure_eq_ok_iff.1 done
  rfl

end Shapes

/-! ### Putting proposals into an open group -/

/-- **Proposals are put in once, and their new shapes are counted.** -/
theorem insertProposals_counted {requests : List Request} {target : GroupId} {group : Group}
    {proposals : List Proposal} (history : Memo.empty.performAll requests = .ok memo)
    (isOpen : memo.isOpen = true) (there : memo.groups[target]? = some group)
    (room : group.isOpen = true)
    (receives : ∀ proposal ∈ proposals, memo.Receives group.isScalar proposal) :
    ∃ count next, memo.insertProposals target proposals = .ok (count, next) ∧
      -- Every operator of every proposal has its shape, over groups that are found from below.
      (∀ proposal ∈ proposals, ∀ operator inputs,
        (Proposal.node operator inputs).Part proposal → next.Settled operator inputs) ∧
      -- At any later time they add nothing, to this group and to every other one.
      (∀ more later, next.performAll more = .ok later → ∀ other,
        later.insertProposals other proposals = .ok (0, later)) ∧
      -- Each distinct shape that was not there before is counted once.
      count = (memo.newShapes next proposals).eraseDups.length := by
  have valid : memo.Valid := (performAll_keeps history empty_valid).1
  have roomy : memo.Roomy target group.isScalar := ⟨valid, isOpen, group, there, rfl, room⟩
  obtain ⟨count, next, done⟩ := roomy.insertProposals receives
  have after := (insertProposals_keeps done valid).1
  refine ⟨count, next, done, fun proposal member operator inputs part =>
    settled_insertProposals valid done member part, fun more later run other => ?_,
    insertProposals_count valid done⟩
  obtain ⟨valid', grows⟩ := performAll_keeps run after
  exact insertProposals_of_standing valid' fun proposal member =>
    ((insertProposals_resolves valid done member).mono after valid' grows).standing valid'

/-- A join of two tables. -/
def joinedTables : List Request :=
  [.insert (.logical (.get ⟨"shop", "orders"⟩ [])) [],
    .insert (.logical (.get ⟨"shop", "items"⟩ [])) [],
    .insert .truth [],
    .insert (.logical (.join .inner)) [0, 1, 2]]

/-- Proposals for the join that have operators in common, with each other and with the memo: the
exchanged join, twice, and a selection of the join and of the exchanged join. -/
def joinProposals : List Proposal :=
  let exchanged := .node (.logical (.join .inner)) [.group 1, .group 0, .node .truth []]
  let predicate := .node (.scalar .and) [.group 2, .node .truth []]
  [exchanged, .node (.logical .select) [exchanged, predicate],
    .node (.logical .select) [.node (.logical (.join .inner)) [.group 0, .group 1, .group 2],
      predicate], .group 3, exchanged]

theorem insertProposals_counted_joinProposals :
    ∃ memo next, Memo.empty.performAll joinedTables = .ok memo ∧
      memo.insertProposals 3 joinProposals = .ok (3, next) ∧
      next.Settled (.scalar .and) [.group 2, .node .truth []] ∧
      (memo.newShapes next joinProposals).eraseDups.length = 3 ∧
      next.close.insertProposals 3 joinProposals = .ok (0, next.close) := by
  have facts : (Memo.empty.performAll joinedTables).toOption.bind (fun memo =>
      (memo.insertProposals 3 joinProposals).toOption.bind fun grown =>
        (memo.groups[3]?).map fun group =>
          (memo.isOpen, memo.groups.size, group.isScalar, group.isOpen, grown.1)) =
        some (true, 4, false, true, 3) := by
    decide +kernel
  cases history : Memo.empty.performAll joinedTables with
  | error cause =>
    rw [history] at facts
    cases facts
  | ok memo =>
    rw [history] at facts
    change Option.bind (memo.insertProposals 3 joinProposals).toOption _ = _ at facts
    obtain ⟨grown, inserted, facts⟩ := Option.bind_eq_some_iff.1 facts
    obtain ⟨group, there, facts⟩ := Option.map_eq_some_iff.1 facts
    simp only [Prod.mk.injEq] at facts
    obtain ⟨isOpen, size, family, room, three⟩ := facts
    have receives : ∀ proposal ∈ joinProposals, memo.Receives group.isScalar proposal := by
      simp [joinProposals, Receives, size, family, Operator.isScalar]
    obtain ⟨count, next, done, settled, again, counted⟩ :=
      insertProposals_counted history isOpen there room receives
    rw [done] at inserted
    cases inserted
    dsimp only at three
    subst three
    refine ⟨memo, next, rfl, done, ?_, counted.symm, ?_⟩
    · exact settled _ (.tail _ (.head _)) _ _ (.child (.tail _ (.head _)) .self)
    · exact again [.close] next.close rfl 3

end Memo

end Cascades
