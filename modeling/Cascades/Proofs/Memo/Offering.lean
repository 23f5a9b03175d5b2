/-
**What a proposal adds to a memo.**

A proposal is put into a memo from its leaves up: every operator of it becomes an expression over the
groups that its inputs got. So the group of a proposal offers it ever after, and nothing else is added
than expressions for parts of the proposal.

* `Memo.Offers`: a proposal is there; `materialize_offers`: so it is once it was put in;
* `Proposal.Part`: the proposals in a proposal; `Memo.Expresses`: an expression for one of them;
* `stored_materialize`, `stored_insertProposals`: what is stored then.
-/

import Cascades.Proofs.Memo.Resolution

namespace Cascades

/-- A proposal that is in a proposal. -/
inductive Proposal.Part : Proposal → Proposal → Prop
  | self {proposal : Proposal} : Part proposal proposal
  | child {part input : Proposal} {operator : Operator} {inputs : List Proposal}
      (member : input ∈ inputs) (below : Part part input) : Part part (.node operator inputs)

namespace Proposal

variable {operator other : Operator} {inputs : List Proposal} {ids : List GroupId}

/-- The only operator in a proposal over groups. -/
theorem Part.of_overGroups (part : (node operator inputs).Part (overGroups other ids)) :
    operator = other ∧ inputs = ids.map group := by
  cases part with
  | self => exact ⟨rfl, rfl⟩
  | child member below =>
    obtain ⟨_, _, rfl⟩ := List.mem_map.1 member
    cases below

/-- The operators in a conjunction are scalar. -/
theorem Part.of_conjunction (part : (node operator inputs).Part (conjunction ids)) :
    operator.isScalar = true := by
  match ids with
  | [] =>
    cases part with
    | self => rfl
    | child member => cases member
  | [_] => cases part
  | _ :: _ :: _ =>
    obtain ⟨rfl, _⟩ := part.of_overGroups
    rfl

end Proposal

namespace Memo

variable {memo next later : Memo} {same : GroupId → GroupId → Prop} {id : GroupId}

/-! ### Proposals that are there -/

mutual

/-- **A proposal is offered by a group**: its root is a member, over groups that offer what is below it,
where some groups count as one. -/
def Offers (memo : Memo) (same : GroupId → GroupId → Prop) : Proposal → GroupId → Prop
  | .group other, id => same id other
  | .node operator children, id =>
    ∃ (number : ExprId) (expr : Expr), memo.exprs[number]? = some expr ∧ same id expr.group ∧
      (expr.operator == operator) = true ∧ OffersAll memo same children expr.children

/-- Some proposals are offered by some groups one by one. -/
def OffersAll (memo : Memo) (same : GroupId → GroupId → Prop) : List Proposal → List GroupId → Prop
  | [], ids => ids = []
  | proposal :: rest, ids =>
    ∃ id others, ids = id :: others ∧ Offers memo same proposal id ∧ OffersAll memo same rest others

end

theorem offersAll_groups {ids children : List GroupId} :
    memo.OffersAll same (ids.map .group) children ↔ List.Forall₂ same children ids := by
  induction ids generalizing children with
  | nil => simp [OffersAll]
  | cons id ids ih =>
    simp only [List.map_cons, OffersAll, ih, List.forall₂_cons_right_iff, Offers]
    constructor
    · rintro ⟨child, others, rfl, is, rest⟩
      exact ⟨child, others, is, rest, rfl⟩
    · rintro ⟨child, others, is, rest, rfl⟩
      exact ⟨child, others, rfl, is, rest⟩

mutual

/-- **The group that a proposal gets** offers it ever after. -/
theorem materialize_offers {memo next later : Memo} {id : GroupId} (valid : memo.Valid)
    (self : ∀ id, same id id) : (proposal : Proposal) →
      memo.materialize proposal = .ok (id, next) → next.Grows later →
        later.Offers same proposal id
  | .group other, done, _ => by
    obtain ⟨rfl, _⟩ := Prod.mk.inj (pure_eq_ok_iff.1 done)
    exact self _
  | .node operator children, done, grows => by
    unfold materialize at done
    obtain ⟨⟨groups, middle⟩, inputs, done⟩ := bind_eq_ok_iff.1 done
    obtain ⟨⟨number, last⟩, inserted, done⟩ := bind_eq_ok_iff.1 done
    obtain ⟨stored, there, done⟩ := bind_eq_ok_iff.1 done
    obtain ⟨rfl, rfl⟩ := Prod.mk.inj (pure_eq_ok_iff.1 done)
    have between := (materializeAll_keeps inputs valid).1
    have more := (insert_keeps inserted between).2
    obtain ⟨expr, again, equal, shape⟩ := insert_stored between inserted
    obtain rfl : expr = stored := Option.some.inj (again.symm.trans (expr_ok_iff.1 there))
    refine ⟨number, expr, grows.exprs again, self _, equal, ?_⟩
    rw [shape]
    exact materializeAll_offers valid self children inputs (more.trans grows)

/-- The groups that proposals get offer them ever after. -/
theorem materializeAll_offers {memo next later : Memo} {ids : List GroupId} (valid : memo.Valid)
    (self : ∀ id, same id id) : (proposals : List Proposal) →
      memo.materializeAll proposals = .ok (ids, next) → next.Grows later →
        later.OffersAll same proposals ids
  | [], done, _ => by
    obtain ⟨rfl, _⟩ := Prod.mk.inj (pure_eq_ok_iff.1 done)
    exact rfl
  | proposal :: rest, done, grows => by
    unfold materializeAll at done
    obtain ⟨⟨id, middle⟩, first, done⟩ := bind_eq_ok_iff.1 done
    obtain ⟨⟨ids, last⟩, others, done⟩ := bind_eq_ok_iff.1 done
    obtain ⟨rfl, rfl⟩ := Prod.mk.inj (pure_eq_ok_iff.1 done)
    have between := (materialize_keeps first valid).1
    have more := (materializeAll_keeps others between).2.trans grows
    exact ⟨id, ids, rfl, materialize_offers valid self proposal first more,
      materializeAll_offers between self rest others grows⟩

end

/-! ### What is stored -/

/-- An expression for an operator in a proposal: its inputs are groups that offer those of the
operator. -/
def Expresses (memo : Memo) (proposal : Proposal) (expr : Expr) : Prop :=
  ∃ inputs, (Proposal.node expr.operator inputs).Part proposal ∧
    memo.OffersAll (· = ·) inputs expr.children

mutual

/-- **Putting a proposal into a memo** adds expressions for parts of it. -/
theorem stored_materialize {memo next later : Memo} {id : GroupId} (valid : memo.Valid)
    {number : ExprId} {expr : Expr} : (proposal : Proposal) →
      memo.materialize proposal = .ok (id, next) → next.Grows later →
        next.exprs[number]? = some expr →
          memo.exprs[number]? = some expr ∨ later.Expresses proposal expr
  | .group _, done, _, stored => by
    cases pure_eq_ok_iff.1 done
    exact Or.inl stored
  | .node operator inputs, done, grows, stored => by
    unfold materialize at done
    obtain ⟨⟨groups, middle⟩, below, done⟩ := bind_eq_ok_iff.1 done
    obtain ⟨⟨_, last⟩, inserted, done⟩ := bind_eq_ok_iff.1 done
    obtain ⟨_, _, done⟩ := bind_eq_ok_iff.1 done
    obtain ⟨_, rfl⟩ := Prod.mk.inj (pure_eq_ok_iff.1 done)
    have between := (materializeAll_keeps below valid).1
    have more := (insert_keeps inserted between).2.trans grows
    rcases stored_insert inserted stored with before | ⟨rfl, shape, _⟩
    · refine (stored_materializeAll valid inputs below more before).imp_right ?_
      rintro ⟨input, member, nodes, part, offers⟩
      exact ⟨nodes, .child member part, offers⟩
    · refine Or.inr ⟨inputs, .self, ?_⟩
      rw [shape]
      exact materializeAll_offers valid (fun _ => rfl) inputs below more

theorem stored_materializeAll {memo next later : Memo} {ids : List GroupId} (valid : memo.Valid)
    {number : ExprId} {expr : Expr} : (proposals : List Proposal) →
      memo.materializeAll proposals = .ok (ids, next) → next.Grows later →
        next.exprs[number]? = some expr →
          memo.exprs[number]? = some expr ∨ ∃ proposal ∈ proposals, later.Expresses proposal expr
  | [], done, _, stored => by
    cases pure_eq_ok_iff.1 done
    exact Or.inl stored
  | proposal :: rest, done, grows, stored => by
    unfold materializeAll at done
    obtain ⟨⟨_, middle⟩, first, done⟩ := bind_eq_ok_iff.1 done
    obtain ⟨⟨_, last⟩, others, done⟩ := bind_eq_ok_iff.1 done
    obtain ⟨_, rfl⟩ := Prod.mk.inj (pure_eq_ok_iff.1 done)
    have between := (materialize_keeps first valid).1
    have more := (materializeAll_keeps others between).2.trans grows
    rcases stored_materializeAll between rest others grows stored with before | ⟨other, member, found⟩
    · exact (stored_materialize valid proposal first more before).imp_right fun found =>
        ⟨proposal, List.mem_cons_self, found⟩
    · exact Or.inr ⟨other, List.mem_cons_of_mem _ member, found⟩

end

variable {target : GroupId} {number : ExprId} {expr : Expr}

theorem stored_insertProposal (valid : memo.Valid) {proposal : Proposal}
    (done : memo.insertProposal target proposal = .ok next) (grows : next.Grows later)
    (stored : next.exprs[number]? = some expr) :
    memo.exprs[number]? = some expr ∨ later.Expresses proposal expr := by
  cases proposal with
  | group =>
    cases pure_eq_ok_iff.1 done
    exact Or.inl stored
  | node operator inputs =>
    unfold insertProposal at done
    obtain ⟨⟨groups, middle⟩, below, done⟩ := bind_eq_ok_iff.1 done
    obtain ⟨⟨_, last⟩, inserted, done⟩ := bind_eq_ok_iff.1 done
    obtain rfl := pure_eq_ok_iff.1 done
    have between := (materializeAll_keeps below valid).1
    have more := (insertInto_keeps inserted between).2.trans grows
    rcases stored_insertInto inserted stored with before | ⟨rfl, shape⟩
    · refine (stored_materializeAll valid inputs below more before).imp_right ?_
      rintro ⟨input, member, nodes, part, offers⟩
      exact ⟨nodes, .child member part, offers⟩
    · refine Or.inr ⟨inputs, .self, ?_⟩
      rw [shape]
      exact materializeAll_offers valid (fun _ => rfl) inputs below more

theorem stored_insertOneByOne (valid : memo.Valid) {proposals : List Proposal}
    (run : proposals.foldlM (fun memo proposal => memo.insertProposal target proposal) memo =
      .ok next) (stored : next.exprs[number]? = some expr) :
    memo.exprs[number]? = some expr ∨ ∃ proposal ∈ proposals, next.Expresses proposal expr := by
  induction proposals generalizing memo with
  | nil =>
    cases pure_eq_ok_iff.1 run
    exact Or.inl stored
  | cons proposal proposals ih =>
    rw [List.foldlM_cons] at run
    obtain ⟨middle, one, run⟩ := bind_eq_ok_iff.1 run
    have between := (insertProposal_keeps one valid).1
    have more : middle.Grows next :=
      (insertProposals_keeps (bind_eq_ok_iff.2 ⟨next, run, rfl⟩) between).2
    rcases ih between run with before | ⟨other, member, found⟩
    · exact (stored_insertProposal valid one more before).imp_right fun found =>
        ⟨proposal, List.mem_cons_self, found⟩
    · exact Or.inr ⟨other, List.mem_cons_of_mem _ member, found⟩

/-- **Putting proposals into a group** adds expressions for parts of them. -/
theorem stored_insertProposals (valid : memo.Valid) {proposals : List Proposal} {count : Nat}
    (done : memo.insertProposals target proposals = .ok (count, next))
    (stored : next.exprs[number]? = some expr) :
    memo.exprs[number]? = some expr ∨ ∃ proposal ∈ proposals, next.Expresses proposal expr := by
  obtain ⟨grown, run, done⟩ := bind_eq_ok_iff.1 done
  cases pure_eq_ok_iff.1 done
  exact stored_insertOneByOne valid run stored

end Memo

end Cascades
