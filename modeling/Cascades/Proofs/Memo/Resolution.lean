/-
**Inserting again changes nothing.**

An expression that was inserted is found by its shape in the memo and in every memo that grew out of
it, so inserting it once more gives the same expression and leaves the memo as it is. The same holds
of a whole proposal: after the first insertion every part of it is there.

* `insert_again`, `materialize_again`: expressions and proposals with groups of their own;
* `Resolved`: a proposal for a group adds nothing; `insertProposals_resolves`: that is so of every
  proposal after its insertion, and `Resolved.mono`: ever after;
* `insertProposals_exprs`: proposals that add no expression change nothing.
-/

import Cascades.Proofs.Memo.Insertion

namespace Cascades.Memo

variable {memo next later : Memo}

/-! ### Expressions -/

section Shape

variable {operator : Operator} {children : List GroupId} {id : ExprId}

/-- The expression that an insertion gives has the shape that was asked for. -/
theorem insert_stored (valid : memo.Valid) (done : memo.insert operator children = .ok (id, next)) :
    ∃ expr, next.exprs[id]? = some expr ∧ (expr.operator == operator) = true ∧
      expr.children = children := by
  obtain ⟨_, ⟨found, rfl⟩ | ⟨_, _, rfl, rfl⟩⟩ := insert_cases done
  · exact valid.lookup_eq_some_iff.1 found
  · exact ⟨_, stored_append_iff.2 (Or.inr ⟨rfl, rfl⟩), ReflBEq.rfl, rfl⟩

theorem insertInto_stored {target : GroupId} (valid : memo.Valid)
    (done : memo.insertInto target operator children = .ok (id, next)) :
    ∃ expr, next.exprs[id]? = some expr ∧ (expr.operator == operator) = true ∧
      expr.children = children := by
  obtain ⟨_, ⟨found, rfl⟩ | ⟨_, rfl, rfl, _⟩⟩ := insertInto_cases done
  · exact valid.lookup_eq_some_iff.1 found
  · exact ⟨_, stored_append_iff.2 (Or.inr ⟨rfl, rfl⟩), ReflBEq.rfl, rfl⟩

/-- A shape that is stored is found when it is inserted. -/
theorem insert_of_stored (valid : memo.Valid) {expr : Expr} (stored : memo.exprs[id]? = some expr)
    (equal : (expr.operator == operator) = true) (same : expr.children = children) :
    memo.insert operator children = .ok (id, memo) := by
  have exist : memo.requireChildren operator children = .ok () :=
    requireChildren_ok_iff.2 fun child member => valid.childExists stored (same ▸ member)
  have found := valid.lookup_eq_some_iff.2 ⟨expr, stored, equal, same⟩
  unfold insert
  rw [exist, found]
  rfl

theorem insertInto_of_stored {target : GroupId} (valid : memo.Valid) {expr : Expr}
    (stored : memo.exprs[id]? = some expr) (equal : (expr.operator == operator) = true)
    (same : expr.children = children) :
    memo.insertInto target operator children = .ok (id, memo) := by
  have exist : memo.requireChildren operator children = .ok () :=
    requireChildren_ok_iff.2 fun child member => valid.childExists stored (same ▸ member)
  have found := valid.lookup_eq_some_iff.2 ⟨expr, stored, equal, same⟩
  unfold insertInto
  rw [exist, found]
  rfl

/-- **An insertion that is repeated later** gives the same expression and adds nothing. -/
theorem insert_again (valid : memo.Valid) (done : memo.insert operator children = .ok (id, next))
    (after : later.Valid) (grows : next.Grows later) :
    later.insert operator children = .ok (id, later) := by
  obtain ⟨expr, stored, equal, same⟩ := insert_stored valid done
  exact insert_of_stored after (grows.exprs stored) equal same

theorem insertInto_again {target : GroupId} (valid : memo.Valid)
    (done : memo.insertInto target operator children = .ok (id, next)) (after : later.Valid)
    (grows : next.Grows later) :
    later.insertInto target operator children = .ok (id, later) := by
  obtain ⟨expr, stored, equal, same⟩ := insertInto_stored valid done
  exact insertInto_of_stored after (grows.exprs stored) equal same

end Shape

/-! ### Proposals -/

mutual

/-- A proposal that has its group keeps it. -/
theorem materialize_again {memo next later : Memo} {id : GroupId} (valid : memo.Valid)
    (after : later.Valid) : (proposal : Proposal) → memo.materialize proposal = .ok (id, next) →
    next.Grows later → later.materialize proposal = .ok (id, later)
  | .group _, done, _ => by
    cases pure_eq_ok_iff.1 done
    rfl
  | .node operator children, done, grows => by
    unfold materialize at done
    obtain ⟨⟨groups, middle⟩, below, done⟩ := bind_eq_ok_iff.1 done
    obtain ⟨⟨expr, last⟩, inserted, done⟩ := bind_eq_ok_iff.1 done
    obtain ⟨stored, there, done⟩ := bind_eq_ok_iff.1 done
    cases pure_eq_ok_iff.1 done
    have between := (materializeAll_keeps below valid).1
    have more := (insert_keeps inserted between).2.trans grows
    have found : later.expr expr = .ok stored :=
      expr_ok_iff.2 (grows.exprs (expr_ok_iff.1 there))
    have again := materializeAll_again valid after children below more
    unfold materialize
    rw [again]
    show (later.insert operator groups >>= _) = _
    rw [insert_again between inserted after grows]
    show (later.expr expr >>= _) = _
    rw [found]
    rfl

/-- Proposals that have their groups keep them. -/
theorem materializeAll_again {memo next later : Memo} {ids : List GroupId} (valid : memo.Valid)
    (after : later.Valid) : (proposals : List Proposal) →
    memo.materializeAll proposals = .ok (ids, next) → next.Grows later →
      later.materializeAll proposals = .ok (ids, later)
  | [], done, _ => by
    cases pure_eq_ok_iff.1 done
    rfl
  | proposal :: rest, done, grows => by
    unfold materializeAll at done
    obtain ⟨⟨id, middle⟩, first, done⟩ := bind_eq_ok_iff.1 done
    obtain ⟨⟨ids, last⟩, others, done⟩ := bind_eq_ok_iff.1 done
    cases pure_eq_ok_iff.1 done
    have between := (materialize_keeps first valid).1
    have more := (materializeAll_keeps others between).2.trans grows
    unfold materializeAll
    rw [materialize_again valid after proposal first more]
    show (later.materializeAll rest >>= _) = _
    rw [materializeAll_again between after rest others grows]
    rfl

end

/-- A proposal for a group that adds nothing to a memo. -/
def Resolved (memo : Memo) (target : GroupId) (proposal : Proposal) : Prop :=
  memo.insertProposal target proposal = .ok memo

theorem insertProposal_keeps {target : GroupId} {proposal : Proposal}
    (done : memo.insertProposal target proposal = .ok next) : memo.Keeps next := by
  cases proposal with
  | group id =>
    cases pure_eq_ok_iff.1 done
    exact Keeps.refl memo
  | node operator children =>
    unfold insertProposal at done
    obtain ⟨⟨groups, middle⟩, below, done⟩ := bind_eq_ok_iff.1 done
    obtain ⟨⟨expr, last⟩, inserted, done⟩ := bind_eq_ok_iff.1 done
    cases pure_eq_ok_iff.1 done
    exact (materializeAll_keeps below).trans (insertInto_keeps inserted)

/-- A proposal adds nothing once it was inserted. -/
theorem insertProposal_resolves {target : GroupId} {proposal : Proposal} (valid : memo.Valid)
    (done : memo.insertProposal target proposal = .ok next) (after : later.Valid)
    (grows : next.Grows later) : later.Resolved target proposal := by
  cases proposal with
  | group id => exact rfl
  | node operator children =>
    unfold insertProposal at done
    obtain ⟨⟨groups, middle⟩, below, done⟩ := bind_eq_ok_iff.1 done
    obtain ⟨⟨expr, last⟩, inserted, done⟩ := bind_eq_ok_iff.1 done
    cases pure_eq_ok_iff.1 done
    have between := (materializeAll_keeps below valid).1
    have more := (insertInto_keeps inserted between).2.trans grows
    show (later.materializeAll children >>= _) = _
    rw [materializeAll_again valid after children below more]
    show (later.insertInto target operator groups >>= _) = _
    rw [insertInto_again between inserted after grows]
    rfl

/-- What adds nothing to a memo adds nothing to one that grew out of it. -/
theorem Resolved.mono {target : GroupId} {proposal : Proposal}
    (resolved : memo.Resolved target proposal) (valid : memo.Valid) (after : later.Valid)
    (grows : memo.Grows later) : later.Resolved target proposal :=
  insertProposal_resolves valid resolved after grows

/-- A proposal that adds nothing is stored, and its expression is the one it gets without a group. -/
theorem Resolved.exists_expr {target : GroupId} {operator : Operator} {children : List Proposal}
    (resolved : memo.Resolved target (.node operator children)) (valid : memo.Valid) :
    ∃ (ids : List GroupId) (number : ExprId) (expr : Expr),
      memo.materializeAll children = .ok (ids, memo) ∧
      memo.exprs[number]? = some expr ∧ (expr.operator == operator) = true ∧ expr.children = ids ∧
      memo.materialize (.node operator children) = .ok (expr.group, memo) := by
  unfold Resolved insertProposal at resolved
  obtain ⟨⟨ids, middle⟩, below, done⟩ := bind_eq_ok_iff.1 resolved
  obtain ⟨⟨number, last⟩, inserted, done⟩ := bind_eq_ok_iff.1 done
  obtain rfl := pure_eq_ok_iff.1 done
  have between := (materializeAll_keeps below valid).1
  have grows := (insertInto_keeps inserted between).2
  obtain ⟨expr, stored, equal, same⟩ := insertInto_stored between inserted
  have again := materializeAll_again valid valid children below grows
  refine ⟨ids, number, expr, again, stored, equal, same, ?_⟩
  unfold materialize
  refine bind_eq_ok_iff.2 ⟨_, again, bind_eq_ok_iff.2 ⟨_, insert_of_stored valid stored equal same, ?_⟩⟩
  exact bind_eq_ok_iff.2 ⟨expr, expr_ok_iff.2 stored, rfl⟩

/-- After the insertion of some proposals in order each of them adds nothing. -/
theorem foldlM_resolves {target : GroupId} {proposals : List Proposal} (valid : memo.Valid)
    (run : proposals.foldlM (fun memo proposal => memo.insertProposal target proposal) memo =
      .ok next) {proposal : Proposal} (member : proposal ∈ proposals) :
    next.Resolved target proposal := by
  induction proposals generalizing memo with
  | nil => cases member
  | cons head tail ih =>
    rw [List.foldlM_cons] at run
    obtain ⟨middle, one, others⟩ := bind_eq_ok_iff.1 run
    have between := (insertProposal_keeps one valid).1
    have rest : middle.Keeps next :=
      foldlM_relates Keeps.refl Keeps.trans (fun _ step => insertProposal_keeps step) others
    obtain ⟨after, grows⟩ := rest between
    rcases List.mem_cons.1 member with rfl | member
    · exact insertProposal_resolves valid one after grows
    · exact ih between others member

/-- **After their insertion proposals add nothing any more.** -/
theorem insertProposals_resolves {target : GroupId} {proposals : List Proposal} {count : Nat}
    (valid : memo.Valid) (done : memo.insertProposals target proposals = .ok (count, next))
    {proposal : Proposal} (member : proposal ∈ proposals) : next.Resolved target proposal := by
  unfold insertProposals at done
  obtain ⟨grown, run, done⟩ := bind_eq_ok_iff.1 done
  cases pure_eq_ok_iff.1 done
  exact foldlM_resolves valid run member

/-- Proposals that all add nothing add nothing together. -/
theorem insertProposals_of_resolved {target : GroupId} {proposals : List Proposal}
    (resolved : ∀ proposal ∈ proposals, memo.Resolved target proposal) :
    memo.insertProposals target proposals = .ok (0, memo) := by
  have run : proposals.foldlM (fun memo proposal => memo.insertProposal target proposal) memo =
      .ok memo := by
    induction proposals with
    | nil => rfl
    | cons head tail ih =>
      rw [List.foldlM_cons, resolved head List.mem_cons_self]
      exact ih fun proposal member => resolved proposal (List.mem_cons_of_mem _ member)
  unfold insertProposals
  rw [run]
  show (.ok (memo.exprs.size - memo.exprs.size, memo) : Except Fault (Nat × Memo)) = _
  rw [Nat.sub_self]

/-! ### What insertions leave alone -/

/-- A memo with the same marks. -/
def SameMarks (memo next : Memo) : Prop := next.marks = memo.marks

theorem SameMarks.refl (memo : Memo) : memo.SameMarks memo := rfl

/-- An insertion changes no mark. -/
theorem insert_marks {operator : Operator} {children : List GroupId} {id : ExprId}
    (done : memo.insert operator children = .ok (id, next)) : memo.SameMarks next := by
  obtain ⟨_, ⟨_, rfl⟩ | ⟨_, _, _, rfl⟩⟩ := insert_cases done <;> rfl

/-- Proposals change no mark. -/
theorem insertProposals_marks {target : GroupId} {proposals : List Proposal} {count : Nat}
    (done : memo.insertProposals target proposals = .ok (count, next)) : memo.SameMarks next := by
  refine insertProposals_relates SameMarks.refl ?_ insert_marks ?_ done
  · intro one two three first second
    exact second.trans first
  · intro memo next target operator children id inserted
    obtain ⟨_, ⟨_, rfl⟩ | ⟨_, _, rfl, _⟩⟩ := insertInto_cases inserted <;> rfl

/-- A memo that is the same or has more expressions. -/
def SameOrMore (memo next : Memo) : Prop := next = memo ∨ memo.exprs.size < next.exprs.size

/-- Proposals that add no expression change nothing. -/
theorem insertProposals_exprs {target : GroupId} {proposals : List Proposal}
    (done : memo.insertProposals target proposals = .ok (0, next)) : next = memo := by
  have refl : ∀ memo : Memo, memo.SameOrMore memo := fun _ => Or.inl rfl
  have either : memo.SameOrMore next := by
    refine insertProposals_relates refl ?_ ?_ ?_ done
    · rintro one two three (rfl | more) (rfl | again)
      · exact Or.inl rfl
      · exact Or.inr again
      · exact Or.inr more
      · exact Or.inr (Nat.lt_trans more again)
    · intro memo next operator children id inserted
      obtain ⟨_, ⟨_, rfl⟩ | ⟨_, _, _, rfl⟩⟩ := insert_cases inserted
      · exact Or.inl rfl
      · refine Or.inr ?_
        rw [size_exprs_append]
        exact Nat.lt_succ_self _
    · intro memo next target operator children id inserted
      obtain ⟨_, ⟨_, rfl⟩ | ⟨_, _, rfl, _⟩⟩ := insertInto_cases inserted
      · exact Or.inl rfl
      · refine Or.inr ?_
        rw [size_exprs_append]
        exact Nat.lt_succ_self _
  rcases either with same | more
  · exact same
  · unfold insertProposals at done
    obtain ⟨grown, _, done⟩ := bind_eq_ok_iff.1 done
    obtain ⟨none, rfl⟩ := Prod.mk.inj (pure_eq_ok_iff.1 done)
    omega

end Cascades.Memo
