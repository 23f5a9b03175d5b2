/-
**What insertion does to a memo.**

An insertion that ends well either finds the shape and changes nothing, or adds one expression at
the end of a group. `insert_cases` and `insertInto_cases` say so with everything that was checked on
the way; what any number of insertions keeps is derived from them.

* `Grows`: expressions stay as they are and member lists are extended at the end;
* `Keeps`: a step from a valid memo grows it and leaves it valid;
* `insert_keeps`, `insertInto_keeps`, `insertProposals_keeps`: so does every insertion.
-/

import Cascades.Proofs.Memo.Valid
import Cascades.Proofs.Outcome
import Cascades.Rule.Basic

set_option linter.unusedSectionVars false

namespace Cascades.Memo

variable {memo next : Memo}

/-! ### One insertion -/

theorem requireChildren_ok_iff {operator : Operator} {children : List GroupId} {done : Unit} :
    memo.requireChildren operator children = .ok done ↔
      ∀ child ∈ children, child < memo.groups.size := by
  unfold requireChildren
  split
  · rename_i child missing
    have outside := List.find?_some missing
    have member := List.mem_of_find?_eq_some missing
    constructor
    · exact nofun
    · intro exist
      exact absurd (exist child member) (by simpa using outside)
  · rename_i all
    rw [List.find?_eq_none] at all
    simpa using all

/-- **An insertion** finds the shape, or adds it as the only member of a new group. -/
theorem insert_cases {operator : Operator} {children : List GroupId} {id : ExprId}
    (done : memo.insert operator children = .ok (id, next)) :
    (∀ child ∈ children, child < memo.groups.size) ∧
      ((memo.lookup operator children = some id ∧ next = memo) ∨
        (memo.lookup operator children = none ∧ memo.isOpen = true ∧ id = memo.exprs.size ∧
          next = (memo.appendGroup operator.isScalar).append memo.groups.size operator
            children)) := by
  unfold insert at done
  obtain ⟨_, exist, done⟩ := bind_eq_ok_iff.1 done
  refine ⟨requireChildren_ok_iff.1 exist, ?_⟩
  split at done
  · rename_i existing found
    cases pure_eq_ok_iff.1 done
    exact Or.inl ⟨found, rfl⟩
  · rename_i absent
    split at done
    · rename_i isOpen
      cases pure_eq_ok_iff.1 done
      exact Or.inr ⟨absent, isOpen, rfl, rfl⟩
    · exact (throw_eq_ok_iff.1 done).elim

/-- **An insertion into a group** finds the shape, or adds it to the group, which is open and of the
operator's family. -/
theorem insertInto_cases {target : GroupId} {operator : Operator} {children : List GroupId}
    {id : ExprId} (done : memo.insertInto target operator children = .ok (id, next)) :
    (∀ child ∈ children, child < memo.groups.size) ∧
      ((memo.lookup operator children = some id ∧ next = memo) ∨
        (memo.lookup operator children = none ∧ id = memo.exprs.size ∧
          next = memo.append target operator children ∧
          ∃ group, memo.groups[target]? = some group ∧ group.isOpen = true ∧
            group.isScalar = operator.isScalar)) := by
  unfold insertInto at done
  obtain ⟨_, exist, done⟩ := bind_eq_ok_iff.1 done
  refine ⟨requireChildren_ok_iff.1 exist, ?_⟩
  split at done
  · rename_i existing found
    cases pure_eq_ok_iff.1 done
    exact Or.inl ⟨found, rfl⟩
  · rename_i absent
    obtain ⟨group, there, done⟩ := bind_eq_ok_iff.1 done
    cases isOpen : group.isOpen with
    | false =>
      rw [isOpen] at done
      cases done
    | true =>
      rw [isOpen] at done
      by_cases family : group.isScalar = operator.isScalar
      · rw [family, bne_self_eq_false] at done
        cases pure_eq_ok_iff.1 done
        exact Or.inr ⟨absent, rfl, rfl, group, group_ok_iff.1 there, isOpen, family⟩
      · rw [bne_iff_ne.2 family] at done
        cases done

/-- What is stored once a shape was inserted: what was stored before, and the shape as the first member
of its group. -/
theorem stored_insert {operator : Operator} {children : List GroupId} {id other : ExprId} {new : Expr}
    (done : memo.insert operator children = .ok (id, next))
    (stored : next.exprs[other]? = some new) :
    memo.exprs[other]? = some new ∨
      (new.operator = operator ∧ new.children = children ∧ new.position = 0 ∧
        new.group = memo.groups.size) := by
  obtain ⟨_, ⟨_, rfl⟩ | ⟨_, _, _, rfl⟩⟩ := insert_cases done
  · exact Or.inl stored
  · rcases stored_append_iff.1 stored with old | ⟨_, rfl⟩
    · exact Or.inl old
    · refine Or.inr ⟨rfl, rfl, ?_, rfl⟩
      rw [added_eq (groups_appendGroup.trans (if_pos rfl))]
      rfl

/-- What is stored once a shape was inserted into a group: what was stored before, and the shape. -/
theorem stored_insertInto {target : GroupId} {operator : Operator} {children : List GroupId}
    {id other : ExprId} {new : Expr} (done : memo.insertInto target operator children = .ok (id, next))
    (stored : next.exprs[other]? = some new) :
    memo.exprs[other]? = some new ∨ (new.operator = operator ∧ new.children = children) := by
  obtain ⟨_, ⟨_, rfl⟩ | ⟨_, _, rfl, _⟩⟩ := insertInto_cases done
  · exact Or.inl stored
  · exact (stored_append_iff.1 stored).imp_right fun ⟨_, new⟩ => ⟨new ▸ rfl, new ▸ rfl⟩

/-! ### Growth -/

/-- A memo that holds all that another one held, in the same places. -/
structure Grows (memo next : Memo) : Prop where
  exprs : ∀ {id : ExprId} {expr : Expr}, memo.exprs[id]? = some expr → next.exprs[id]? = some expr
  groups : ∀ {id : GroupId} {group : Group}, memo.groups[id]? = some group →
    ∃ after, next.groups[id]? = some after ∧ after.isScalar = group.isScalar ∧
      group.members.toList <+: after.members.toList

namespace Grows

theorem refl (memo : Memo) : memo.Grows memo :=
  ⟨id, fun there => ⟨_, there, rfl, List.prefix_rfl⟩⟩

theorem trans {last : Memo} (first : memo.Grows next) (second : next.Grows last) :
    memo.Grows last where
  exprs stored := second.exprs (first.exprs stored)
  groups there := by
    obtain ⟨middle, found, family, members⟩ := first.groups there
    obtain ⟨after, last, again, more⟩ := second.groups found
    exact ⟨after, last, again.trans family, members.trans more⟩

theorem size_groups (grows : memo.Grows next) : memo.groups.size ≤ next.groups.size := by
  by_contra less
  obtain ⟨group, there⟩ := group_of_lt (Nat.lt_of_not_le less)
  obtain ⟨after, found, _⟩ := grows.groups there
  exact absurd (lt_of_group found) (Nat.lt_irrefl _)

end Grows

theorem grows_append {target : GroupId} {operator : Operator} {children : List GroupId} :
    memo.Grows (memo.append target operator children) where
  exprs stored := stored_append_iff.2 (Or.inl stored)
  groups there := by
    rw [groups_append, there]
    split
    · exact ⟨_, rfl, rfl, by simp⟩
    · exact ⟨_, rfl, rfl, List.prefix_rfl⟩

theorem grows_appendGroup {isScalar : Bool} : memo.Grows (memo.appendGroup isScalar) where
  exprs := id
  groups there := by
    rw [groups_appendGroup, if_neg (Nat.ne_of_lt (lt_of_group there))]
    exact ⟨_, there, rfl, List.prefix_rfl⟩

/-! ### Steps that keep a memo valid -/

/-- A step from a valid memo grows it and leaves it valid. -/
def Keeps (memo next : Memo) : Prop := memo.Valid → next.Valid ∧ memo.Grows next

theorem Keeps.refl (memo : Memo) : memo.Keeps memo := fun valid => ⟨valid, .refl memo⟩

theorem Keeps.trans {last : Memo} (first : memo.Keeps next) (second : next.Keeps last) :
    memo.Keeps last := by
  intro valid
  obtain ⟨between, grows⟩ := first valid
  obtain ⟨final, more⟩ := second between
  exact ⟨final, grows.trans more⟩

theorem insert_keeps {operator : Operator} {children : List GroupId} {id : ExprId}
    (done : memo.insert operator children = .ok (id, next)) : memo.Keeps next := by
  intro valid
  obtain ⟨exist, ⟨_, rfl⟩ | ⟨absent, _, _, rfl⟩⟩ := insert_cases done
  · exact ⟨valid, .refl _⟩
  · have fresh : (memo.appendGroup operator.isScalar).groups[memo.groups.size]? =
        some { isScalar := operator.isScalar } := by
      rw [groups_appendGroup, if_pos rfl]
    have linked := (valid.toLinked.appendGroup operator.isScalar).append fresh rfl
      (fun child member => by
        rw [size_groups_appendGroup]
        exact Nat.lt_succ_of_lt (exist child member))
      (fun _ => exist) absent
    refine ⟨⟨linked, fun found => inhabited_append (fun before different => ?_) found⟩,
      grows_appendGroup.trans grows_append⟩
    rw [groups_appendGroup, if_neg (Ne.symm different)] at before
    exact valid.inhabited before

theorem insertInto_keeps {target : GroupId} {operator : Operator} {children : List GroupId}
    {id : ExprId} (done : memo.insertInto target operator children = .ok (id, next)) :
    memo.Keeps next := by
  intro valid
  obtain ⟨exist, ⟨_, rfl⟩ | ⟨absent, _, rfl, group, there, _, family⟩⟩ := insertInto_cases done
  · exact ⟨valid, .refl _⟩
  · have linked := valid.toLinked.append there family.symm exist
      (fun none => absurd none (Nat.ne_of_gt (valid.inhabited there))) absent
    exact ⟨⟨linked, inhabited_append fun before _ => valid.inhabited before⟩, grows_append⟩

/-! ### Insertion of proposals -/

section Proposals

variable {relates : Memo → Memo → Prop} (refl : ∀ memo, relates memo memo)
  (trans : ∀ {one two three}, relates one two → relates two three → relates one three)
  (insertion : ∀ {memo next operator children id}, memo.insert operator children = .ok (id, next) →
    relates memo next)

include refl trans insertion

mutual

/-- What every insertion does to a memo, materializing a proposal does. -/
theorem materialize_relates {memo next : Memo} {id : GroupId} :
    (proposal : Proposal) → memo.materialize proposal = .ok (id, next) → relates memo next
  | .group _, done => by
    cases pure_eq_ok_iff.1 done
    exact refl memo
  | .node operator children, done => by
    unfold materialize at done
    obtain ⟨⟨groups, middle⟩, below, done⟩ := bind_eq_ok_iff.1 done
    obtain ⟨⟨expr, last⟩, inserted, done⟩ := bind_eq_ok_iff.1 done
    obtain ⟨stored, _, done⟩ := bind_eq_ok_iff.1 done
    cases pure_eq_ok_iff.1 done
    exact trans (materializeAll_relates children below) (insertion inserted)

/-- What every insertion does to a memo, materializing proposals does. -/
theorem materializeAll_relates {memo next : Memo} {ids : List GroupId} :
    (proposals : List Proposal) → memo.materializeAll proposals = .ok (ids, next) →
      relates memo next
  | [], done => by
    cases pure_eq_ok_iff.1 done
    exact refl memo
  | proposal :: rest, done => by
    unfold materializeAll at done
    obtain ⟨⟨id, middle⟩, first, done⟩ := bind_eq_ok_iff.1 done
    obtain ⟨⟨ids, last⟩, others, done⟩ := bind_eq_ok_iff.1 done
    cases pure_eq_ok_iff.1 done
    exact trans (materialize_relates proposal first) (materializeAll_relates rest others)

end

/-- What every insertion does to a memo, inserting proposals into a group does. -/
theorem insertProposals_relates
    (insertionInto : ∀ {memo next target operator children id},
      memo.insertInto target operator children = .ok (id, next) → relates memo next)
    {memo next : Memo} {target : GroupId} {proposals : List Proposal} {count : Nat}
    (done : memo.insertProposals target proposals = .ok (count, next)) : relates memo next := by
  unfold insertProposals at done
  obtain ⟨grown, run, done⟩ := bind_eq_ok_iff.1 done
  cases pure_eq_ok_iff.1 done
  refine foldlM_relates refl trans (fun {proposal before after} _ step => ?_) run
  cases proposal with
  | group id =>
    cases pure_eq_ok_iff.1 step
    exact refl before
  | node operator children =>
    unfold insertProposal at step
    obtain ⟨⟨groups, middle⟩, below, step⟩ := bind_eq_ok_iff.1 step
    obtain ⟨⟨expr, last⟩, inserted, step⟩ := bind_eq_ok_iff.1 step
    cases pure_eq_ok_iff.1 step
    exact trans (materializeAll_relates refl trans insertion children below)
      (insertionInto inserted)

end Proposals

theorem materialize_keeps {proposal : Proposal} {id : GroupId}
    (done : memo.materialize proposal = .ok (id, next)) : memo.Keeps next :=
  materialize_relates Keeps.refl Keeps.trans insert_keeps proposal done

theorem materializeAll_keeps {proposals : List Proposal} {ids : List GroupId}
    (done : memo.materializeAll proposals = .ok (ids, next)) : memo.Keeps next :=
  materializeAll_relates Keeps.refl Keeps.trans insert_keeps proposals done

theorem insertProposals_keeps {target : GroupId} {proposals : List Proposal} {count : Nat}
    (done : memo.insertProposals target proposals = .ok (count, next)) : memo.Keeps next :=
  insertProposals_relates Keeps.refl Keeps.trans insert_keeps insertInto_keeps done

end Cascades.Memo
