/-
**What growth does not change.**

Predicates, equalities and first members are read off the first members of groups, which stay where they
are. So a memo that grew says of its old groups what it said before.

* `Grows.scalarFirst?_eq`: the first member of a scalar group;
* `Grows.conjuncts_eq`, `Grows.equalColumns?_eq`, `Grows.equalities_eq`: predicates and equalities.
-/

import Cascades.Proofs.Memo.First

namespace Cascades.Memo

variable {memo next : Memo} {id : GroupId} (grows : memo.Grows next)
include grows

/-- Growth keeps the family of every group. -/
theorem Grows.isScalarGroup_eq (inside : id < memo.groups.size) :
    next.isScalarGroup id = memo.isScalarGroup id := by
  obtain ⟨group, there⟩ := group_of_lt inside
  obtain ⟨after, again, family, _⟩ := grows.groups there
  unfold isScalarGroup
  rw [there, again]
  exact family

section Valid

variable (valid : memo.Valid)
include valid

/-! ### Scalar groups -/

theorem Grows.scalarFirst?_eq (inside : id < memo.groups.size) :
    next.scalarFirst? id = memo.scalarFirst? id := by
  obtain ⟨expr, found⟩ := valid.exists_firstMember inside
  obtain ⟨group, first, there, place, stored⟩ := firstMember_ok_iff.1 found
  obtain ⟨after, other, again, placeToo, storedToo⟩ := firstMember_ok_iff.1 (grows.firstMember found)
  obtain ⟨_, same, family, _⟩ := grows.groups there
  obtain rfl := Option.some.inj (again.symm.trans same)
  simp [scalarFirst?, there, again, place, placeToo, stored, storedToo, family]

theorem Grows.column?_eq (inside : id < memo.groups.size) : next.column? id = memo.column? id := by
  unfold column? scalarOp?
  rw [grows.scalarFirst?_eq valid inside]

theorem Grows.constant?_eq (inside : id < memo.groups.size) :
    next.constant? id = memo.constant? id := by
  unfold constant? scalarOp?
  rw [grows.scalarFirst?_eq valid inside]

omit grows in
/-- The operands of a scalar group are there. -/
theorem Valid.operands_inside {operator : ScalarOp} {children : List GroupId}
    (first : memo.scalarFirst? id = some (operator, children)) :
    ∀ child ∈ children, child < memo.groups.size := by
  obtain ⟨expr, found, _, rfl⟩ := scalarFirst?_cases first
  obtain ⟨_, _, _, _, stored⟩ := firstMember_ok_iff.1 found
  exact fun child member => valid.childExists stored member

omit grows in
theorem Valid.conjunctsWithin_inside (levels : Nat) : ∀ {id : GroupId}, id < memo.groups.size →
    ∀ conjunct ∈ memo.conjunctsWithin levels id, conjunct < memo.groups.size := by
  have itself : ∀ {id : GroupId}, id < memo.groups.size →
      ∀ conjunct ∈ [id], conjunct < memo.groups.size :=
    fun inside => List.forall_mem_singleton.2 inside
  induction levels with
  | zero => exact itself
  | succ levels ih =>
    intro id inside conjunct member
    unfold Memo.conjunctsWithin at member
    split at member
    · rename_i children first
      obtain ⟨child, below, there⟩ := List.mem_flatMap.1 member
      exact ih (valid.operands_inside first child below) conjunct there
    · cases member
    · exact itself inside conjunct member

omit grows in
/-- The conjuncts of a predicate are there. -/
theorem Valid.conjuncts_inside (inside : id < memo.groups.size) :
    ∀ conjunct ∈ memo.conjuncts id, conjunct < memo.groups.size :=
  valid.conjunctsWithin_inside (id + 1) inside

theorem Grows.conjunctsWithin_eq (levels : Nat) : ∀ {id : GroupId}, id < memo.groups.size →
    next.conjunctsWithin levels id = memo.conjunctsWithin levels id := by
  induction levels with
  | zero => exact fun _ => rfl
  | succ levels ih =>
    intro id inside
    unfold Memo.conjunctsWithin
    rw [grows.scalarFirst?_eq valid inside]
    split
    · rename_i children first
      refine List.flatMap_congr fun child member => ?_
      exact ih (valid.operands_inside first child member)
    · rfl
    · rfl

/-- **A predicate** has the same conjuncts. -/
theorem Grows.conjuncts_eq (inside : id < memo.groups.size) :
    next.conjuncts id = memo.conjuncts id :=
  grows.conjunctsWithin_eq valid (id + 1) inside

/-- **An equality** equates the same columns. -/
theorem Grows.equalColumns?_eq (inside : id < memo.groups.size) :
    next.equalColumns? id = memo.equalColumns? id := by
  obtain ⟨group, there⟩ := group_of_lt inside
  obtain ⟨after, again, _⟩ := grows.groups there
  unfold equalColumns?
  rw [group_ok_iff.2 there, group_ok_iff.2 again, grows.scalarFirst?_eq valid inside]
  simp only [bind, Except.bind]
  split
  · rename_i children first
    have columns : ∀ {place : Nat} {child : GroupId}, children[place]? = some child →
        next.column? child = memo.column? child := fun there =>
      grows.column?_eq valid (valid.operands_inside first _ (List.mem_of_getElem? there))
    cases left : children[0]? with
    | none => rfl
    | some one =>
      simp only [columns left]
      cases right : children[1]? with
      | none => rfl
      | some two => simp only [columns right]
  · rfl

theorem Grows.equalities_eq {ids : List GroupId} (inside : ∀ id ∈ ids, id < memo.groups.size) :
    next.equalities ids = memo.equalities ids := by
  unfold equalities
  rw [mapM_congr fun id member => grows.equalColumns?_eq valid (inside id member)]

end Valid

end Cascades.Memo
