/-
**The meaning of groups.**

A group means what its first member means over its child groups, which are older. So a group keeps
its meaning while the memo grows.

* `Memo.sense`: the meaning of a group; `Memo.exprSense`: the meaning of an expression;
* `sense_eq`, `sense_of_scalarFirst?`: the meaning of a group from its first member;
* `Grows.sense_eq`: growth changes no meaning.
-/

import Cascades.Proofs.Meaning.Sense
import Cascades.Proofs.Memo.First

namespace Cascades.Memo

variable {V : Type} {I : Interpretation V} {memo next : Memo} {id : GroupId} {expr : Expr}

/-! ### Meanings -/

/-- The meaning of a group down to a number of levels. -/
noncomputable def senseWithin (I : Interpretation V) (memo : Memo) :
    (levels : Nat) → GroupId → Sense V
  | 0, _ => .nothing
  | levels + 1, id =>
    match memo.firstMember id with
    | .ok expr => I.sense expr.operator (expr.children.map (senseWithin I memo levels))
    | .error _ => .nothing

/-- The meaning of a group. A first member has only older groups below it, so there are no more
levels than the number of the group. -/
noncomputable def sense (I : Interpretation V) (memo : Memo) (id : GroupId) : Sense V :=
  memo.senseWithin I (id + 1) id

/-- The meaning of an expression over its child groups. -/
noncomputable def exprSense (I : Interpretation V) (memo : Memo) (expr : Expr) : Sense V :=
  I.sense expr.operator (expr.children.map (memo.sense I))

/-- Levels below the number of the group add nothing. -/
theorem Linked.senseWithin_eq (linked : memo.Linked) (levels : Nat) :
    ∀ {more : Nat} {id : GroupId}, id < levels → id < more →
      memo.senseWithin I levels id = memo.senseWithin I more id := by
  induction levels with
  | zero => exact fun below => absurd below (Nat.not_lt_zero _)
  | succ levels ih =>
    intro more id below belowToo
    cases more with
    | zero => exact absurd belowToo (Nat.not_lt_zero _)
    | succ more =>
      unfold senseWithin
      cases found : memo.firstMember id with
      | error cause => rfl
      | ok expr =>
        have older := (linked.of_firstMember found).2
        have children : expr.children.map (memo.senseWithin I levels) =
            expr.children.map (memo.senseWithin I more) := by
          refine List.map_congr_left fun child member => ?_
          have above := older child member
          exact ih (Nat.lt_of_lt_of_le above (Nat.le_of_lt_succ below))
            (Nat.lt_of_lt_of_le above (Nat.le_of_lt_succ belowToo))
        simp only [children]

/-- **A group means what its first member means.** -/
theorem Linked.sense_eq (linked : memo.Linked) (found : memo.firstMember id = .ok expr) :
    memo.sense I id = memo.exprSense I expr := by
  have children : expr.children.map (memo.senseWithin I id) =
      expr.children.map (memo.sense I) := by
    refine List.map_congr_left fun child member => ?_
    have older := (linked.of_firstMember found).2 child member
    exact linked.senseWithin_eq id older (Nat.lt_succ_self child)
  have unfolded : memo.sense I id =
      I.sense expr.operator (expr.children.map (memo.senseWithin I id)) := by
    unfold sense senseWithin
    rw [found]
  rw [unfolded, children]
  rfl

/-- A scalar group means what its operator means over its child groups. -/
theorem Linked.sense_of_scalarFirst? (linked : memo.Linked) {operator : ScalarOp}
    {children : List GroupId} (first : memo.scalarFirst? id = some (operator, children)) :
    memo.sense I id = I.sense (.scalar operator) (children.map (memo.sense I)) := by
  obtain ⟨expr, found, kind, rfl⟩ := scalarFirst?_cases first
  rw [linked.sense_eq found, exprSense, kind]

/-- The meanings of the groups of a memo are those of the memo that grew out of it. -/
theorem Grows.sense_eq (grows : memo.Grows next) (valid : memo.Valid) (later : next.Valid) :
    ∀ {id : GroupId}, id < memo.groups.size → next.sense I id = memo.sense I id := by
  intro id
  induction id using Nat.strongRecOn with
  | ind id ih =>
    intro inside
    obtain ⟨expr, found⟩ := valid.exists_firstMember inside
    rw [valid.sense_eq found, later.sense_eq (grows.firstMember found)]
    unfold exprSense
    congr 1
    refine List.map_congr_left fun child member => ?_
    have older := (valid.of_firstMember found).2 child member
    exact ih child older (Nat.lt_trans older inside)

theorem Grows.map_sense_eq (grows : memo.Grows next) (valid : memo.Valid) (later : next.Valid)
    {children : List GroupId} (inside : ∀ child ∈ children, child < memo.groups.size) :
    children.map (next.sense I) = children.map (memo.sense I) :=
  List.map_congr_left fun child member => grows.sense_eq valid later (inside child member)

/-- A group is scalar where its meaning is. -/
theorem Valid.isScalar_sense (valid : memo.Valid) {group : Group}
    (there : memo.groups[id]? = some group) :
    (memo.sense I id).scope.isScalar = group.isScalar := by
  obtain ⟨expr, found⟩ := valid.exists_firstMember (lt_of_group there)
  obtain ⟨owner, first, again, _, stored⟩ := firstMember_ok_iff.1 found
  rw [there] at again
  cases again
  rw [valid.sense_eq found, exprSense, Interpretation.isScalar_sense]
  exact valid.family stored ((valid.of_firstMember found).1.symm ▸ there)

theorem Valid.isScalarGroup_eq (valid : memo.Valid) (inside : id < memo.groups.size) :
    memo.isScalarGroup id = (memo.sense I id).scope.isScalar := by
  obtain ⟨group, there⟩ := group_of_lt inside
  rw [valid.isScalar_sense there]
  unfold isScalarGroup
  rw [there]

end Cascades.Memo
