/-
**First members.**

The first member of a group stands for the group: a predicate is read off it, and properties and
statistics are derived from it. Its children are older than the group, so such a descent ends.

* `firstMember_ok_iff`: the first member of a group; `Valid.exists_firstMember`: every group has one;
* `scalarFirst?_cases`: the first member of a scalar group;
* `Memo.fold`, `Linked.fold_eq`: what a group amounts to through its first member;
* `LogicalFirst.firstLogical`: a relational group that begins with a logical member.
-/

import Cascades.Proofs.Memo.Insertion
import Cascades.Proofs.Memo.Layout
import Cascades.Property.Relational

namespace Cascades

theorem Group.first_ok_iff {group : Group} {number : ExprId} :
    group.first = .ok number ↔ group.members[0]? = some number := by
  unfold first
  cases group.members[0]? with
  | none => exact ⟨nofun, nofun⟩
  | some member => exact (Iff.intro Except.ok.inj (congrArg _)).trans Option.some_inj.symm

theorem Expr.mem_of_lastChild {expr : Expr} {child : GroupId}
    (found : expr.lastChild = .ok child) : child ∈ expr.children := by
  obtain ⟨_, _, found⟩ := bind_eq_ok_iff.1 found
  exact mem_of_child found

end Cascades

namespace Cascades.Memo

variable {memo next : Memo} {id : GroupId} {expr : Expr}

/-! ### First members -/

theorem firstMember_ok_iff :
    memo.firstMember id = .ok expr ↔ ∃ group first, memo.groups[id]? = some group ∧
      group.members[0]? = some first ∧ memo.exprs[first]? = some expr := by
  unfold firstMember
  constructor
  · intro found
    obtain ⟨group, there, found⟩ := bind_eq_ok_iff.1 found
    obtain ⟨first, place, found⟩ := bind_eq_ok_iff.1 found
    exact ⟨group, first, group_ok_iff.1 there, Group.first_ok_iff.1 place, expr_ok_iff.1 found⟩
  · rintro ⟨group, first, there, place, stored⟩
    refine bind_eq_ok_iff.2 ⟨group, group_ok_iff.2 there, ?_⟩
    exact bind_eq_ok_iff.2 ⟨first, Group.first_ok_iff.2 place, expr_ok_iff.2 stored⟩

/-- An expression in the first place of its group is the first member. -/
theorem Linked.firstMember_of_position (linked : memo.Linked) {id : ExprId}
    (stored : memo.exprs[id]? = some expr) (first : expr.position = 0) :
    memo.firstMember expr.group = .ok expr := by
  obtain ⟨group, there, place⟩ := linked.placed stored
  exact firstMember_ok_iff.2 ⟨group, id, there, first ▸ place, stored⟩

theorem Linked.of_firstMember (linked : memo.Linked) (found : memo.firstMember id = .ok expr) :
    expr.group = id ∧ ∀ child ∈ expr.children, child < id := by
  obtain ⟨group, first, there, place, stored⟩ := firstMember_ok_iff.1 found
  obtain ⟨same, again, named, position⟩ := linked.listed there place
  rw [stored] at again
  cases again
  exact ⟨named, fun child member => named ▸ linked.older stored position member⟩

/-- A group needs the children of its first member. -/
def Needs (memo : Memo) (id child : GroupId) : Prop :=
  ∃ expr, memo.firstMember id = .ok expr ∧ child ∈ expr.children

theorem Needs.lt {child : GroupId} (needs : memo.Needs id child) (linked : memo.Linked) :
    child < id := by
  obtain ⟨expr, found, member⟩ := needs
  exact (linked.of_firstMember found).2 child member

theorem Valid.exists_firstMember (valid : memo.Valid) (inside : id < memo.groups.size) :
    ∃ expr, memo.firstMember id = .ok expr := by
  obtain ⟨group, there⟩ := group_of_lt inside
  have place := Array.getElem?_eq_getElem (valid.inhabited there)
  obtain ⟨expr, stored, _⟩ := valid.listed there place
  exact ⟨expr, firstMember_ok_iff.2 ⟨group, _, there, place, stored⟩⟩

theorem Grows.firstMember (grows : memo.Grows next) (found : memo.firstMember id = .ok expr) :
    next.firstMember id = .ok expr := by
  obtain ⟨group, first, there, place, stored⟩ := firstMember_ok_iff.1 found
  obtain ⟨after, again, _, members⟩ := grows.groups there
  refine firstMember_ok_iff.2 ⟨after, first, again, ?_, grows.exprs stored⟩
  rw [← Array.getElem?_toList] at place ⊢
  obtain ⟨rest, extended⟩ := members
  rw [← extended]
  exact List.getElem?_append_left (List.getElem?_eq_some_iff.1 place).1 ▸ place

/-- Growth keeps the family of a group. -/
theorem Relational.mono (relational : memo.Relational id) (grows : memo.Grows next) :
    next.Relational id := by
  obtain ⟨group, there, family⟩ := relational
  obtain ⟨after, again, same, _⟩ := grows.groups there
  exact ⟨after, again, same.trans family⟩

theorem Scalar.mono (scalar : memo.Scalar id) (grows : memo.Grows next) : next.Scalar id := by
  obtain ⟨group, there, family⟩ := scalar
  obtain ⟨after, again, same, _⟩ := grows.groups there
  exact ⟨after, again, same.trans family⟩

/-! ### Sheets -/

/-- The sheet of a group is that of its first member. -/
theorem sheet?_eq_some_iff {sheet : SheetId} :
    memo.sheet? id = some sheet ↔ ∃ expr, memo.firstMember id = .ok expr ∧ expr.sheet = some sheet := by
  constructor
  · intro own
    obtain ⟨group, there, own⟩ := Option.bind_eq_some_iff.1 own
    obtain ⟨first, place, own⟩ := Option.bind_eq_some_iff.1 own
    obtain ⟨expr, stored, own⟩ := Option.bind_eq_some_iff.1 own
    exact ⟨expr, firstMember_ok_iff.2 ⟨group, first, there, place, stored⟩, own⟩
  · rintro ⟨expr, found, own⟩
    obtain ⟨group, first, there, place, stored⟩ := firstMember_ok_iff.1 found
    simp [sheet?, there, place, stored, own]

theorem inside_of_sheet? {sheet : SheetId} (own : memo.sheet? id = some sheet) :
    id < memo.groups.size := by
  obtain ⟨expr, found, _⟩ := sheet?_eq_some_iff.1 own
  obtain ⟨group, first, there, _⟩ := firstMember_ok_iff.1 found
  exact lt_of_group there

/-- Growth leaves every group its sheet. -/
theorem Grows.sheet? {sheet : SheetId} (grows : memo.Grows next) (own : memo.sheet? id = some sheet) :
    next.sheet? id = some sheet := by
  obtain ⟨expr, found, own⟩ := sheet?_eq_some_iff.1 own
  exact sheet?_eq_some_iff.2 ⟨expr, grows.firstMember found, own⟩

/-- A group with a sheet is scalar. -/
theorem Linked.scalar_of_sheet? (linked : memo.Linked) {sheet : SheetId}
    (own : memo.sheet? id = some sheet) : memo.Scalar id := by
  obtain ⟨expr, found, own⟩ := sheet?_eq_some_iff.1 own
  obtain ⟨group, first, there, place, stored⟩ := firstMember_ok_iff.1 found
  refine ⟨group, there, ?_⟩
  rw [← linked.family stored ((linked.of_firstMember found).1 ▸ there), ← linked.isSome_sheet stored, own]
  rfl

theorem Valid.exists_sheet (valid : memo.Valid) (scalar : memo.Scalar id) :
    ∃ sheet, memo.sheet? id = some sheet := by
  obtain ⟨group, there, family⟩ := scalar
  obtain ⟨sheet, own, _⟩ := valid.shares there family
  exact ⟨sheet, own⟩

/-- The first member of a scalar group. -/
theorem scalarFirst?_cases {operator : ScalarOp} {children : List GroupId}
    (first : memo.scalarFirst? id = some (operator, children)) :
    ∃ expr, memo.firstMember id = .ok expr ∧ expr.operator = .scalar operator ∧
      expr.children = children := by
  obtain ⟨group, there, inside⟩ := Option.bind_eq_some_iff.1 first
  by_cases scalar : group.isScalar = true
  · rw [if_pos scalar] at inside
    obtain ⟨member, place, found⟩ := Option.bind_eq_some_iff.1 inside
    obtain ⟨expr, stored, shown⟩ := Option.bind_eq_some_iff.1 found
    refine ⟨expr, firstMember_ok_iff.2 ⟨group, member, there, place, stored⟩, ?_⟩
    cases kind : expr.operator with
    | scalar other =>
      rw [kind] at shown
      cases shown
      exact ⟨rfl, rfl⟩
    | logical other =>
      rw [kind] at shown
      cases shown
    | physical other =>
      rw [kind] at shown
      cases shown
  · rw [if_neg scalar] at inside
    cases inside

/-- A group that begins with a scalar operator. -/
theorem Linked.scalarFirst?_eq (linked : memo.Linked) (found : memo.firstMember id = .ok expr)
    {operator : ScalarOp} (scalar : expr.operator = .scalar operator) :
    memo.scalarFirst? id = some (operator, expr.children) := by
  obtain ⟨group, first, there, place, stored⟩ := firstMember_ok_iff.1 found
  have family := linked.family stored ((linked.of_firstMember found).1.symm ▸ there)
  rw [scalar] at family
  simp [scalarFirst?, there, ← family, place, stored, scalar, Operator.isScalar]

/-! ### Folds over first members -/

section Fold

variable {α : Type} {step : Operator → List α → α} {none : α}

/-- What a group amounts to down to a number of levels, where an operator over inputs makes a step. -/
def foldWithin (step : Operator → List α → α) (none : α) (memo : Memo) : (levels : Nat) → GroupId → α
  | 0, _ => none
  | levels + 1, id =>
    match memo.firstMember id with
    | .ok expr => step expr.operator (expr.children.map (foldWithin step none memo levels))
    | .error _ => none

/-- What a group amounts to. A first member has only older groups below it, so there are no more levels
than the number of the group. -/
def fold (step : Operator → List α → α) (none : α) (memo : Memo) (id : GroupId) : α :=
  memo.foldWithin step none (id + 1) id

/-- Levels below the number of the group add nothing. -/
theorem Linked.foldWithin_eq (linked : memo.Linked) (levels : Nat) :
    ∀ {more : Nat} {id : GroupId}, id < levels → id < more →
      memo.foldWithin step none levels id = memo.foldWithin step none more id := by
  induction levels with
  | zero => exact fun below => absurd below (Nat.not_lt_zero _)
  | succ levels ih =>
    intro more id below belowToo
    cases more with
    | zero => exact absurd belowToo (Nat.not_lt_zero _)
    | succ more =>
      unfold foldWithin
      cases found : memo.firstMember id with
      | error cause => rfl
      | ok expr =>
        have children : expr.children.map (memo.foldWithin step none levels) =
            expr.children.map (memo.foldWithin step none more) := by
          refine List.map_congr_left fun child member => ?_
          have older := (linked.of_firstMember found).2 child member
          exact ih (Nat.lt_of_lt_of_le older (Nat.le_of_lt_succ below))
            (Nat.lt_of_lt_of_le older (Nat.le_of_lt_succ belowToo))
        simp only [children]

/-- **A group amounts to what its first member does.** -/
theorem Linked.fold_eq (linked : memo.Linked) (found : memo.firstMember id = .ok expr) :
    memo.fold step none id = step expr.operator (expr.children.map (memo.fold step none)) := by
  have children : expr.children.map (memo.foldWithin step none id) =
      expr.children.map (memo.fold step none) := by
    refine List.map_congr_left fun child member => ?_
    have older := (linked.of_firstMember found).2 child member
    exact linked.foldWithin_eq id older (Nat.lt_succ_self child)
  rw [← children]
  show memo.foldWithin step none (id + 1) id = _
  rw [foldWithin, found]

/-- What a group amounts to stays while the memo grows. -/
theorem Grows.fold_eq (grows : memo.Grows next) (valid : memo.Valid) (later : next.Linked) :
    ∀ {id : GroupId}, id < memo.groups.size → next.fold step none id = memo.fold step none id := by
  intro id
  induction id using Nat.strongRecOn with
  | ind id ih =>
    intro inside
    obtain ⟨expr, found⟩ := valid.exists_firstMember inside
    rw [valid.fold_eq found, later.fold_eq (grows.firstMember found)]
    congr 1
    refine List.map_congr_left fun child member => ?_
    have older := (valid.of_firstMember found).2 child member
    exact ih child older (Nat.lt_trans older inside)

end Fold

/-! ### Conjuncts -/

section Laid

variable (laid : memo.Laid)
include laid

/-- The conjuncts of a predicate are scalar groups. -/
theorem Laid.conjunctsWithin (levels : Nat) : ∀ {id : GroupId}, memo.Scalar id →
    ∀ conjunct ∈ memo.conjunctsWithin levels id, memo.Scalar conjunct := by
  have itself : ∀ {id : GroupId}, memo.Scalar id → ∀ conjunct ∈ [id], memo.Scalar conjunct := by
    intro id scalar conjunct member
    rw [List.mem_singleton.1 member]
    exact scalar
  induction levels with
  | zero => exact itself
  | succ levels ih =>
    intro id scalar conjunct member
    unfold Memo.conjunctsWithin at member
    split at member
    · rename_i children first
      obtain ⟨expr, found, conjunction, rfl⟩ := scalarFirst?_cases first
      obtain ⟨_, number, _, _, stored⟩ := firstMember_ok_iff.1 found
      obtain ⟨child, below, there⟩ := List.mem_flatMap.1 member
      exact ih (laid.and stored conjunction child below) conjunct there
    · cases member
    · exact itself scalar conjunct member

theorem Laid.conjuncts (scalar : memo.Scalar id) :
    ∀ conjunct ∈ memo.conjuncts id, memo.Scalar conjunct :=
  laid.conjunctsWithin (id + 1) scalar

/-- The operands of a scalar group that compares or calculates. -/
theorem Laid.operands {operator : BinaryOp} {children : List GroupId}
    (first : memo.scalarFirst? id = some (.binary operator, children)) :
    ∃ left right, children = [left, right] := by
  obtain ⟨expr, found, binary, rfl⟩ := scalarFirst?_cases first
  obtain ⟨_, number, _, _, stored⟩ := firstMember_ok_iff.1 found
  obtain ⟨left, right, shown, _⟩ := laid.binary stored binary
  exact ⟨left, right, shown⟩

/-- Whether a group equates columns can always be told. -/
theorem Laid.equalColumns? {faulty : Fault → Prop} (inside : id < memo.groups.size) :
    Ends faulty (memo.equalColumns? id) fun _ => True := by
  obtain ⟨group, there⟩ := group_of_lt inside
  unfold Memo.equalColumns?
  refine Ends.bind_ok (group_ok_iff.2 there) ?_
  split
  · rename_i children first
    obtain ⟨left, right, rfl⟩ := laid.operands first
    simp only [List.getElem?_cons_zero, List.getElem?_cons_succ]
    split
    · split
      · exact Ends.pure trivial
      · exact Ends.pure trivial
    · exact Ends.pure trivial
  · exact Ends.pure trivial

end Laid

/-! ### First logical members -/

/-- Every relational group begins with a logical member. -/
def LogicalFirst (memo : Memo) : Prop :=
  ∀ {id : GroupId} {group : Group}, memo.groups[id]? = some group → group.isScalar = false →
    ∃ (first : ExprId) (expr : Expr) (operator : LogicalOp), group.members[0]? = some first ∧
      memo.exprs[first]? = some expr ∧ expr.operator = .logical operator

/-- Whether every relational group begins with a logical member. -/
def isLogicalFirst (memo : Memo) : Bool :=
  memo.groups.toList.all fun group => group.isScalar ||
    (group.members[0]?.map (memo.hasOperator Operator.isLogical)).getD false

theorem logicalFirst_of_isLogicalFirst (checked : memo.isLogicalFirst = true) :
    memo.LogicalFirst := by
  intro id group there family
  have all := List.all_eq_true.1 checked group
    (Array.mem_toList_iff.2 (Array.mem_of_getElem? there))
  rw [family, Bool.false_or] at all
  cases place : group.members[0]? with
  | none =>
    rw [place] at all
    cases all
  | some first =>
    rw [place] at all
    obtain ⟨expr, stored, logical⟩ := hasOperator_iff.1 all
    cases shown : expr.operator with
    | logical operator => exact ⟨first, expr, operator, rfl, stored, shown⟩
    | physical operator =>
      rw [shown] at logical
      cases logical
    | scalar operator =>
      rw [shown] at logical
      cases logical

/-- A first member that is logical is the first logical member. -/
theorem firstLogical_of_firstMember {operator : LogicalOp}
    (found : memo.firstMember id = .ok expr) (logical : expr.operator = .logical operator) :
    memo.firstLogical id = .ok (expr, operator) := by
  obtain ⟨group, number, there, place, stored⟩ := firstMember_ok_iff.1 found
  have chosen : (memo.logicalMembers group).head? = some number := by
    unfold logicalMembers
    rw [← Array.getElem?_toList, ← List.head?_eq_getElem?] at place
    obtain ⟨rest, listed⟩ := List.head?_eq_some_iff.1 place
    have kept : memo.hasOperator Operator.isLogical number = true :=
      hasOperator_iff.2 ⟨expr, stored, by rw [logical]; rfl⟩
    rw [listed, List.filter_cons_of_pos kept, List.head?_cons]
  unfold Memo.firstLogical
  refine bind_eq_ok_iff.2 ⟨group, group_ok_iff.2 there, ?_⟩
  simp only [chosen]
  refine bind_eq_ok_iff.2 ⟨expr, expr_ok_iff.2 stored, ?_⟩
  simp only [logical]
  rfl

/-- The first member of such a group is its first logical member. -/
theorem LogicalFirst.firstLogical_eq (headed : memo.LogicalFirst) (relational : memo.Relational id)
    (found : memo.firstMember id = .ok expr) :
    ∃ operator, expr.operator = .logical operator ∧ memo.firstLogical id = .ok (expr, operator) := by
  obtain ⟨group, there, family⟩ := relational
  obtain ⟨number, other, operator, place, stored, logical⟩ := headed there family
  have again := firstMember_ok_iff.2 ⟨group, number, there, place, stored⟩
  obtain rfl := Except.ok.inj (found.symm.trans again)
  exact ⟨operator, logical, firstLogical_of_firstMember found logical⟩

/-- The first logical member of such a group is its first member. -/
theorem LogicalFirst.firstLogical (headed : memo.LogicalFirst) (linked : memo.Linked)
    (relational : memo.Relational id) :
    ∃ (number : ExprId) (expr : Expr) (operator : LogicalOp),
      memo.firstLogical id = .ok (expr, operator) ∧ memo.exprs[number]? = some expr ∧
      expr.operator = .logical operator ∧ expr.group = id ∧ ∀ child ∈ expr.children, child < id := by
  obtain ⟨group, there, family⟩ := relational
  obtain ⟨number, expr, operator, place, stored, logical⟩ := headed there family
  have found := firstMember_ok_iff.2 ⟨group, number, there, place, stored⟩
  obtain ⟨named, older⟩ := linked.of_firstMember found
  exact ⟨number, expr, operator, firstLogical_of_firstMember found logical, stored, logical, named,
    older⟩

end Cascades.Memo
