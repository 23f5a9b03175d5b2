/-
**Formed memos.**

A memo into which logical expressions were inserted, and what rules propose for them, is formed: every
group stands for a value or for a relation over a number of tables, all of its members amount to
that, and none has a child that stands for as many tables unless it is older. So a group is never
below itself. Nothing is closed.

* `Formed`: the invariant; `Formed.insert`, `Formed.insertInto`: insertions do not fail and keep it;
* `Built`, `Built.formed`: memos that come from insertions of logical expressions;
* `Suits`: a proposal that belongs into a group; `insertProposals_develops`: such proposals are
  inserted and keep a memo formed.
-/

import Cascades.Proofs.Memo.First
import Cascades.Proofs.Memo.History
import Cascades.Proofs.Memo.Resolution

namespace Cascades.Memo

variable {memo next last : Memo} {breadth later : GroupId → Breadth}

/-! ### The invariant -/

/-- An expression amounts to what its group stands for, a child that stands for as much is older, a
physical expression has a logical one beside it, and no group begins with a physical one. -/
structure Seated (memo : Memo) (breadth : GroupId → Breadth) (expr : Expr) : Prop where
  takes : expr.operator.Takes (expr.children.map breadth) (breadth expr.group)
  older : ∀ child ∈ expr.children, breadth child = breadth expr.group → child < expr.group
  logical : ∀ {operator : PhysicalOp}, expr.operator = .physical operator →
    ∃ (number : ExprId) (sibling : Expr), memo.exprs[number]? = some sibling ∧
      sibling.operator = .logical operator.logical ∧ sibling.children = expr.children ∧
      sibling.group = expr.group
  headed : expr.position = 0 → expr.operator.isPhysical = false

/-- **A formed memo**: every expression is in its place, every relation has tables, and all is
open. -/
structure Formed (memo : Memo) (breadth : GroupId → Breadth) : Prop extends memo.Valid where
  seated : ∀ {id : ExprId} {expr : Expr}, memo.exprs[id]? = some expr → memo.Seated breadth expr
  positive : ∀ {id : GroupId} {tables : Nat}, id < memo.groups.size →
    breadth id = .relation tables → 0 < tables
  isOpen : memo.isOpen = true
  groupsOpen : ∀ {id : GroupId} {group : Group}, memo.groups[id]? = some group →
    group.isOpen = true

namespace Formed

variable (formed : memo.Formed breadth)
include formed

theorem isScalar_eq {id : GroupId} (inside : id < memo.groups.size) :
    (breadth id).isScalar = memo.isScalarGroup id := by
  obtain ⟨expr, found⟩ := formed.toValid.exists_firstMember inside
  obtain ⟨group, number, there, _, stored⟩ := firstMember_ok_iff.1 found
  obtain ⟨rfl, _⟩ := formed.of_firstMember found
  rw [(formed.seated stored).takes.isScalar_eq, formed.family stored there, isScalarGroup, there]

theorem scalar_of_breadth {id : GroupId} (inside : id < memo.groups.size)
    (value : breadth id = .scalar) : memo.Scalar id := by
  rw [scalar_iff, ← formed.isScalar_eq inside, value]
  rfl

theorem relational_of_breadth {id : GroupId} {tables : Nat} (inside : id < memo.groups.size)
    (relation : breadth id = .relation tables) : memo.Relational id := by
  refine relational_iff.2 ⟨inside, ?_⟩
  rw [← formed.isScalar_eq inside, relation]
  rfl

theorem breadth_of_scalar {id : GroupId} (scalar : memo.Scalar id) : breadth id = .scalar := by
  have family := formed.isScalar_eq scalar.inside
  rw [scalar_iff.1 scalar] at family
  cases value : breadth id with
  | scalar => rfl
  | relation => rw [value] at family; cases family

theorem breadth_of_relational {id : GroupId} (relational : memo.Relational id) :
    ∃ tables, breadth id = .relation tables := by
  have family := formed.isScalar_eq relational.inside
  rw [(relational_iff.1 relational).2] at family
  cases value : breadth id with
  | scalar => rw [value] at family; cases family
  | relation tables => exact ⟨tables, rfl⟩

/-- The expressions of a formed memo are laid out. -/
theorem laid : memo.Laid := by
  intro id expr stored
  refine ⟨expr.children.map breadth, breadth expr.group, ?_, (formed.seated stored).takes⟩
  rw [List.map_map]
  exact List.map_congr_left fun child member =>
    formed.isScalar_eq (formed.childExists stored member)

/-- The relational groups of a formed memo begin with logical members. -/
theorem logicalFirst : memo.LogicalFirst := by
  intro id group there family
  have place := Array.getElem?_eq_getElem (formed.inhabited there)
  obtain ⟨expr, stored, rfl, position⟩ := formed.listed there place
  have head := (formed.seated stored).headed position
  have relational := (formed.family stored there).trans family
  cases shown : expr.operator with
  | logical operator => exact ⟨_, expr, operator, place, stored, shown⟩
  | physical operator =>
    rw [shown] at head
    cases head
  | scalar operator =>
    rw [shown] at relational
    cases relational

end Formed

/-! ### Growth -/

/-- A formed memo that grew from another one, whose groups stand for what they did and which has no
more joins of many inputs. -/
structure Develops (memo : Memo) (breadth : GroupId → Breadth) (next : Memo)
    (later : GroupId → Breadth) : Prop where
  formed : next.Formed later
  grows : memo.Grows next
  agrees : ∀ {id : GroupId}, id < memo.groups.size → later id = breadth id
  naryJoins : ∀ {id : ExprId} {expr : Expr}, next.exprs[id]? = some expr →
    expr.operator = .logical .naryJoin → memo.exprs[id]? = some expr

theorem Formed.refl (formed : memo.Formed breadth) : memo.Develops breadth memo breadth :=
  ⟨formed, .refl memo, fun _ => rfl, fun stored _ => stored⟩

theorem Develops.trans {final : GroupId → Breadth} (first : memo.Develops breadth next later)
    (second : next.Develops later last final) : memo.Develops breadth last final where
  formed := second.formed
  grows := first.grows.trans second.grows
  agrees inside := (second.agrees (Nat.lt_of_lt_of_le inside first.grows.size_groups)).trans
    (first.agrees inside)
  naryJoins stored nary := first.naryJoins (second.naryJoins stored nary) nary

/-- Growth changes nothing about the place of an expression. -/
theorem Seated.mono {expr : Expr} (seated : memo.Seated breadth expr) (grows : memo.Grows next)
    (same : later expr.group = breadth expr.group)
    (below : ∀ child ∈ expr.children, later child = breadth child) : next.Seated later expr where
  takes := by
    rw [same, List.map_congr_left below]
    exact seated.takes
  older child member equal := by
    rw [below child member, same] at equal
    exact seated.older child member equal
  logical physical := by
    obtain ⟨number, sibling, stored, beside⟩ := seated.logical physical
    exact ⟨number, sibling, grows.exprs stored, beside⟩
  headed := seated.headed

/-- A memo that grew is formed if what was added is in its place. -/
theorem Formed.of_grows (formed : memo.Formed breadth) (grows : memo.Grows next)
    (valid : next.Valid) (agrees : ∀ {id : GroupId}, id < memo.groups.size → later id = breadth id)
    (added : ∀ {id : ExprId} {expr : Expr}, next.exprs[id]? = some expr →
      memo.exprs[id]? = some expr ∨ next.Seated later expr)
    (positive : ∀ {id : GroupId} {tables : Nat}, memo.groups.size ≤ id → id < next.groups.size →
      later id = .relation tables → 0 < tables)
    (isOpen : next.isOpen = true)
    (groupsOpen : ∀ {id : GroupId} {group : Group}, next.groups[id]? = some group →
      group.isOpen = true) : next.Formed later where
  toValid := valid
  seated {id expr} stored := by
    rcases added stored with old | seated
    · obtain ⟨group, there, _⟩ := formed.placed old
      exact (formed.seated old).mono grows (agrees (lt_of_group there)) fun child member =>
        agrees (formed.childExists old member)
    · exact seated
  positive {id tables} inside relation := by
    rcases Nat.lt_or_ge id memo.groups.size with old | new
    · rw [agrees old] at relation
      exact formed.positive old relation
    · exact positive new inside relation
  isOpen := isOpen
  groupsOpen := groupsOpen

/-! ### Insertion of expressions -/

section Insertion

variable {operator : Operator} {children : List GroupId}

theorem groupsOpen_append {target : GroupId}
    (each : ∀ (id : GroupId) (group : Group), memo.groups[id]? = some group → group.isOpen = true)
    {id : GroupId} {group : Group}
    (there : (memo.append target operator children).groups[id]? = some group) :
    group.isOpen = true := by
  rw [groups_append] at there
  split at there
  · obtain ⟨owner, found, rfl⟩ := Option.map_eq_some_iff.1 there
    exact each id owner found
  · exact each id group there

/-- No join of many inputs is added with another operator. -/
theorem naryJoins_append {target : GroupId} (plain : operator ≠ .logical .naryJoin) {id : ExprId}
    {expr : Expr} (stored : (memo.append target operator children).exprs[id]? = some expr)
    (nary : expr.operator = .logical .naryJoin) : memo.exprs[id]? = some expr := by
  rcases stored_append_iff.1 stored with old | ⟨_, rfl⟩
  · exact old
  · exact absurd nary plain

/-- A group that stands for a relation over relations with tables has tables. -/
theorem Formed.tables_positive (formed : memo.Formed breadth)
    (inside : ∀ child ∈ children, child < memo.groups.size) {result : Breadth}
    (takes : operator.Takes (children.map breadth) result) {tables : Nat}
    (relation : result = .relation tables) : 0 < tables := by
  have each : ∀ count, .relation count ∈ children.map breadth → 0 < count := by
    intro count member
    obtain ⟨child, among, same⟩ := List.mem_map.1 member
    exact formed.positive (inside child among) same
  subst relation
  cases takes with
  | logical takes => exact takes.positive each
  | physical takes => exact takes.positive each

/-- A new expression in a group of its own is formed with a group that stands for what its operator
amounts to. -/
theorem Formed.of_appendGroup (formed : memo.Formed breadth)
    (inside : ∀ child ∈ children, child < memo.groups.size) {result : Breadth}
    (takes : operator.Takes (children.map breadth) result) (family : operator.isPhysical = false)
    (grows : memo.Grows next) (valid : next.Valid)
    (same : next = (memo.appendGroup operator.isScalar).append memo.groups.size operator children) :
    next.Formed fun id => if id = memo.groups.size then result else breadth id := by
  have agrees : ∀ {id : GroupId}, id < memo.groups.size →
      (if id = memo.groups.size then result else breadth id) = breadth id :=
    fun below => if_neg (Nat.ne_of_lt below)
  subst same
  refine formed.of_grows grows valid agrees (fun {id expr} there => ?_)
    (fun {id tables} new bound relation => ?_) formed.isOpen ?_
  · rcases stored_append_iff.1 there with old | ⟨_, rfl⟩
    · exact Or.inl old
    · refine Or.inr ⟨?_, fun child member _ => inside child member, ?_, fun _ => family⟩
      · show operator.Takes (children.map _) (if memo.groups.size = memo.groups.size then _ else _)
        rw [List.map_congr_left fun child member => agrees (inside child member), if_pos rfl]
        exact takes
      · intro physical same
        rw [show operator = .physical physical from same] at family
        cases family
  · rw [size_groups_append, size_groups_appendGroup] at bound
    refine formed.tables_positive inside takes ?_
    exact (if_pos (Nat.le_antisymm (Nat.le_of_lt_succ bound) new)).symm.trans relation
  · refine groupsOpen_append fun id group there => ?_
    rw [groups_appendGroup] at there
    split at there
    · cases there
      rfl
    · exact formed.groupsOpen there

/-- **An insertion into a formed memo** ends well, and the group of the expression stands for what
the operator amounts to. -/
theorem Formed.insert (formed : memo.Formed breadth)
    (inside : ∀ child ∈ children, child < memo.groups.size) {result : Breadth}
    (takes : operator.Takes (children.map breadth) result)
    (family : operator.isPhysical = false) :
    ∃ number next later expr, memo.insert operator children = .ok (number, next) ∧
      next.Formed later ∧
      (operator ≠ .logical .naryJoin → memo.Develops breadth next later) ∧
      next.exprs[number]? = some expr ∧ later expr.group = result := by
  cases found : memo.lookup operator children with
  | some existing =>
    obtain ⟨expr, stored, equal, same⟩ := formed.lookup_eq_some_iff.1 found
    refine ⟨existing, memo, breadth, expr, insert_of_stored formed.toValid stored equal same,
      formed, fun _ => formed.refl, stored, ?_⟩
    have takesToo := (formed.seated stored).takes
    rw [same] at takesToo
    exact takesToo.unique takes equal
  | none =>
    let grown := (memo.appendGroup operator.isScalar).append memo.groups.size operator children
    have done : memo.insert operator children = .ok (memo.exprs.size, grown) := by
      have exist : memo.requireChildren operator children = .ok () :=
        requireChildren_ok_iff.2 inside
      unfold Memo.insert
      rw [exist, found, formed.isOpen]
      rfl
    obtain ⟨valid, grows⟩ := insert_keeps done formed.toValid
    have after := formed.of_appendGroup inside takes family grows valid rfl
    exact ⟨memo.exprs.size, grown, _, _, done, after, fun plain =>
      ⟨after, grows, fun below => if_neg (Nat.ne_of_lt below), naryJoins_append plain⟩,
      stored_append_iff.2 (Or.inr ⟨rfl, rfl⟩), if_pos rfl⟩

/-- **An insertion into a group of a formed memo** ends well if the operator amounts to what the group
stands for. -/
theorem Formed.insertInto (formed : memo.Formed breadth) {target : GroupId}
    (inside : ∀ child ∈ children, child < memo.groups.size) (place : target < memo.groups.size)
    (takes : operator.Takes (children.map breadth) (breadth target))
    (older : ∀ child ∈ children, breadth child = breadth target → child < target)
    (logical : ∀ {physical : PhysicalOp}, operator = .physical physical →
      ∃ (number : ExprId) (sibling : Expr), memo.exprs[number]? = some sibling ∧
        sibling.operator = .logical physical.logical ∧ sibling.children = children ∧
        sibling.group = target)
    (plain : operator ≠ .logical .naryJoin) :
    ∃ number next, memo.insertInto target operator children = .ok (number, next) ∧
      memo.Develops breadth next breadth := by
  cases found : memo.lookup operator children with
  | some existing =>
    obtain ⟨expr, stored, equal, same⟩ := formed.lookup_eq_some_iff.1 found
    exact ⟨existing, memo, insertInto_of_stored formed.toValid stored equal same, formed.refl⟩
  | none =>
    obtain ⟨group, there⟩ := group_of_lt place
    have done : memo.insertInto target operator children =
        .ok (memo.exprs.size, memo.append target operator children) := by
      have exist : memo.requireChildren operator children = .ok () :=
        requireChildren_ok_iff.2 inside
      have named : memo.group target = .ok group := group_ok_iff.2 there
      have family : group.isScalar = operator.isScalar := by
        have same := formed.isScalar_eq place
        rw [takes.isScalar_eq, isScalarGroup, there] at same
        exact same.symm
      have opened : group.isOpen = true := formed.groupsOpen there
      unfold Memo.insertInto
      rw [exist, found, named]
      simp [opened, family, bind, Except.bind, pure, Except.pure]
    obtain ⟨valid, grows⟩ := insertInto_keeps done formed.toValid
    refine ⟨_, _, done, ?_, grows, fun _ => rfl, naryJoins_append plain⟩
    refine formed.of_grows grows valid (fun _ => rfl) (fun {id expr} stored => ?_)
      (fun {id tables} new bound => ?_) formed.isOpen
      (groupsOpen_append fun id group => formed.groupsOpen)
    · rcases stored_append_iff.1 stored with old | ⟨_, rfl⟩
      · exact Or.inl old
      · rw [added_eq there]
        refine Or.inr ⟨takes, older, fun physical => ?_, fun first => ?_⟩
        · obtain ⟨number, sibling, stored, beside⟩ := logical physical
          exact ⟨number, sibling, grows.exprs stored, beside⟩
        · exact absurd first (Nat.ne_of_gt (formed.inhabited there))
    · rw [size_groups_append] at bound
      exact absurd bound (Nat.not_lt.2 new)

end Insertion

/-! ### Memos of logical expressions -/

/-- **Memos into which well-formed logical expressions were inserted**: every operator is logical or
scalar and has children of the families that it takes. -/
inductive Built : Memo → Prop
  | empty : Built .empty
  | insert {memo next : Memo} {operator : Operator} {children : List GroupId} {number : ExprId} :
      Built memo → operator.isPhysical = false → memo.Fits operator children →
      memo.insert operator children = .ok (number, next) → Built next

/-- The memo after some insertions, if all of them are of well-formed logical expressions. -/
def build? (memo : Memo) : List (Operator × List GroupId) → Option Memo
  | [] => some memo
  | (operator, children) :: rest =>
    if operator.isPhysical = false ∧ memo.Fits operator children then
      match memo.insert operator children with
      | .ok (_, next) => next.build? rest
      | .error _ => none
    else none

theorem Built.build? (built : Built memo) {expressions : List (Operator × List GroupId)}
    (done : memo.build? expressions = some next) : Built next := by
  induction expressions generalizing memo with
  | nil =>
    cases done
    exact built
  | cons expression rest ih =>
    obtain ⟨operator, children⟩ := expression
    unfold Memo.build? at done
    split at done
    · rename_i well
      split at done
      · rename_i number after inserted
        exact ih (.insert built well.1 well.2 inserted) done
      · cases done
    · cases done

theorem empty_formed : Memo.empty.Formed fun _ => .scalar where
  toValid := empty_valid
  seated stored := by simp [empty] at stored
  positive inside := absurd inside (Nat.not_lt_zero _)
  isOpen := rfl
  groupsOpen there := by simp [empty] at there

/-- **Such memos are formed.** -/
theorem Built.formed (built : Built memo) : ∃ breadth, memo.Formed breadth := by
  induction built with
  | empty => exact ⟨_, empty_formed⟩
  | @insert memo next operator children number _ family fits done ih =>
    obtain ⟨breadth, formed⟩ := ih
    have inside := (insert_cases done).1
    obtain ⟨inputs, amount, families, takes⟩ := fits
    have same : inputs.map Breadth.isScalar = (children.map breadth).map Breadth.isScalar := by
      rw [families, List.map_map]
      exact List.map_congr_left fun child member => (formed.isScalar_eq (inside child member)).symm
    obtain ⟨result, takes⟩ := takes.of_families same
    obtain ⟨_, after, later, _, again, formed, _⟩ := formed.insert inside takes family
    rw [done] at again
    cases again
    exact ⟨later, formed⟩

/-- Nothing was done yet with the expressions of such a memo. -/
theorem Built.isMarked_eq (built : Built memo) (id : ExprId) (mark : Mark) :
    memo.isMarked id mark = false := by
  have unmarked : memo.marks = {} := by
    induction built with
    | empty => rfl
    | insert _ _ _ done ih =>
      have same := insert_marks done
      exact Eq.trans same ih
  unfold isMarked
  rw [unmarked]
  rfl

/-! ### Proposals -/

/-- What some proposals amount to, where every inner node is an operator that takes its children, and
none is a join of many inputs. -/
inductive Amount (memo : Memo) (breadth : GroupId → Breadth) : List Proposal → List Breadth → Prop
  | nil : Amount memo breadth [] []
  | group {id : GroupId} {rest : List Proposal} {amounts : List Breadth} :
      id < memo.groups.size → Amount memo breadth rest amounts →
      Amount memo breadth (.group id :: rest) (breadth id :: amounts)
  | node {operator : Operator} {children rest : List Proposal} {inputs amounts : List Breadth}
      {result : Breadth} :
      Amount memo breadth children inputs → operator.Takes inputs result →
      operator.isPhysical = false → operator ≠ .logical .naryJoin → Amount memo breadth rest amounts →
      Amount memo breadth (.node operator children :: rest) (result :: amounts)

theorem Amount.groups {children : List GroupId}
    (inside : ∀ child ∈ children, child < memo.groups.size) :
    Amount memo breadth (children.map .group) (children.map breadth) := by
  induction children with
  | nil => exact .nil
  | cons child children ih =>
    exact .group (inside child List.mem_cons_self)
      (ih fun other member => inside other (List.mem_cons_of_mem _ member))

/-- **Proposals get groups** that stand for what the proposals amount to, in every memo that a formed
one develops into. -/
theorem Amount.materializeAll {proposals : List Proposal} {amounts : List Breadth}
    (amount : Amount memo breadth proposals amounts) (develops : memo.Develops breadth next later) :
    ∃ ids last final, next.materializeAll proposals = .ok (ids, last) ∧
      next.Develops later last final ∧ (∀ id ∈ ids, id < last.groups.size) ∧
      ids.map final = amounts := by
  induction amount generalizing next later with
  | nil => exact ⟨[], next, later, rfl, develops.formed.refl, by simp, rfl⟩
  | @group id rest amounts inside _ ih =>
    obtain ⟨ids, last, final, done, more, within, same⟩ := ih develops
    have there := Nat.lt_of_lt_of_le inside develops.grows.size_groups
    refine ⟨id :: ids, last, final, ?_, more, ?_, ?_⟩
    · unfold Memo.materializeAll Memo.materialize
      refine bind_eq_ok_iff.2 ⟨_, rfl, ?_⟩
      exact bind_eq_ok_iff.2 ⟨_, done, rfl⟩
    · exact List.forall_mem_cons.2 ⟨Nat.lt_of_lt_of_le there more.grows.size_groups, within⟩
    · rw [List.map_cons, same, more.agrees there, develops.agrees inside]
  | @node operator children rest inputs amounts result _ takes family plain _ below ih =>
    obtain ⟨groups, middle, between, inner, first, within, same⟩ := below develops
    obtain ⟨number, grown, onward, expr, inserted, _, grew, stored, amounts⟩ :=
      first.formed.insert within (same.symm ▸ takes) family
    have second : middle.Develops between grown onward := grew plain
    obtain ⟨ids, last, final, done, more, others, rest⟩ :=
      ih (develops.trans (first.trans second))
    obtain ⟨owner, there, _⟩ := second.formed.placed stored
    refine ⟨expr.group :: ids, last, final, ?_, (first.trans second).trans more, ?_, ?_⟩
    · unfold Memo.materializeAll Memo.materialize
      refine bind_eq_ok_iff.2 ⟨(expr.group, grown), ?_, bind_eq_ok_iff.2 ⟨_, done, rfl⟩⟩
      refine bind_eq_ok_iff.2 ⟨_, inner, bind_eq_ok_iff.2 ⟨_, inserted, ?_⟩⟩
      exact bind_eq_ok_iff.2 ⟨expr, expr_ok_iff.2 stored, rfl⟩
    · refine List.forall_mem_cons.2 ⟨?_, others⟩
      exact Nat.lt_of_lt_of_le (lt_of_group there) more.grows.size_groups
    · rw [List.map_cons, rest, more.agrees (lt_of_group there), amounts]

/-- Groups that are there are their own groups. -/
theorem materializeAll_groups {children : List GroupId} :
    memo.materializeAll (children.map .group) = .ok (children, memo) := by
  induction children with
  | nil => rfl
  | cons child children ih =>
    exact bind_eq_ok_iff.2 ⟨(child, memo), rfl, bind_eq_ok_iff.2 ⟨_, ih, rfl⟩⟩

/-- **A proposal that belongs into a group**: a join of proposals, or an operator over groups, that
amounts to what the group stands for. -/
inductive Suits (memo : Memo) (breadth : GroupId → Breadth) (target : GroupId) : Proposal → Prop
  | join {type : JoinType} {children : List Proposal} {inputs : List Breadth} :
      Amount memo breadth children inputs →
      (Operator.logical (.join type)).Takes inputs (breadth target) →
      Suits memo breadth target (.node (.logical (.join type)) children)
  | groups {operator : Operator} {children : List GroupId} :
      (∀ child ∈ children, child < memo.groups.size) →
      operator.Takes (children.map breadth) (breadth target) →
      (∀ child ∈ children, breadth child = breadth target → child < target) →
      (∀ {physical : PhysicalOp}, operator = .physical physical →
        ∃ (number : ExprId) (sibling : Expr), memo.exprs[number]? = some sibling ∧
          sibling.operator = .logical physical.logical ∧ sibling.children = children ∧
          sibling.group = target) →
      operator ≠ .logical .naryJoin →
      Suits memo breadth target (.overGroups operator children)

/-- Every input of a join over relations with tables has fewer tables than the join. -/
theorem ne_of_takes_join {type : JoinType} {inputs : List Breadth} {result : Breadth}
    (takes : (Operator.logical (.join type)).Takes inputs result)
    (positive : ∀ count, .relation count ∈ inputs → 0 < count) : result ∉ inputs := by
  cases takes with
  | logical takes =>
  cases takes with
  | @join _ left right =>
    have first := positive left (by simp)
    have second := positive right (by simp)
    simp only [List.mem_cons, Breadth.relation.injEq, List.not_mem_nil, or_false, reduceCtorEq]
    omega

/-- **A proposal that belongs into a group** is inserted into it and keeps the memo formed. -/
theorem Suits.insertProposal {target : GroupId} {proposal : Proposal}
    (suits : Suits memo breadth target proposal) (place : target < memo.groups.size)
    (develops : memo.Develops breadth next later) :
    ∃ last final, next.insertProposal target proposal = .ok last ∧
      next.Develops later last final := by
  have bound := Nat.lt_of_lt_of_le place develops.grows.size_groups
  cases suits with
  | @join type children inputs amount takes =>
    obtain ⟨ids, middle, between, done, first, inside, same⟩ := amount.materializeAll develops
    have within := Nat.lt_of_lt_of_le bound first.grows.size_groups
    have kept : between target = breadth target := (first.agrees bound).trans (develops.agrees place)
    have takes : (Operator.logical (.join type)).Takes (ids.map between) (between target) := by
      rw [same, kept]
      exact takes
    have different := ne_of_takes_join takes fun count member => by
      obtain ⟨id, among, equal⟩ := List.mem_map.1 member
      exact first.formed.positive (inside id among) equal
    obtain ⟨number, last, inserted, second⟩ := first.formed.insertInto inside within takes
      (fun id member equal => absurd (equal ▸ List.mem_map_of_mem member) different)
      (fun physical => nomatch physical) nofun
    refine ⟨last, between, ?_, first.trans second⟩
    exact bind_eq_ok_iff.2 ⟨_, done, bind_eq_ok_iff.2 ⟨_, inserted, rfl⟩⟩
  | @groups operator children inside takes older logical plain =>
    have same : children.map later = children.map breadth :=
      List.map_congr_left fun child member => develops.agrees (inside child member)
    have kept : later target = breadth target := develops.agrees place
    obtain ⟨number, last, inserted, second⟩ := develops.formed.insertInto
      (fun child member => Nat.lt_of_lt_of_le (inside child member) develops.grows.size_groups)
      bound (by rw [same, kept]; exact takes)
      (fun child member equal => by
        rw [develops.agrees (inside child member), kept] at equal
        exact older child member equal)
      (fun physical => by
        obtain ⟨number, sibling, stored, beside⟩ := logical physical
        exact ⟨number, sibling, develops.grows.exprs stored, beside⟩) plain
    refine ⟨last, later, ?_, second⟩
    exact bind_eq_ok_iff.2 ⟨_, materializeAll_groups, bind_eq_ok_iff.2 ⟨_, inserted, rfl⟩⟩

/-- **Proposals that belong into a group** are inserted into it and keep the memo formed. -/
theorem insertProposals_develops {target : GroupId} {proposals : List Proposal}
    (suits : ∀ proposal ∈ proposals, Suits memo breadth target proposal)
    (place : target < memo.groups.size) (develops : memo.Develops breadth next later) :
    ∃ count last final, next.insertProposals target proposals = .ok (count, last) ∧
      next.Develops later last final := by
  have each : ∀ {next : Memo} {later : GroupId → Breadth}, memo.Develops breadth next later →
      ∃ last final, proposals.foldlM (fun memo proposal => memo.insertProposal target proposal)
        next = .ok last ∧ next.Develops later last final := by
    induction proposals with
    | nil => exact fun {next later} develops => ⟨next, later, rfl, develops.formed.refl⟩
    | cons proposal proposals ih =>
      intro next later develops
      obtain ⟨middle, between, one, first⟩ :=
        (suits proposal List.mem_cons_self).insertProposal place develops
      obtain ⟨last, final, others, second⟩ :=
        ih (fun other member => suits other (List.mem_cons_of_mem _ member)) (develops.trans first)
      refine ⟨last, final, ?_, first.trans second⟩
      rw [List.foldlM_cons]
      exact bind_eq_ok_iff.2 ⟨middle, one, others⟩
  obtain ⟨last, final, done, more⟩ := each develops
  exact ⟨_, last, final, bind_eq_ok_iff.2 ⟨last, done, rfl⟩, more⟩

end Cascades.Memo
