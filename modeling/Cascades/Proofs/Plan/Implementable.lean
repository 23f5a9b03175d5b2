/-
**Groups that can be implemented.**

A logical expression has a physical form over the same children, unless it is a join of many inputs.
So a group can be implemented if it has a logical member of another kind, all of whose inputs can be
implemented. In a formed memo every input is smaller than its group, in the number of tables or, where
that is the same, in age: no group is below itself, and a group that cannot be implemented has one
below it that holds nothing but joins of many inputs.

* `Implementable`: such a group; `Formed.implementable_of_planned`: a group with a tree is one;
* `Formed.size_lt`: inputs are smaller; `Formed.acyclic`: no group uses itself;
* `Formed.exists_alone`: where a group cannot be implemented.
-/

import Cascades.Proofs.Memo.Formed
import Cascades.Proofs.Memo.Growth
import Cascades.Proofs.Plan.Tree
import Mathlib.Algebra.Order.BigOperators.Group.List
import Mathlib.Algebra.Order.Group.Nat

namespace Cascades

open Relation

/-! ### Implementable groups -/

/-- **A group that can be implemented** has a logical member that is no join of many inputs, all of
whose inputs can be implemented. -/
inductive Memo.Implementable (memo : Memo) : GroupId → Prop
  | member {number : ExprId} {expr : Expr} {operator : LogicalOp} :
      memo.exprs[number]? = some expr → expr.operator = .logical operator → operator ≠ .naryJoin →
      (∀ child ∈ memo.relationalChildren expr, Implementable memo child) →
        Implementable memo expr.group

/-- No physical operator implements a join of many inputs. -/
theorem PhysicalOp.logical_ne_naryJoin (operator : PhysicalOp) : operator.logical ≠ .naryJoin := by
  cases operator <;> exact nofun

/-! ### Inputs are smaller -/

/-- No input of a relation has more tables. -/
theorem LogicalOp.Takes.le {operator : LogicalOp} {inputs : List Breadth} {tables count : Nat}
    (takes : operator.Takes inputs tables) (member : .relation count ∈ inputs) : count ≤ tables := by
  cases takes with
  | get => cases member
  | select | project | aggregate | limit => simpa using Nat.le_of_eq (by simpa using member)
  | @join _ left right =>
    have either : count = left ∨ count = right := by simpa using member
    rcases either with rfl | rfl
    · exact Nat.le_add_right _ _
    · exact Nat.le_add_left _ _
  | @naryJoin counts _ =>
    have among : count ∈ counts := by simpa using member
    exact List.le_sum_of_mem among

namespace Memo

variable {memo next : Memo} {breadth : GroupId → Breadth} {id : GroupId}

/-- Growth changes nothing about the inputs of an expression. -/
theorem Grows.relationalChildren (grows : memo.Grows next) (linked : memo.Linked) {number : ExprId}
    {expr : Expr} (stored : memo.exprs[number]? = some expr) :
    next.relationalChildren expr = memo.relationalChildren expr := by
  refine List.filter_congr fun child member => ?_
  rw [grows.isScalarGroup_eq (linked.childExists stored member)]

/-- What can be implemented can be implemented after growth. -/
theorem Implementable.mono (implementable : memo.Implementable id) (linked : memo.Linked)
    (grows : memo.Grows next) : next.Implementable id := by
  induction implementable with
  | member stored logical plain _ ih =>
    refine .member (grows.exprs stored) logical plain fun child below => ?_
    rw [grows.relationalChildren linked stored] at below
    exact ih child below

/-- Closing a memo changes nothing about what can be implemented. -/
theorem implementable_close_iff (valid : memo.Valid) :
    memo.close.Implementable id ↔ memo.Implementable id := by
  have grows : memo.Grows memo.close := (close_keeps valid).2
  constructor
  · intro implementable
    induction implementable with
    | @member number expr operator stored logical plain _ ih =>
      have there : memo.exprs[number]? = some expr := stored
      refine .member there logical plain fun child below => ih child ?_
      rwa [grows.relationalChildren valid.toLinked there]
  · exact fun implementable => implementable.mono valid.toLinked grows

/-- How large a group is: by its tables, then by its age. -/
def sizeOf (memo : Memo) (breadth : GroupId → Breadth) (id : GroupId) : Nat :=
  (breadth id).tables * memo.groups.size + id

namespace Formed

variable (formed : memo.Formed breadth)
include formed

/-- A group with a tree can be implemented. -/
theorem implementable_of_planned (planned : memo.Planned id) : memo.Implementable id := by
  induction planned with
  | @member number expr operator stored physical _ ih =>
    obtain ⟨_, sibling, again, logical, same, beside⟩ := (formed.seated stored).logical physical
    rw [← beside]
    refine .member again logical operator.logical_ne_naryJoin fun child below => ih child ?_
    unfold Memo.relationalChildren at below ⊢
    rwa [same] at below

/-- A physical form over the children of a logical expression is in the group of the expression. -/
theorem group_of_physical {number other : ExprId} {expr form : Expr} {operator : PhysicalOp}
    (stored : memo.exprs[number]? = some expr)
    (logical : expr.operator = .logical operator.logical)
    (there : memo.exprs[other]? = some form) (physical : form.operator = .physical operator)
    (same : form.children = expr.children) : form.group = expr.group := by
  obtain ⟨_, sibling, again, kind, children, beside⟩ := (formed.seated there).logical physical
  have equal : (sibling.operator == expr.operator) = true := by
    rw [kind, logical]
    exact ReflBEq.rfl
  have one := formed.unique again stored equal (children.trans same)
  rw [one, stored] at again
  cases again
  exact beside.symm

/-- A relational expression that is no join of many inputs has a logical one like that in its
group. -/
theorem exists_plain {number : ExprId} {expr : Expr} (stored : memo.exprs[number]? = some expr)
    (relation : expr.operator.isScalar = false) (plain : expr.operator ≠ .logical .naryJoin) :
    ∃ (other : ExprId) (sibling : Expr) (operator : LogicalOp),
      memo.exprs[other]? = some sibling ∧ sibling.operator = .logical operator ∧
        operator ≠ .naryJoin ∧ sibling.group = expr.group := by
  cases shown : expr.operator with
  | logical operator =>
    exact ⟨number, expr, operator, stored, shown, fun nary => plain (nary ▸ shown), rfl⟩
  | physical operator =>
    obtain ⟨other, sibling, again, logical, _, beside⟩ := (formed.seated stored).logical shown
    exact ⟨other, sibling, _, again, logical, operator.logical_ne_naryJoin, beside⟩
  | scalar operator =>
    rw [shown] at relation
    cases relation

/-- **Inputs are smaller** than the group of a relation. -/
theorem size_lt {number : ExprId} {expr : Expr} (stored : memo.exprs[number]? = some expr)
    (relation : expr.operator.isScalar = false) {child : GroupId}
    (below : child ∈ memo.relationalChildren expr) :
    memo.sizeOf breadth child < memo.sizeOf breadth expr.group := by
  obtain ⟨member, family⟩ := List.mem_filter.1 below
  have inside := formed.childExists stored member
  obtain ⟨count, small⟩ := formed.breadth_of_relational
    (relational_iff.2 ⟨inside, by simpa using family⟩)
  have seated := formed.seated stored
  have among : .relation count ∈ expr.children.map breadth := small ▸ List.mem_map_of_mem member
  obtain ⟨tables, large, fewer⟩ : ∃ tables, breadth expr.group = .relation tables ∧ count ≤ tables := by
    have takes := seated.takes
    generalize breadth expr.group = result at takes
    generalize expr.operator = operator at takes relation
    cases takes with
    | logical takes => exact ⟨_, rfl, takes.le among⟩
    | physical takes => exact ⟨_, rfl, takes.le among⟩
    | scalar => cases relation
  unfold sizeOf
  rw [small, large]
  show count * memo.groups.size + child < tables * memo.groups.size + expr.group
  rcases Nat.lt_or_eq_of_le fewer with less | rfl
  · calc count * memo.groups.size + child
        < count * memo.groups.size + memo.groups.size := Nat.add_lt_add_left inside _
      _ = (count + 1) * memo.groups.size := (Nat.succ_mul _ _).symm
      _ ≤ tables * memo.groups.size := Nat.mul_le_mul_right _ less
      _ ≤ tables * memo.groups.size + expr.group := Nat.le_add_right _ _
  · exact Nat.add_lt_add_left (seated.older child member (small.trans large.symm)) _

/-- **No group uses itself.** -/
theorem acyclic (id : GroupId) : ¬ TransGen memo.Uses id id := by
  refine acyclic_of_rank (memo.sizeOf breadth) (fun {upper lower} uses => ?_) id
  obtain ⟨number, expr, operator, stored, physical, rfl, below⟩ := uses
  exact formed.size_lt stored (by rw [physical]; rfl) below

/-- **A group that cannot be implemented** is one, or has one below it, that holds nothing but joins of
many inputs. -/
theorem exists_alone {within : GroupId → Prop}
    (closed : ∀ {number : ExprId} {expr : Expr}, memo.exprs[number]? = some expr →
      within expr.group → ∀ child ∈ memo.relationalChildren expr, within child)
    (start : within id) (relational : memo.Relational id) (missing : ¬ memo.Implementable id) :
    ∃ below, within below ∧ memo.Relational below ∧
      ∀ (number : ExprId) (expr : Expr), memo.exprs[number]? = some expr → expr.group = below →
        expr.operator = .logical .naryJoin := by
  induction size : memo.sizeOf breadth id using Nat.strongRecOn generalizing id with
  | ind bound ih =>
    by_cases alone : ∀ (number : ExprId) (expr : Expr), memo.exprs[number]? = some expr →
        expr.group = id → expr.operator = .logical .naryJoin
    · exact ⟨id, start, relational, alone⟩
    · push Not at alone
      obtain ⟨number, expr, stored, rfl, plain⟩ := alone
      obtain ⟨group, there, family⟩ := relational
      obtain ⟨other, sibling, operator, again, logical, different, beside⟩ :=
        formed.exists_plain stored ((formed.family stored there).trans family) plain
      obtain ⟨child, below, lacks⟩ :
          ∃ child ∈ memo.relationalChildren sibling, ¬ memo.Implementable child := by
        by_contra all
        push Not at all
        exact missing (beside ▸ .member again logical different all)
      have smaller := formed.size_lt again (by rw [logical]; rfl) below
      rw [beside] at smaller
      obtain ⟨member, value⟩ := List.mem_filter.1 below
      exact ih _ (size ▸ smaller) (closed again (beside.symm ▸ start) child below)
        (relational_iff.2 ⟨formed.childExists again member, by simpa using value⟩) lacks rfl

end Formed

end Memo

end Cascades
