/-
**Trees of physical members.**

A tree chooses a physical member of a group and a tree for each of its relational inputs. A group
may have a tree or not, and it may have many, also where groups reach themselves; what a tree costs
is added up from its leaves.

* `Memo.Planned`: a group that has a tree; `Memo.Uses`: the groups that trees of a group may hold;
* `Plan.Tree`: a plan that is a tree of a group, with its cost;
* `Plan.Optimal`: a tree that is cheapest, and earliest among the cheapest, together with its inputs.
-/

import Cascades.Plan
import Cascades.Proofs.Memo.First
import Mathlib.Data.List.Forall2
import Mathlib.Logic.Relation
import Mathlib.Order.Defs.PartialOrder

namespace Cascades

open Relation

/-! ### Groups that have trees -/

/-- A group that has a finite tree of physical members. -/
inductive Memo.Planned (memo : Memo) : GroupId → Prop
  | member {number : ExprId} {expr : Expr} {operator : PhysicalOp} :
      memo.exprs[number]? = some expr → expr.operator = .physical operator →
      (∀ child ∈ memo.relationalChildren expr, Planned memo child) → Planned memo expr.group

/-- A physical member of the upper group takes the lower one. -/
def Memo.Uses (memo : Memo) (upper lower : GroupId) : Prop :=
  ∃ (number : ExprId) (expr : Expr) (operator : PhysicalOp), memo.exprs[number]? = some expr ∧
    expr.operator = .physical operator ∧ expr.group = upper ∧ lower ∈ memo.relationalChildren expr

/-- No group that is used by a group, directly or further down, uses itself. -/
def Memo.Grounded (memo : Memo) (id : GroupId) : Prop :=
  ∀ below, ReflTransGen memo.Uses id below → ¬ TransGen memo.Uses below below

theorem Memo.Grounded.below {memo : Memo} {id lower : GroupId} (grounded : memo.Grounded id)
    (uses : memo.Uses id lower) : memo.Grounded lower :=
  fun below reaches => grounded below (.head uses reaches)

theorem Memo.Uses.relational {memo : Memo} (linked : memo.Linked) {upper lower : GroupId}
    (uses : memo.Uses upper lower) : memo.Relational lower := by
  obtain ⟨number, expr, _, stored, _, _, below⟩ := uses
  obtain ⟨member, family⟩ := List.mem_filter.1 below
  exact relational_iff.2 ⟨linked.childExists stored member, by simpa using family⟩

/-- Where what is used is always lower in some order, no group uses itself. -/
theorem Memo.acyclic_of_rank {memo : Memo} {α : Type} [Preorder α] (rank : GroupId → α)
    (falls : ∀ {upper lower : GroupId}, memo.Uses upper lower → rank lower < rank upper)
    (id : GroupId) : ¬ TransGen memo.Uses id id := by
  have below : ∀ {lower : GroupId}, TransGen memo.Uses id lower → rank lower < rank id := by
    intro lower reaches
    induction reaches with
    | single uses => exact falls uses
    | tail _ uses ih => exact lt_trans (falls uses) ih
  exact fun cycle => lt_irrefl _ (below cycle)

/-! ### Plans that are trees -/

namespace Plan

/-- A value has a partner in a list of equal length. -/
theorem exists_mem_zip {α β : Type} {values : List α} {partners : List β}
    (count : values.length = partners.length) {value : α} (member : value ∈ values) :
    ∃ partner, (value, partner) ∈ values.zip partners := by
  obtain ⟨place, there⟩ := List.mem_iff_getElem?.1 member
  have inside : place < partners.length := count ▸ (List.getElem?_eq_some_iff.1 there).1
  have pair : (values.zip partners)[place]? = some (value, partners[place]) :=
    List.getElem?_zip_eq_some.2 ⟨there, List.getElem?_eq_getElem inside⟩
  exact ⟨partners[place], List.mem_of_getElem? pair⟩

/-- **A tree of a group** as a plan. -/
inductive Tree (setting : Setting) : GroupId → Plan → Prop
  | member {number : ExprId} {expr : Expr} {operator : PhysicalOp} {output : Statistics}
      {inputs : List Plan} {plan : Plan} :
      setting.memo.exprs[number]? = some expr → expr.operator = .physical operator →
      setting.statistics expr.group = .ok output →
      (setting.memo.relationalChildren expr).length = inputs.length →
      (∀ {child : GroupId} {input : Plan},
        (child, input) ∈ (setting.memo.relationalChildren expr).zip inputs →
          Tree setting child input) →
      ofInputs setting expr.group number operator output inputs = .ok plan →
      Tree setting expr.group plan

variable {setting : Setting} {id : GroupId} {plan other : Plan}

/-- What a tree consists of. -/
theorem Tree.cases (tree : Tree setting id plan) :
    ∃ (expr : Expr) (operator : PhysicalOp) (output : Statistics),
      setting.memo.exprs[plan.expr]? = some expr ∧ expr.operator = .physical operator ∧
      expr.group = id ∧ setting.statistics id = .ok output ∧
      List.Forall₂ (Tree setting) (setting.memo.relationalChildren expr) plan.inputs ∧
      ofInputs setting id plan.expr operator output plan.inputs = .ok plan := by
  cases tree with
  | member stored physical known count below made =>
    have whole := made
    obtain ⟨statistics, _, same⟩ := bind_eq_ok_iff.1 made
    obtain rfl := pure_eq_ok_iff.1 same
    exact ⟨_, _, _, stored, physical, rfl, known, List.forall₂_iff_zip.2 ⟨count, below⟩, whole⟩

theorem Tree.group_eq (tree : Tree setting id plan) : plan.group = id := by
  cases tree with
  | member _ _ _ _ _ made =>
    obtain ⟨_, _, same⟩ := bind_eq_ok_iff.1 made
    obtain rfl := pure_eq_ok_iff.1 same
    rfl

/-- A group with a plan has a tree. -/
theorem Tree.planned (tree : Tree setting id plan) : setting.memo.Planned id := by
  induction tree with
  | @member number expr operator output inputs plan stored physical _ count _ _ ih =>
    refine .member stored physical fun child member => ?_
    obtain ⟨input, pair⟩ := exists_mem_zip count member
    exact ih pair

/-! ### The best tree -/

/-- The place of an expression in its group. -/
def placeOf (memo : Memo) (number : ExprId) : Nat :=
  (memo.exprs[number]?.map Expr.position).getD 0

/-- A tree that costs no more than any other, and less than each one through an earlier member. -/
structure Least (setting : Setting) (id : GroupId) (plan : Plan) : Prop where
  tree : Tree setting id plan
  least : ∀ other, Tree setting id other → other.cost.less plan.cost = false
  earliest : ∀ other, Tree setting id other →
    placeOf setting.memo other.expr < placeOf setting.memo plan.expr →
      plan.cost.less other.cost = true

/-- **The best tree of a group**, all of whose inputs are the best trees of theirs. -/
inductive Optimal (setting : Setting) : GroupId → Plan → Prop
  | node {id : GroupId} {plan : Plan} : Least setting id plan →
      (∀ input ∈ plan.inputs, Optimal setting input.group input) → Optimal setting id plan

theorem Optimal.isLeast (optimal : Optimal setting id plan) : Least setting id plan := by
  cases optimal with
  | node least _ => exact least

end Plan

end Cascades
