/-
**Trees of one memo in another.**

A memo may hold the physical members of another one under other numbers and among more members. Then
every tree has a twin there, which costs the same where groups have the same statistics, and the best
tree there costs no more.

* `Covers`: the members of one setting are in another, below some groups;
* `Tree.exists_twin`: a tree has a twin of the same cost;
* `Covers.atMost`: the best tree of the covering setting costs no more than any tree.
-/

import Cascades.Proofs.Plan.Cheapest

namespace Cascades.Plan

variable {setting other : Setting} {within : GroupId → Prop} {id : GroupId} {plan best : Plan}

/-- **A setting covers another one** on some groups: it costs operators alike, groups have the same
statistics, and each physical member of these groups has a counterpart with the same operator over the
same groups, which are such groups again. -/
structure Covers (within : GroupId → Prop) (setting other : Setting) : Prop where
  model : other.model = setting.model
  statistics : ∀ {id : GroupId} {value : Statistics}, setting.statistics id = .ok value →
    other.statistics id = .ok value
  members : ∀ {number : ExprId} {expr : Expr} {operator : PhysicalOp},
    setting.memo.exprs[number]? = some expr → expr.operator = .physical operator →
    within expr.group → ∃ (twin : ExprId) (form : Expr), other.memo.exprs[twin]? = some form ∧
      form.operator = expr.operator ∧ form.group = expr.group ∧
      other.memo.relationalChildren form = setting.memo.relationalChildren expr ∧
      ∀ child ∈ setting.memo.relationalChildren expr, within child

/-- Trees whose twins cost the same, one by one. -/
theorem exists_twins {children : List GroupId} {inputs : List Plan}
    (each : List.Forall₂ (fun child input => ∃ twin, Tree other child twin ∧ twin.cost = input.cost)
      children inputs) :
    ∃ twins, List.Forall₂ (Tree other) children twins ∧
      twins.map Plan.cost = inputs.map Plan.cost := by
  induction each with
  | nil => exact ⟨[], .nil, rfl⟩
  | cons one _ ih =>
    obtain ⟨twin, tree, cost⟩ := one
    obtain ⟨twins, trees, costs⟩ := ih
    exact ⟨twin :: twins, .cons tree trees, by rw [List.map_cons, List.map_cons, cost, costs]⟩

/-- **A tree has a twin** in a setting that covers its own, at the same cost. -/
theorem Tree.exists_twin (covers : Covers within setting other) (tree : Tree setting id plan)
    (inside : within id) : ∃ twin, Tree other id twin ∧ twin.cost = plan.cost := by
  induction tree with
  | @member number expr operator output inputs plan stored physical known count below made ih =>
    obtain ⟨place, form, there, same, beside, children, closed⟩ :=
      covers.members stored physical inside
    have trees : List.Forall₂ (Tree setting) (setting.memo.relationalChildren expr) inputs :=
      List.forall₂_iff_zip.2 ⟨count, below⟩
    obtain ⟨twins, others, costs⟩ : ∃ twins,
        List.Forall₂ (Tree other) (setting.memo.relationalChildren expr) twins ∧
          twins.map Plan.cost = inputs.map Plan.cost :=
      exists_twins (List.forall₂_iff_zip.2 ⟨count, fun pair =>
        ih pair (closed _ (List.of_mem_zip pair).1)⟩)
    obtain ⟨statistics, found, cost, _⟩ := cost_of_ofInputs made
    have again : (twins.map Plan.group).mapM other.statistics = .ok statistics := by
      rw [map_group_eq others, mapM_eq_ok_iff]
      rw [map_group_eq trees, mapM_eq_ok_iff] at found
      exact found.imp fun _ _ => covers.statistics
    rw [List.mapM_map] at again
    let twin : Plan := .node operator expr.group place
      (other.model operator output statistics (twins.map Plan.cost)) output.rows twins
    have built : ofInputs other form.group place operator output twins = .ok twin :=
      bind_eq_ok_iff.2 ⟨statistics, again, by rw [beside]; rfl⟩
    refine ⟨twin, ?_, ?_⟩
    · obtain ⟨counts, each⟩ := List.forall₂_iff_zip.1 others
      rw [← beside]
      refine .member there (same.trans physical) (beside ▸ covers.statistics known) ?_ ?_ built
      · exact children ▸ counts
      · exact children ▸ each
    · show other.model _ _ _ _ = plan.cost
      rw [covers.model, costs, cost]

/-- **The best tree of a covering setting** costs no more than any tree. -/
theorem Covers.atMost (covers : Covers within setting other) (least : Least other id best)
    (tree : Tree setting id plan) (inside : within id) : AtMost best.cost plan.cost := by
  obtain ⟨twin, carried, cost⟩ := tree.exists_twin covers inside
  exact cost ▸ least.least twin carried

end Cascades.Plan
