/-
**Patterns over leaves have bindings.**

Every group has a binding of a leaf: a scalar group its first member, a relational group each of its
logical members. So a pattern whose root stands over leaves has a binding at every expression that
matches it.

* `Series.ofExpr_ne_nil`: some binding is known once three levels of recursion are shown;
* `Listing.exists_binding`: a listing that no guard stops has one.
-/

import Cascades.Proofs.Binding.Series
import Cascades.Proofs.Memo.First

namespace Cascades

/-! ### Known values -/

namespace Series

variable {α β : Type} {memo : Memo}

theorem product_ne_nil {factors : List (Series α)} (each : ∀ factor ∈ factors, factor.known ≠ []) :
    (product factors).known ≠ [] := by
  induction factors with
  | nil => exact List.cons_ne_nil _ _
  | cons heads factors ih =>
    have tails : (product factors).known ≠ [] :=
      ih fun factor member => each factor (List.mem_cons_of_mem _ member)
    obtain ⟨first, rest, found⟩ := List.exists_cons_of_ne_nil (each heads List.mem_cons_self)
    show (cross heads (product factors)).known ≠ []
    unfold cross
    rw [found]
    simp only
    split
    · simp [tails]
    · simpa using tails

theorem concat_ne_nil {part : β → Series α} {members : List β} (some : members ≠ [])
    (each : ∀ member ∈ members, (part member).known ≠ []) :
    (concat (members.map part)).known ≠ [] := by
  obtain ⟨first, rest, rfl⟩ := List.exists_cons_of_ne_nil some
  have found := each first List.mem_cons_self
  show (append (part first) _).known ≠ []
  unfold append
  split
  · exact List.append_ne_nil_of_left_ne_nil found _
  · exact found

variable (valid : memo.Valid) (headed : memo.LogicalFirst)
include valid headed

/-- A group has a binding of a leaf. -/
theorem ofGroup_ne_nil {pattern : Pattern} (leaf : pattern.isLeaf = true) {id : GroupId}
    (inside : id < memo.groups.size) {levels : Nat} :
    (ofGroup memo (levels + 2) id pattern).known ≠ [] := by
  obtain ⟨group, there⟩ := Memo.group_of_lt inside
  have root : ∀ operator arity, pattern.matchesRoot operator arity = true :=
    fun operator arity => Pattern.matchesRoot_of_isLeaf operator arity leaf
  have each : ∀ member ∈ group.members.toList,
      (ofExpr memo (levels + 1) member pattern).known ≠ [] := by
    intro member listed
    obtain ⟨position, place⟩ := Array.mem_iff_getElem?.1 (Array.mem_toList_iff.1 listed)
    obtain ⟨expr, stored, _⟩ := valid.listed there place
    rw [ofExpr, stored]
    simp only [root, leaf]
    exact List.cons_ne_nil _ _
  rw [ofGroup, there]
  simp only
  cases family : group.isScalar with
  | true =>
    have some : group.members.toList ≠ [] := by
      rw [← List.length_pos_iff, Array.length_toList]
      exact valid.inhabited there
    obtain ⟨first, rest, found⟩ := List.exists_cons_of_ne_nil (concat_ne_nil some each)
    rw [if_pos rfl]
    unfold head
    rw [found]
    exact List.cons_ne_nil _ _
  | false =>
    rw [if_neg Bool.false_ne_true]
    refine concat_ne_nil ?_ fun member listed => each member (List.mem_of_mem_filter listed)
    obtain ⟨first, expr, operator, place, stored, logical⟩ := headed there family
    have member : first ∈ memo.logicalMembers group :=
      List.mem_filter.2 ⟨Array.mem_toList_iff.2 (Array.mem_of_getElem? place),
        Memo.hasOperator_iff.2 ⟨expr, stored, by rw [logical]; rfl⟩⟩
    exact List.ne_nil_of_mem member

/-- An expression has a binding of a pattern over leaves that matches it. -/
theorem ofExpr_ne_nil {pattern : Pattern} (inner : pattern.isLeaf = false) {id : ExprId} {expr : Expr}
    (stored : memo.exprs[id]? = some expr)
    (root : pattern.matchesRoot expr.operator expr.arity = true)
    (leaves : ∀ position part, pattern.child position expr.arity = .ok part → part.isLeaf = true)
    {levels : Nat} : (ofExpr memo (levels + 3) id pattern).known ≠ [] := by
  rw [ofExpr, stored]
  simp only [root, inner, Bool.not_true, Bool.false_eq_true, if_false]
  refine mt List.map_eq_nil_iff.1 (product_ne_nil fun factor member => ?_)
  obtain ⟨⟨child, position⟩, wheel, rfl⟩ := List.mem_map.1 member
  obtain ⟨_, bound, same⟩ := List.mem_zipIdx wheel
  rw [Nat.zero_add] at bound
  obtain ⟨part, found⟩ := Pattern.child_ok root inner bound
  have below : child < memo.groups.size :=
    valid.childExists stored (same ▸ List.getElem_mem _)
  simp only [found]
  exact ofGroup_ne_nil valid headed (leaves position part found) below

end Series

/-- What is below a pattern over leaves is a leaf. -/
theorem Pattern.isLeaf_child {matcher : Matcher} {children : List Pattern}
    (leaves : ∀ part ∈ children, part.isLeaf = true) {position arity : Nat} {part : Pattern}
    (found : (Pattern.node matcher children).child position arity = .ok part) :
    part.isLeaf = true := by
  unfold Pattern.child at found
  split at found
  · cases found
  simp only at found
  refine leaves part ?_
  cases repeated : Pattern.repeatedFirst? children with
  | none =>
    rw [repeated] at found
    simp only at found
    split at found
    · rename_i there
      cases found
      exact List.mem_of_getElem? there
    · cases found
  | some first =>
    rw [repeated] at found
    simp only at found
    have among : first ∈ children := by
      cases children with
      | nil => cases repeated
      | cons head tail =>
        change (if head.isRepeated then some head else none) = some first at repeated
        split at repeated
        · cases repeated
          exact List.mem_cons_self
        · cases repeated
    split at found
    · rename_i there
      cases found
      split at there
      · exact List.mem_of_getLast? there
      · cases there
        exact among
    · cases found

/-- **A pattern over leaves has a binding** at every expression that matches it, unless a guard stops the
listing. -/
theorem Listing.exists_binding {memo : Memo} {guard : Guard} (valid : memo.Valid)
    (headed : memo.LogicalFirst) {matcher : Matcher} {children : List Pattern}
    (leaves : ∀ part ∈ children, part.isLeaf = true) {id : ExprId} {expr : Expr}
    (stored : memo.exprs[id]? = some expr)
    (root : (Pattern.node matcher children).matchesRoot expr.operator expr.arity = true)
    (complete : (ofExpr memo guard id (.node matcher children)).failure = none) :
    ∃ binding, binding ∈ (ofExpr memo guard id (.node matcher children)).found := by
  have agrees : (ofExpr memo guard id (.node matcher children)).Agrees _ :=
    (agrees valid guard.room (Nat.le_add_right guard.room 3)).2 id _ (Memo.lt_of_expr stored)
  have known : (Series.ofExpr memo (guard.room + 3) id (.node matcher children)).known ≠ [] :=
    Series.ofExpr_ne_nil valid headed rfl stored root fun _ _ found =>
      Pattern.isLeaf_child leaves found
  rw [agrees.complete complete] at known
  exact List.exists_mem_of_ne_nil _ known

end Cascades
