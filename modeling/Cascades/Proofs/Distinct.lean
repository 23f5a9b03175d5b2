/-
**Counting what is distinct.**

`List.eraseDups` keeps the first of all elements that are equal under `==`. Where a function tells apart
exactly what `==` tells apart, as many elements are left as the function has values.

* `length_eraseDups`: this number, as the size of a finite set;
* `length_eraseDups_map_le`: a function leaves no more distinct elements.
-/

import Mathlib.Data.Finset.Card

namespace Cascades

universe u v

variable {α : Type u} {β : Type v} [BEq α] [DecidableEq β]

/-- **As many elements are distinct as a function has values** that tells them apart. -/
theorem length_eraseDups {values : List α} {key : α → β}
    (tells : ∀ first ∈ values, ∀ second ∈ values,
      (first == second) = true ↔ key first = key second) :
    values.eraseDups.length = (values.map key).toFinset.card := by
  match values with
  | [] => rfl
  | head :: tail =>
    -- What is left behind the head has none of its equals, so the head adds a value of its own.
    let others := tail.filter fun value => !value == head
    have kept : ∀ value ∈ others, value ∈ tail ∧ key value ≠ key head := by
      intro value member
      obtain ⟨inside, different⟩ := List.mem_filter.1 member
      refine ⟨inside, fun same => ?_⟩
      have equal := (tells value (.tail _ inside) head (.head _)).2 same
      simp [equal] at different
    have fewer : others.eraseDups.length = (others.map key).toFinset.card :=
      length_eraseDups fun first inside second again =>
        tells first (.tail _ (kept first inside).1) second (.tail _ (kept second again).1)
    have fresh : key head ∉ (others.map key).toFinset := by
      intro member
      obtain ⟨value, inside, same⟩ := List.mem_map.1 (List.mem_toFinset.1 member)
      exact (kept value inside).2 same
    have same : ((head :: tail).map key).toFinset = insert (key head) (others.map key).toFinset := by
      ext image
      simp only [List.map_cons, List.toFinset_cons, Finset.mem_insert, List.mem_toFinset,
        List.mem_map]
      constructor
      · rintro (rfl | ⟨value, inside, rfl⟩)
        · exact .inl rfl
        · by_cases equal : (value == head) = true
          · exact .inl ((tells value (.tail _ inside) head (.head _)).1 equal)
          · exact .inr ⟨value, List.mem_filter.2 ⟨inside, by simp [equal]⟩, rfl⟩
      · rintro (rfl | ⟨value, inside, rfl⟩)
        · exact .inl rfl
        · exact .inr ⟨value, (kept value inside).1, rfl⟩
    rw [List.eraseDups_cons, List.length_cons, fewer, same, Finset.card_insert_of_notMem fresh]
termination_by values.length
decreasing_by
  exact Nat.lt_succ_of_le (List.length_filter_le _ _)

section Lawful

variable [LawfulBEq α] [DecidableEq α]

/-- Elements that are equal only where they are the same. -/
theorem length_eraseDups_eq_card (values : List α) :
    values.eraseDups.length = values.toFinset.card := by
  have tells : ∀ first ∈ values, ∀ second ∈ values, (first == second) = true ↔ id first = id second :=
    fun _ _ _ _ => beq_iff_eq
  rw [length_eraseDups tells, List.map_id]

/-- **A function leaves no more distinct elements.** -/
theorem length_eraseDups_map_le [BEq β] [LawfulBEq β] (image : α → β) (values : List α) :
    (values.map image).eraseDups.length ≤ values.eraseDups.length := by
  have same : (values.map image).toFinset = values.toFinset.image image := by
    ext value
    simp
  rw [length_eraseDups_eq_card, length_eraseDups_eq_card, same]
  exact Finset.card_image_le

end Lawful

end Cascades
