/-
**Equal inner joins.**

An inner join is settled by its relations and its conditions, both without an order: relations that
share no columns can be exchanged, and conditions matter only for what they say together. A join
among the relations of a join can be dissolved.

* `joined_perm`: another order of the relations;
* `Alike`, `joined_congr`: other conditions that say the same;
* `joined_joined`: a join of a join;
* `sense_of_joining`: what selections and inner joins mean.
-/

import Cascades.Proofs.Meaning.Sense

namespace Cascades.Interpretation

variable {V : Type} {I : Interpretation V}

/-! ### Conditions -/

/-- Conditions that are true together in the same environments and use the same columns. -/
structure Alike (I : Interpretation V) (conditions others : List (Sense V)) : Prop where
  holds : ∀ environment, (∀ condition ∈ conditions, I.Holds condition environment) ↔
    ∀ condition ∈ others, I.Holds condition environment
  free : ∀ column, (∃ condition ∈ conditions, column ∈ condition.scope.free) ↔
    ∃ condition ∈ others, column ∈ condition.scope.free

namespace Alike

variable {conditions others last : List (Sense V)}

theorem refl (conditions : List (Sense V)) : I.Alike conditions conditions :=
  ⟨fun _ => Iff.rfl, fun _ => Iff.rfl⟩

theorem symm (alike : I.Alike conditions others) : I.Alike others conditions :=
  ⟨fun environment => (alike.holds environment).symm, fun column => (alike.free column).symm⟩

theorem trans (first : I.Alike conditions others) (second : I.Alike others last) :
    I.Alike conditions last :=
  ⟨fun environment => (first.holds environment).trans (second.holds environment),
    fun column => (first.free column).trans (second.free column)⟩

theorem append {more again : List (Sense V)} (first : I.Alike conditions others)
    (second : I.Alike more again) : I.Alike (conditions ++ more) (others ++ again) where
  holds environment := by
    simp only [List.forall_mem_append, first.holds environment, second.holds environment]
  free column := by
    simp only [List.mem_append, or_and_right, exists_or, first.free column, second.free column]

/-- Neither order nor repetition matters. -/
theorem of_mem (same : ∀ condition, condition ∈ conditions ↔ condition ∈ others) :
    I.Alike conditions others where
  holds environment := by simp only [same]
  free column := by simp only [same]

end Alike

/-! ### Joins -/

variable {relations others conditions : List (Sense V)}

theorem joined_congr {early late : List (Sense V)} (alike : I.Alike early late) :
    I.joined relations early = I.joined relations late := by
  refine Sense.ext ?_ ?_ rfl
  · refine Scope.joined_congr (fun _ => Iff.rfl) (fun _ => Iff.rfl) fun column => ?_
    simpa using alike.free column
  · funext environment
    exact Bag.keep_congr fun row _ => alike.holds (row.above environment)

/-- Two relations share no columns and do not see each other's. -/
def Apart (first second : Sense V) : Prop := first.scope.Apart second.scope

theorem Apart.symm {first second : Sense V} (apart : Apart first second) : Apart second first :=
  Scope.Apart.symm apart

theorem product_cons {relation : Sense V} {environment : Row V} :
    product (relation :: relations) environment =
      Bag.cross (relation.rows environment) (product relations environment) := rfl

theorem product_perm (perm : relations.Perm others) (apart : relations.Pairwise Apart)
    (environment : Row V) : product relations environment = product others environment := by
  induction perm with
  | nil => rfl
  | cons relation _ ih => rw [product_cons, product_cons, ih (List.pairwise_cons.1 apart).2]
  | swap first second rest =>
    simp only [product_cons]
    have disjoint := ((List.pairwise_cons.1 apart).1 first List.mem_cons_self).columns
    rw [← Bag.cross_assoc, ← Bag.cross_assoc,
      Bag.cross_comm (second.within environment) (first.within environment) disjoint]
  | trans front _ one two =>
    exact (one apart).trans (two ((front.pairwise_iff Apart.symm).1 apart))

/-- **The order of the relations of a join does not matter.** -/
theorem joined_perm (perm : relations.Perm others) (apart : relations.Pairwise Apart) :
    I.joined relations conditions = I.joined others conditions := by
  have same : ∀ scope, scope ∈ relations.map Sense.scope ↔ scope ∈ others.map Sense.scope :=
    fun _ => (perm.map Sense.scope).mem_iff
  refine Sense.ext ?_ ?_ rfl
  · refine Scope.joined_congr ?_ ?_ fun _ => Iff.rfl <;> simp only [same, implies_true]
  · funext environment
    show Bag.keep (product _ _) _ = Bag.keep (product _ _) _
    rw [product_perm perm apart environment]

/-- **A join of a join** is one join of all relations under all conditions. The conditions of the
inner join use no column of the other relations, so they can as well be asked afterwards. -/
theorem joined_joined {early late : List (Sense V)}
    (apart : ∀ other ∈ others, Apart (I.joined relations early) other) :
    I.joined (I.joined relations early :: others) late =
      I.joined (relations ++ others) (early ++ late) := by
  have unused : ∀ condition ∈ early, ∀ column, column ∈ condition.scope.free →
      ¬ column ∈ SortedSet.empty.addAll (others.map fun other => other.scope.columns) := by
    intro condition member column used inside
    obtain ⟨_, listed, made⟩ := (SortedSet.mem_addAll.1 inside).resolve_left
      (SortedSet.not_mem_empty column)
    obtain ⟨other, otherIn, rfl⟩ := List.mem_map.1 listed
    have each := (Scope.apart_joined_iff.1 (apart other otherIn)).2
    exact each condition.scope (List.mem_map.2 ⟨condition, member, rfl⟩) column used made
  refine Sense.ext ?_ ?_ rfl
  · show Scope.joined (Scope.joined _ _ :: others.map Sense.scope) (late.map Sense.scope) =
      Scope.joined ((relations ++ others).map Sense.scope) ((early ++ late).map Sense.scope)
    rw [List.map_append, List.map_append]
    exact Scope.joined_joined
  · funext environment
    have split : product (relations ++ others) environment =
        Bag.cross (product relations environment) (product others environment) := by
      rw [product, List.map_append, Bag.crossAll_append]
      rfl
    show Bag.keep (product (I.joined relations early :: others) environment) _ =
      Bag.keep (product (relations ++ others) environment) _
    rw [product_cons, split]
    show Bag.keep (Bag.cross (Bag.keep (product relations environment) _) _) _ = _
    rw [← Bag.keep_cross, Bag.keep_keep]
    · exact Bag.keep_congr fun row _ => and_comm.trans List.forall_mem_append.symm
    · intro row _ other otherIn
      refine forall₂_congr fun condition member => Holds.congr I fun column used => ?_
      exact Row.above_above_apply (product_within others environment other otherIn)
        (unused condition member column used)

/-! ### Selections and inner joins -/

/-- What a selection or an inner join over relations and a predicate means. -/
theorem sense_of_joining {operator : Operator} {logical : LogicalOp} {predicate : Sense V}
    (computes : operator.logical? = some logical) (joining : logical.isJoining = true)
    (each : ∀ relation ∈ relations, relation.scope.isScalar = false)
    (scalar : predicate.scope.isScalar = true) :
    I.sense operator (relations ++ [predicate]) = I.joined relations [predicate] := by
  have none : ∀ relation ∈ relations, ¬ relation.scope.isScalar = true := by
    intro relation member
    simp [each relation member]
  have sources : Sense.relations (relations ++ [predicate]) = relations := by
    rw [Sense.relations, List.filter_append, List.filter_eq_self.2 (by simpa using each)]
    simp [scalar]
  have predicates : Sense.scalars (relations ++ [predicate]) = [predicate] := by
    rw [Sense.scalars, List.filter_append, List.filter_eq_nil_iff.2 none]
    simp [scalar]
  rw [sense_of_logical computes, ofLogical, if_pos joining, sources, predicates]

end Cascades.Interpretation
