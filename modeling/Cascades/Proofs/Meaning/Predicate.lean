/-
**Predicates and their conjuncts.**

The conjuncts of a predicate say together what the predicate says, and so does every conjunction that
is made of them. Both also use the same columns.

* `conjuncts_alike`: a predicate and its conjuncts;
* `conjunction_means`: conjuncts and a conjunction of them.
-/

import Cascades.Proofs.Meaning.Joined
import Cascades.Proofs.Meaning.Sound

namespace Cascades

variable {V : Type} {I : Interpretation V} {memo : Memo} {id : GroupId}

namespace Interpretation

variable {inputs : List (Sense V)}

/-- A conjunction says what its inputs say. -/
theorem alike_and : I.Alike [I.sense (.scalar .and) inputs] inputs where
  holds environment := by
    rw [List.forall_mem_singleton]
    exact holds_and
  free column := by
    simp only [List.mem_singleton, exists_eq_left]
    exact mem_free_and

/-- The constant truth says nothing. -/
theorem alike_truth : I.Alike [I.sense (.scalar (.constant (.bool true))) []] [] where
  holds environment := by
    rw [List.forall_mem_singleton]
    simp [holds_truth]
  free column := by
    simp only [List.mem_singleton, exists_eq_left, scope_sense]
    simp [Scope.of, Scope.ofScalar, Scope.scalars, Scope.relations]

theorem Alike.flatMap {values : List GroupId} {parts : GroupId → List GroupId}
    {meaning : GroupId → Sense V}
    (each : ∀ value ∈ values, I.Alike ((parts value).map meaning) [meaning value]) :
    I.Alike ((values.flatMap parts).map meaning) (values.map meaning) := by
  induction values with
  | nil => exact Alike.refl []
  | cons value values ih =>
    rw [List.flatMap_cons, List.map_append]
    exact (each value List.mem_cons_self).append
      (ih fun other member => each other (List.mem_cons_of_mem _ member))

end Interpretation

namespace Memo

open Interpretation

/-! ### Flattening -/

/-- A group of the memo that is scalar. -/
def IsPredicate (I : Interpretation V) (memo : Memo) (id : GroupId) : Prop :=
  id < memo.groups.size ∧ (memo.sense I id).scope.isScalar = true

/-- The inputs of the first member of a group, if the group is a scalar. -/
theorem Sound.first_scalar (sound : memo.Sound I) {operator : ScalarOp} {children : List GroupId}
    (first : memo.scalarFirst? id = some (operator, children)) :
    memo.sense I id = I.sense (.scalar operator) (children.map (memo.sense I)) ∧
      memo.Admits I (.scalar operator) children ∧ ∀ child ∈ children, child < memo.groups.size := by
  obtain ⟨expr, found, kind, rfl⟩ := scalarFirst?_cases first
  obtain ⟨group, member, there, place, stored⟩ := firstMember_ok_iff.1 found
  exact ⟨sound.sense_of_scalarFirst? first, kind ▸ sound.admits stored,
    fun child => sound.childExists stored⟩

theorem conjunctsWithin_alike (sound : memo.Sound I) (levels : Nat) :
    ∀ {id : GroupId}, memo.IsPredicate I id →
      (∀ conjunct ∈ memo.conjunctsWithin levels id, memo.IsPredicate I conjunct) ∧
        I.Alike ((memo.conjunctsWithin levels id).map (memo.sense I)) [memo.sense I id] := by
  -- Where nothing is flattened, the predicate is its only conjunct.
  have itself : ∀ {id : GroupId}, memo.IsPredicate I id →
      (∀ conjunct ∈ [id], memo.IsPredicate I conjunct) ∧
        I.Alike ([id].map (memo.sense I)) [memo.sense I id] := by
    intro id predicate
    refine ⟨fun conjunct member => ?_, Alike.refl _⟩
    rw [List.mem_singleton.1 member]
    exact predicate
  induction levels with
  | zero => exact itself
  | succ levels ih =>
    intro id predicate
    unfold conjunctsWithin
    split
    · rename_i children first
      obtain ⟨same, admits, inside⟩ := sound.first_scalar first
      have scalars := admits.conjoins rfl
      have below : ∀ child ∈ children, memo.IsPredicate I child := by
        intro child member
        exact ⟨inside child member, scalars _ (List.mem_map.2 ⟨child, member, rfl⟩)⟩
      refine ⟨fun conjunct member => ?_, ?_⟩
      · obtain ⟨child, childIn, there⟩ := List.mem_flatMap.1 member
        exact (ih (below child childIn)).1 conjunct there
      · rw [same]
        exact (Alike.flatMap fun child member => (ih (below child member)).2).trans
          alike_and.symm
    · rename_i children first
      obtain ⟨same, admits, _⟩ := sound.first_scalar first
      have none : children = [] := List.map_eq_nil_iff.1 (admits.constants _ rfl)
      subst none
      refine ⟨fun conjunct member => absurd member List.not_mem_nil, ?_⟩
      rw [same]
      exact alike_truth.symm
    · exact itself predicate

/-- **The conjuncts of a predicate** say together what the predicate says. -/
theorem conjuncts_alike (sound : memo.Sound I) (predicate : memo.IsPredicate I id) :
    (∀ conjunct ∈ memo.conjuncts id, memo.IsPredicate I conjunct) ∧
      I.Alike ((memo.conjuncts id).map (memo.sense I)) [memo.sense I id] :=
  conjunctsWithin_alike sound (id + 1) predicate

/-! ### Conjunctions -/

/-- **A conjunction of some predicates** is admissible and says what they say together. -/
theorem conjunction_means {conjuncts : List GroupId}
    (each : ∀ conjunct ∈ conjuncts, memo.IsPredicate I conjunct) :
    ∃ sense, Means I memo (.conjunction conjuncts) sense ∧ sense.scope.isScalar = true ∧
      I.Alike [sense] (conjuncts.map (memo.sense I)) := by
  match conjuncts, each with
  | [], _ =>
    refine ⟨_, .node .nil ⟨?_, ?_, ?_⟩, isScalar_sense, alike_truth⟩
    · exact fun _ same => nomatch same
    · exact fun same => nomatch same
    · exact fun _ _ => rfl
  | [single], each =>
    have predicate := each single (List.mem_singleton.2 rfl)
    exact ⟨_, .group predicate.1, predicate.2, Alike.refl _⟩
  | first :: second :: rest, each =>
    refine ⟨_, .overGroups (fun child member => (each child member).1) ⟨?_, ?_, ?_⟩,
      isScalar_sense, alike_and⟩
    · exact fun _ same => nomatch same
    · intro _ input member
      obtain ⟨child, childIn, rfl⟩ := List.mem_map.1 member
      exact (each child childIn).2
    · exact fun _ same => nomatch same

end Memo

end Cascades
