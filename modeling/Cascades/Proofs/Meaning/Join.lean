/-
**Inner joins in a memo.**

A selection or an inner join of a sound memo means the join of its inputs under its predicate, and so
does a proposed one over proposals for its inputs.

* `Sound.joining`: the inputs of a stored join, and what it means;
* `Means.join`, `Means.joinOf`: what a proposed join means under a predicate, and under a conjunction.
-/

import Cascades.Proofs.Meaning.Predicate

namespace Cascades.Memo

open Interpretation

variable {V : Type} {I : Interpretation V} {memo : Memo}

/-- A group of the memo that is not scalar. -/
def IsRelation (I : Interpretation V) (memo : Memo) (id : GroupId) : Prop :=
  id < memo.groups.size ∧ (memo.sense I id).scope.isScalar = false

/-- What groups mean. -/
noncomputable def senses (I : Interpretation V) (memo : Memo) (ids : List GroupId) :
    List (Sense V) :=
  ids.map (memo.sense I)

theorem senses_append {ids more : List GroupId} :
    memo.senses I (ids ++ more) = memo.senses I ids ++ memo.senses I more := List.map_append

/-- The same groups mean the same conditions. -/
theorem senses_alike {ids more : List GroupId} (same : ∀ id, id ∈ ids ↔ id ∈ more) :
    I.Alike (memo.senses I ids) (memo.senses I more) := by
  refine Alike.of_mem fun sense => ?_
  unfold senses
  rw [List.mem_map, List.mem_map]
  exact exists_congr fun id => and_congr_left fun _ => same id

/-! ### Stored joins -/

section Stored

variable {id : ExprId} {expr : Expr} {logical : LogicalOp}

/-- **A stored join** has relations that are apart and a predicate, and means their join. -/
theorem Sound.joining (sound : memo.Sound I) (stored : memo.exprs[id]? = some expr)
    (computes : expr.operator.logical? = some logical) (joining : logical.isJoining = true) :
    ∃ sources predicate, expr.children = sources ++ [predicate] ∧
      (∀ source ∈ sources, memo.IsRelation I source) ∧ memo.IsPredicate I predicate ∧
      (memo.senses I sources).Pairwise Apart ∧
      memo.sense I expr.group = I.joined (memo.senses I sources) [memo.sense I predicate] := by
  obtain ⟨scopes, last, shape, relational, scalar, apart⟩ :=
    (sound.admits stored).joins logical computes joining
  obtain ⟨sources, rest, split, rfl, ended⟩ := List.map_eq_append_iff.1 shape
  obtain ⟨predicate, rfl, rfl⟩ := List.map_eq_singleton_iff.1 ended
  have inside : ∀ child ∈ sources ++ [predicate], child < memo.groups.size := by
    intro child member
    exact sound.childExists stored (split ▸ member)
  have relations : ∀ source ∈ sources, memo.IsRelation I source := by
    intro source member
    exact ⟨inside source (List.mem_append_left _ member),
      relational _ (List.mem_map.2 ⟨source, member, rfl⟩)⟩
  have pairwise : (memo.senses I sources).Pairwise Apart := by
    rw [List.pairwise_map] at apart
    exact List.pairwise_map.2 apart
  refine ⟨sources, predicate, split, relations, ⟨inside predicate (by simp), scalar⟩, pairwise, ?_⟩
  rw [← sound.same stored, exprSense, split, List.map_append]
  refine sense_of_joining computes joining (fun relation member => ?_) scalar
  obtain ⟨source, sourceIn, rfl⟩ := List.mem_map.1 member
  exact (relations source sourceIn).2

/-- A predicate of a join can be replaced by its conjuncts. -/
theorem Sound.joined_conjuncts (sound : memo.Sound I) {predicate : GroupId}
    (isPredicate : memo.IsPredicate I predicate) {relations : List (Sense V)} :
    I.joined relations [memo.sense I predicate] =
      I.joined relations (memo.senses I (memo.conjuncts predicate)) :=
  joined_congr (conjuncts_alike sound isPredicate).2.symm

end Stored

/-! ### Proposed joins -/

section Proposed

variable {sources : List Proposal} {inputs : List (Sense V)} {operator : Operator}
  {logical : LogicalOp}

theorem MeanAll.append {more : List Proposal} {others : List (Sense V)}
    (first : MeanAll I memo sources inputs) (second : MeanAll I memo more others) :
    MeanAll I memo (sources ++ more) (inputs ++ others) := by
  induction sources generalizing inputs with
  | nil =>
    cases first
    exact second
  | cons proposal sources ih =>
    cases first with
    | cons one rest => exact .cons one (ih rest)

/-- A join of proposals under a predicate. -/
theorem Means.join {predicate : Proposal} {condition : Sense V}
    (computes : operator.logical? = some logical) (joining : logical.isJoining = true)
    (below : MeanAll I memo sources inputs) (last : Means I memo predicate condition)
    (relational : ∀ input ∈ inputs, input.scope.isScalar = false)
    (scalar : condition.scope.isScalar = true) (apart : inputs.Pairwise Apart) :
    Means I memo (.node operator (sources ++ [predicate])) (I.joined inputs [condition]) := by
  rw [← sense_of_joining computes joining relational scalar]
  refine .node (below.append (.cons last .nil)) (.of_logical computes fun _ => ?_)
  refine ⟨inputs.map Sense.scope, condition.scope, by simp, ?_, scalar, ?_⟩
  · intro scope member
    obtain ⟨input, inputIn, rfl⟩ := List.mem_map.1 member
    exact relational input inputIn
  · exact List.pairwise_map.2 apart

/-- **A join of proposals under a conjunction of some predicates.** -/
theorem Means.joinOf {conjuncts : List GroupId} (computes : operator.logical? = some logical)
    (joining : logical.isJoining = true) (below : MeanAll I memo sources inputs)
    (relational : ∀ input ∈ inputs, input.scope.isScalar = false)
    (predicates : ∀ conjunct ∈ conjuncts, memo.IsPredicate I conjunct)
    (apart : inputs.Pairwise Apart) :
    Means I memo (.node operator (sources ++ [.conjunction conjuncts]))
      (I.joined inputs (memo.senses I conjuncts)) := by
  obtain ⟨condition, last, scalar, alike⟩ := conjunction_means predicates
  have same : I.joined inputs [condition] = I.joined inputs (memo.senses I conjuncts) :=
    joined_congr alike
  exact same ▸ Means.join computes joining below last relational scalar apart

end Proposed

end Cascades.Memo
