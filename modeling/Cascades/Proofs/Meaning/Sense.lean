/-
**The meaning of operators.**

A relation is a bag of rows and a scalar a value, both in an environment that holds the columns taken
from outside. Selections and inner joins keep those rows of the product of their inputs on which the
predicate is true, and a physical operator means what the logical one does. What else operators mean,
and what tables hold, is left to an interpretation.

* `Sense`: what an expression means; its rows have the columns of its scope only, and its value
  depends on the columns that it uses only;
* `Interpretation`: a database, and the meaning of all other operators;
* `Interpretation.sense`: the meaning of an operator over inputs;
* `sense_congr`: operators that a memo takes for equal mean the same.
-/

import Cascades.Proofs.Meaning.Row
import Cascades.Proofs.Meaning.Scope

namespace Cascades

/-- What an expression means in an environment: rows if it is a relation, a value if it is a
scalar. -/
structure Sense (V : Type) where
  scope : Scope
  rows : Row V → Bag V
  value : Row V → Option V
  within : ∀ environment, (rows environment).Within scope.columns
  value_congr : ∀ {environment other : Row V},
    (∀ column, column ∈ scope.free → environment column = other column) →
      value environment = value other

/-- What tables hold and what operators mean. Projections, aggregations, limits and joins that are
not inner joins are any functions of their inputs. -/
structure Interpretation (V : Type) where
  /-- The rows of a table with names for its columns. -/
  table : Table → List Column → Bag V
  /-- The rows of other logical operators over inputs. -/
  relation : LogicalOp → List (Sense V) → Row V → Bag V
  /-- The value of a scalar operator over inputs. -/
  scalar : ScalarOp → List (Sense V) → Row V → V
  /-- Whether a value is the truth value TRUE. -/
  isTrue : V → Prop
  true_iff : ∀ {inputs environment}, isTrue (scalar .and inputs environment) ↔
    ∀ input ∈ inputs, ∃ value, input.value environment = some value ∧ isTrue value
  true_truth : ∀ {inputs environment}, isTrue (scalar (.constant (.bool true)) inputs environment)
  /-- Constants that are equal mean the same. -/
  scalar_congr : ∀ {first second : ScalarOp}, (first == second) = true →
    scalar first = scalar second

variable {V : Type}

namespace Sense

/-- The sense of an expression without rows and without a value. -/
def nothing : Sense V where
  scope := ⟨false, .empty, .empty⟩
  rows _ := 0
  value _ := none
  within _ := fun _ member => absurd member (Multiset.notMem_zero _)
  value_congr _ := rfl

theorem ext {first second : Sense V} (scopes : first.scope = second.scope)
    (rows : first.rows = second.rows) (values : first.value = second.value) : first = second := by
  cases first
  cases second
  simp_all

/-- The relations among some inputs. -/
def relations (inputs : List (Sense V)) : List (Sense V) :=
  inputs.filter fun input => !input.scope.isScalar

/-- The scalars among some inputs. -/
def scalars (inputs : List (Sense V)) : List (Sense V) :=
  inputs.filter fun input => input.scope.isScalar

theorem map_relations (inputs : List (Sense V)) :
    (relations inputs).map scope = Scope.relations (inputs.map scope) := by
  simp [relations, Scope.relations, List.filter_map, Function.comp_def]

theorem map_scalars (inputs : List (Sense V)) :
    (scalars inputs).map scope = Scope.scalars (inputs.map scope) := by
  simp [scalars, Scope.scalars, List.filter_map, Function.comp_def]

end Sense

namespace Interpretation

variable (I : Interpretation V)

/-- Whether a predicate is TRUE in an environment. -/
def Holds (predicate : Sense V) (environment : Row V) : Prop :=
  ∃ value, predicate.value environment = some value ∧ I.isTrue value

theorem Holds.congr {predicate : Sense V} {environment other : Row V}
    (same : ∀ column, column ∈ predicate.scope.free → environment column = other column) :
    I.Holds predicate environment ↔ I.Holds predicate other := by
  unfold Holds
  rw [predicate.value_congr same]

/-! ### Inner joins -/

/-- Every row of some relations put together. -/
def product (relations : List (Sense V)) (environment : Row V) : Bag V :=
  Bag.crossAll (relations.map fun relation => relation.rows environment)

theorem product_within (relations : List (Sense V)) (environment : Row V) :
    (product relations environment).Within
      (SortedSet.empty.addAll (relations.map fun relation => relation.scope.columns)) := by
  induction relations with
  | nil =>
    intro row member column _
    rw [product, List.map_nil, Bag.crossAll_nil, Multiset.mem_singleton] at member
    rw [member]
    rfl
  | cons relation relations ih =>
    intro row member column outside
    rw [SortedSet.mem_addAll, List.map_cons] at outside
    simp only [List.mem_cons, exists_eq_or_imp, not_or] at outside
    refine Bag.cross_within (relation.within environment) ih row member column outside.2.1 ?_
    rw [SortedSet.mem_addAll]
    exact fun inside => inside.elim (SortedSet.not_mem_empty column) outside.2.2

/-- The rows of the product of some relations on which some conditions are true. -/
noncomputable def joined (relations conditions : List (Sense V)) : Sense V where
  scope := Scope.joined (relations.map Sense.scope) (conditions.map Sense.scope)
  rows environment := (product relations environment).keep fun row =>
    ∀ condition ∈ conditions, I.Holds condition (row.above environment)
  value _ := none
  within environment row member column outside := by
    refine product_within relations environment row (Bag.mem_keep.1 member).1 column ?_
    simpa [Scope.joined] using outside
  value_congr _ := rfl

/-! ### All operators -/

/-- The rows of a logical operator that is not an inner join. -/
def otherRows (operator : LogicalOp) (inputs : List (Sense V)) (environment : Row V) : Bag V :=
  match operator with
  | .get table columns => I.table table columns
  | operator => I.relation operator inputs environment

/-- The sense of a logical operator over inputs. -/
noncomputable def ofLogical (operator : LogicalOp) (inputs : List (Sense V)) : Sense V :=
  if operator.isJoining then I.joined (Sense.relations inputs) (Sense.scalars inputs)
  else
    let scope := Scope.ofLogical operator (inputs.map Sense.scope)
    { scope
      rows environment :=
        (I.otherRows operator inputs environment).map fun row => row.restrict scope.columns
      value _ := none
      within environment row member := by
        obtain ⟨other, _, rfl⟩ := Multiset.mem_map.1 member
        exact Row.restrict_within
      value_congr _ := rfl }

/-- The sense of a scalar operator over inputs. -/
def ofScalar (operator : ScalarOp) (inputs : List (Sense V)) : Sense V :=
  let scope := Scope.ofScalar operator (inputs.map Sense.scope)
  { scope
    rows _ := 0
    value environment := some (I.scalar operator inputs (environment.restrict scope.free))
    within _ := fun _ member => absurd member (Multiset.notMem_zero _)
    value_congr same := by rw [Row.restrict_congr same] }

/-- **The sense of an operator over inputs.** -/
noncomputable def sense : Operator → List (Sense V) → Sense V
  | .logical operator => I.ofLogical operator
  | .physical operator => I.ofLogical operator.logical
  | .scalar operator => I.ofScalar operator

variable {I} {operator : Operator} {inputs : List (Sense V)}

theorem sense_of_logical {logical : LogicalOp} (computes : operator.logical? = some logical) :
    I.sense operator inputs = I.ofLogical logical inputs := by
  cases operator with
  | logical operator =>
    cases computes
    rfl
  | physical operator =>
    cases computes
    rfl
  | scalar operator => cases computes

theorem scope_ofLogical {logical : LogicalOp} :
    (I.ofLogical logical inputs).scope = Scope.ofLogical logical (inputs.map Sense.scope) := by
  unfold ofLogical
  by_cases joining : logical.isJoining = true
  · rw [if_pos joining, Scope.ofLogical_of_joining joining, ← Sense.map_relations,
      ← Sense.map_scalars]
    rfl
  · rw [if_neg joining]

/-- The scope of an expression follows from the scopes of its inputs, whatever is interpreted. -/
theorem scope_sense : (I.sense operator inputs).scope = Scope.of operator (inputs.map Sense.scope) := by
  cases operator with
  | logical operator => exact scope_ofLogical
  | physical operator => exact scope_ofLogical
  | scalar operator => rfl

theorem isScalar_sense : (I.sense operator inputs).scope.isScalar = operator.isScalar := by
  rw [scope_sense]
  cases operator <;> rfl

/-- **Equal operators mean the same.** -/
theorem sense_congr {other : Operator} (equal : (operator == other) = true) :
    I.sense operator inputs = I.sense other inputs := by
  rcases Operator.beq_iff.1 equal with rfl | ⟨value, last, rfl, rfl, same⟩
  · rfl
  · have scalars : I.scalar (.constant value) = I.scalar (.constant last) := I.scalar_congr same
    refine Sense.ext rfl rfl ?_
    show (fun environment => some (I.scalar _ _ _)) = fun environment => some (I.scalar _ _ _)
    rw [scalars]
    rfl

/-! ### Conjunctions -/

/-- A conjunction uses what its inputs use. -/
theorem mem_free_and {column : ColumnId} :
    column ∈ (I.sense (.scalar .and) inputs).scope.free ↔
      ∃ input ∈ inputs, column ∈ input.scope.free := by
  have scope : (I.sense (.scalar .and) inputs).scope.free =
      (SortedSet.empty.addAll ((Scope.scalars (inputs.map Sense.scope)).map Scope.free)).addAll
        ((Scope.relations (inputs.map Sense.scope)).map Scope.free) := rfl
  rw [scope, ← Sense.map_scalars, ← Sense.map_relations]
  simp only [SortedSet.mem_addAll, SortedSet.not_mem_empty, false_or, List.map_map, List.mem_map,
    Sense.scalars, Sense.relations, List.mem_filter, Function.comp_apply, exists_exists_and_eq_and]
  constructor
  · rintro (⟨input, ⟨member, _⟩, used⟩ | ⟨input, ⟨member, _⟩, used⟩) <;>
      exact ⟨input, member, used⟩
  · rintro ⟨input, member, used⟩
    cases family : input.scope.isScalar with
    | true => exact Or.inl ⟨input, ⟨member, family⟩, used⟩
    | false => exact Or.inr ⟨input, ⟨member, by simp [family]⟩, used⟩

/-- A conjunction is TRUE where all its inputs are. -/
theorem holds_and {environment : Row V} :
    I.Holds (I.sense (.scalar .and) inputs) environment ↔
      ∀ input ∈ inputs, I.Holds input environment := by
  have restricted : ∀ input ∈ inputs, (I.Holds input
      (environment.restrict (I.sense (.scalar .and) inputs).scope.free) ↔
        I.Holds input environment) := by
    intro input member
    refine Holds.congr I fun column used => ?_
    simp only [Row.restrict, if_pos (mem_free_and.2 ⟨input, member, used⟩)]
  have unfolded : I.Holds (I.sense (.scalar .and) inputs) environment ↔
      ∀ input ∈ inputs, I.Holds input
        (environment.restrict (I.sense (.scalar .and) inputs).scope.free) := by
    constructor
    · rintro ⟨_, same, holds⟩
      cases same
      exact I.true_iff.1 holds
    · exact fun holds => ⟨_, rfl, I.true_iff.2 holds⟩
  rw [unfolded]
  exact forall₂_congr restricted

theorem holds_truth {environment : Row V} :
    I.Holds (I.sense (.scalar (.constant (.bool true))) inputs) environment :=
  ⟨_, rfl, I.true_truth⟩

end Interpretation

end Cascades
