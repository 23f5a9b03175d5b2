/-
**Columns in scope.**

The scope of an operator over inputs says which columns it makes and which ones it takes from
outside. It follows from the operator and the scopes of the inputs alone.

* `Scope.of`: the scope of any operator; a physical operator has that of the logical one;
* `mem_free_ofLogical`, `mem_free_ofScalar`: what an operator takes from outside;
* `Scope.Apart`: two inputs of a join that neither share columns nor see each other's;
* `Scope.apart_joined_iff`: when the join of some inputs is apart from another input;
* `Scope.Admissible`: what a well-formed query asks of an operator and the scopes of its inputs.
-/

import Cascades.Operator.Basic
import Cascades.Proofs.Operator
import Mathlib.Data.List.Basic
import Mathlib.Tactic.Tauto

namespace Cascades

/-! ### Unions of many sets -/

/-- A set with the members of some other sets. -/
def SortedSet.addAll {α : Type} [Ord α] [Std.TransOrd α] [Std.LawfulEqOrd α] (start : SortedSet α)
    (sets : List (SortedSet α)) : SortedSet α :=
  sets.foldl SortedSet.union start

@[simp] theorem SortedSet.mem_addAll {α : Type} [Ord α] [Std.TransOrd α] [Std.LawfulEqOrd α]
    {start : SortedSet α} {sets : List (SortedSet α)} {value : α} :
    value ∈ start.addAll sets ↔ value ∈ start ∨ ∃ set ∈ sets, value ∈ set := by
  unfold addAll
  induction sets generalizing start with
  | nil => simp
  | cons head tail ih => simp [ih, or_assoc]

/-! ### What a physical operator computes -/

/-- The logical operator that a physical one implements. -/
def PhysicalOp.logical : PhysicalOp → LogicalOp
  | tableScan table columns => .get table columns
  | filter => .select
  | computeScalar => .project
  | hashJoin type | nestedLoopJoin type => .join type
  | hashAggregate keys => .aggregate keys
  | limit offset count => .limit offset count

/-- What an operator does to relations; a scalar operator gives a value instead. -/
def Operator.logical? : Operator → Option LogicalOp
  | logical operator => some operator
  | physical operator => some operator.logical
  | scalar _ => none

/-- Whether an operator keeps those rows of the product of its inputs on which its predicate is
true. -/
def LogicalOp.isJoining : LogicalOp → Bool
  | select | naryJoin => true
  | join type => type.isInner
  | get .. | project | aggregate _ | limit .. => false

/-- The columns that a logical operator refers to itself. -/
def LogicalOp.uses : LogicalOp → List ColumnId
  | .aggregate keys => keys.map Column.id
  | _ => []

/-- The columns that an operator refers to itself. -/
def Operator.uses : Operator → List ColumnId
  | .scalar (.column column) => [column.id]
  | .scalar _ => []
  | .logical operator => operator.uses
  | .physical operator => operator.logical.uses

/-! ### Scopes -/

/-- The columns that an operator makes, which are those of its rows or those that it defines, and
the columns that it takes from outside. -/
structure Scope where
  isScalar : Bool
  columns : ColumnSet
  free : ColumnSet
  deriving DecidableEq

namespace Scope

/-- The relations among some inputs. -/
def relations (inputs : List Scope) : List Scope := inputs.filter fun input => !input.isScalar

/-- The scalars among some inputs. -/
def scalars (inputs : List Scope) : List Scope := inputs.filter isScalar

/-- The scope of an inner join of any number of relations. -/
def joined (relations conditions : List Scope) : Scope :=
  let available := SortedSet.empty.addAll (relations.map columns)
  let used := SortedSet.empty.addAll (conditions.map free)
  { isScalar := false, columns := available
    free := (used.addAll (relations.map free)).diff available }

/-- The columns of the rows of a logical operator. -/
def output (inputs : List Scope) : LogicalOp → ColumnSet
  | .get _ columns => .ofList (columns.map Column.id)
  | .join .semi | .join .anti => (inputs[0]?.map columns).getD .empty
  | .aggregate keys => (SortedSet.ofList (keys.map Column.id)).addAll ((scalars inputs).map columns)
  | .project => ((inputs[0]?.map columns).getD .empty).addAll ((scalars inputs).map columns)
  | .select | .join _ | .naryJoin | .limit .. =>
    SortedSet.empty.addAll ((relations inputs).map columns)

/-- The scope of a logical operator: it takes from outside what its inputs and its scalars use and
no input makes. -/
def ofLogical (operator : LogicalOp) (inputs : List Scope) : Scope :=
  let keys : ColumnSet :=
    match operator with
    | .aggregate keys => .ofList (keys.map Column.id)
    | _ => .empty
  let used := (keys.addAll ((scalars inputs).map free)).addAll ((relations inputs).map free)
  { isScalar := false, columns := output inputs operator
    free := used.diff (SortedSet.empty.addAll ((relations inputs).map columns)) }

/-- The scope of a scalar operator: a column reference uses its column, a project element defines
its own. -/
def ofScalar (operator : ScalarOp) (inputs : List Scope) : Scope :=
  let defined : ColumnSet :=
    match operator with
    | .projectElement column => SortedSet.empty.insert column.id
    | _ => .empty
  let used : ColumnSet :=
    match operator with
    | .column column => SortedSet.empty.insert column.id
    | _ => .empty
  { isScalar := true, columns := defined.addAll ((scalars inputs).map columns)
    free := (used.addAll ((scalars inputs).map free)).addAll ((relations inputs).map free) }

/-- The scope of an operator over inputs. -/
def of : Operator → List Scope → Scope
  | .logical operator => ofLogical operator
  | .physical operator => ofLogical operator.logical
  | .scalar operator => ofScalar operator

@[ext] theorem ext {first second : Scope} (families : first.isScalar = second.isScalar)
    (columns : ∀ column, column ∈ first.columns ↔ column ∈ second.columns)
    (free : ∀ column, column ∈ first.free ↔ column ∈ second.free) : first = second := by
  cases first
  cases second
  simp only [mk.injEq]
  exact ⟨families, SortedSet.ext columns, SortedSet.ext free⟩

theorem ofLogical_of_joining {operator : LogicalOp} {inputs : List Scope}
    (joining : operator.isJoining = true) :
    ofLogical operator inputs = joined (relations inputs) (scalars inputs) := by
  cases operator with
  | join type => cases type <;> first | rfl | cases joining
  | select | naryJoin => rfl
  | get | project | aggregate | limit => cases joining

theorem mem_free_ofLogical {logical : LogicalOp} {inputs : List Scope} {column : ColumnId} :
    column ∈ (ofLogical logical inputs).free ↔
      ((column ∈ logical.uses ∨ ∃ input ∈ inputs, input.isScalar = true ∧ column ∈ input.free) ∨
        ∃ input ∈ inputs, input.isScalar = false ∧ column ∈ input.free) ∧
      ¬ ∃ input ∈ inputs, input.isScalar = false ∧ column ∈ input.columns := by
  cases logical <;>
    simp [ofLogical, LogicalOp.uses, scalars, relations, and_assoc]

theorem mem_free_ofScalar {scalar : ScalarOp} {inputs : List Scope} {column : ColumnId} :
    column ∈ (ofScalar scalar inputs).free ↔
      column ∈ (Operator.scalar scalar).uses ∨ ∃ input ∈ inputs, column ∈ input.free := by
  have split : (∃ input ∈ inputs, column ∈ input.free) ↔
      (∃ input ∈ inputs, input.isScalar = true ∧ column ∈ input.free) ∨
        ∃ input ∈ inputs, input.isScalar = false ∧ column ∈ input.free := by
    rw [← exists_or]
    refine exists_congr fun input => ?_
    cases input.isScalar <;> simp
  rw [split]
  cases scalar <;> simp [ofScalar, Operator.uses, scalars, relations, and_assoc, or_assoc]

/-! ### Joins -/

variable {inputs conditions : List Scope} {input : Scope} {column : ColumnId}

@[simp] theorem mem_columns_joined :
    column ∈ (joined inputs conditions).columns ↔ ∃ input ∈ inputs, column ∈ input.columns := by
  simp [joined]

@[simp] theorem mem_free_joined :
    column ∈ (joined inputs conditions).free ↔
      ((∃ condition ∈ conditions, column ∈ condition.free) ∨
        ∃ input ∈ inputs, column ∈ input.free) ∧
      ¬ ∃ input ∈ inputs, column ∈ input.columns := by
  simp [joined]

/-- The scope of a join depends on which inputs and conditions there are, not on their order. -/
theorem joined_congr {others again : List Scope}
    (columns : ∀ column, (∃ input ∈ inputs, column ∈ input.columns) ↔
      ∃ input ∈ others, column ∈ input.columns)
    (free : ∀ column, (∃ input ∈ inputs, column ∈ input.free) ↔
      ∃ input ∈ others, column ∈ input.free)
    (used : ∀ column, (∃ condition ∈ conditions, column ∈ condition.free) ↔
      ∃ condition ∈ again, column ∈ condition.free) :
    joined inputs conditions = joined others again := by
  refine Scope.ext rfl ?_ ?_
  · intro column
    rw [mem_columns_joined, mem_columns_joined, columns]
  · intro column
    rw [mem_free_joined, mem_free_joined, columns, free, used]

theorem exists_append {first second : List Scope} {holds : Scope → Prop} :
    (∃ input ∈ first ++ second, holds input) ↔
      (∃ input ∈ first, holds input) ∨ ∃ input ∈ second, holds input := by
  simp only [List.mem_append, or_and_right, exists_or]

/-- A join of a join takes from outside what one join of all inputs takes. -/
theorem joined_joined {others late : List Scope} :
    joined (joined inputs conditions :: others) late =
      joined (inputs ++ others) (conditions ++ late) := by
  refine Scope.ext rfl ?_ ?_
  · intro column
    simp only [mem_columns_joined, List.exists_mem_cons_iff, exists_append]
  · intro column
    have same : ∀ {late early own inner outer made : Prop},
        (late ∨ (early ∨ own) ∧ ¬ inner ∨ outer) ∧ ¬ (inner ∨ made) ↔
          ((early ∨ late) ∨ own ∨ outer) ∧ ¬ (inner ∨ made) := by
      tauto
    simp only [mem_free_joined, mem_columns_joined, List.exists_mem_cons_iff, exists_append]
    exact same

/-- Two inputs of a join share no columns, and neither takes a column of the other from outside. -/
structure Apart (first second : Scope) : Prop where
  columns : ∀ column, column ∈ first.columns → ¬ column ∈ second.columns
  left : ∀ column, column ∈ first.free → ¬ column ∈ second.columns
  right : ∀ column, column ∈ second.free → ¬ column ∈ first.columns

theorem Apart.symm {first second : Scope} (apart : first.Apart second) : second.Apart first where
  columns column there here := apart.columns column here there
  left := apart.right
  right := apart.left

/-- **A join is apart from an input** exactly where its own inputs are and its predicate uses none
of the input's columns. -/
theorem apart_joined_iff :
    (joined inputs conditions).Apart input ↔ (∀ one ∈ inputs, one.Apart input) ∧
      ∀ condition ∈ conditions, ∀ column, column ∈ condition.free → ¬ column ∈ input.columns := by
  constructor
  · intro apart
    -- A column of the input is not one of the join, so the join takes it from outside if it uses it.
    have unused : ∀ column, column ∈ input.columns →
        ¬ ((∃ condition ∈ conditions, column ∈ condition.free) ∨
          ∃ one ∈ inputs, column ∈ one.free) := by
      intro column made used
      refine apart.left column (mem_free_joined.2 ⟨used, fun inside => ?_⟩) made
      exact apart.columns column (mem_columns_joined.2 inside) made
    refine ⟨fun one member => ⟨?_, ?_, ?_⟩, ?_⟩
    · intro column inside
      exact apart.columns column (mem_columns_joined.2 ⟨one, member, inside⟩)
    · intro column used made
      exact unused column made (Or.inr ⟨one, member, used⟩)
    · intro column used inside
      exact apart.right column used (mem_columns_joined.2 ⟨one, member, inside⟩)
    · intro condition member column used made
      exact unused column made (Or.inl ⟨condition, member, used⟩)
  · rintro ⟨each, unused⟩
    refine ⟨?_, ?_, ?_⟩
    · intro column inside
      obtain ⟨one, member, inside⟩ := mem_columns_joined.1 inside
      exact (each one member).columns column inside
    · intro column taken
      rcases (mem_free_joined.1 taken).1 with ⟨condition, member, used⟩ | ⟨one, member, used⟩
      · exact unused condition member column used
      · exact (each one member).left column used
    · intro column used inside
      obtain ⟨one, member, inside⟩ := mem_columns_joined.1 inside
      exact (each one member).right column used inside

/-! ### Well-formed operators -/

/-- Inputs of a selection or an inner join: relations, any two of them apart, and one predicate
behind them. -/
def Joinable (inputs : List Scope) : Prop :=
  ∃ sources predicate, inputs = sources ++ [predicate] ∧
    (∀ source ∈ sources, source.isScalar = false) ∧ predicate.isScalar = true ∧
    sources.Pairwise Apart

/-- What a well-formed query asks of an operator and the scopes of its inputs. -/
structure Admissible (operator : Operator) (inputs : List Scope) : Prop where
  joins : ∀ logical, operator.logical? = some logical → logical.isJoining = true → Joinable inputs
  conjoins : operator = .scalar .and → ∀ input ∈ inputs, input.isScalar = true
  constants : ∀ value, operator = .scalar (.constant value) → inputs = []

/-- A logical or physical operator is admissible if its inputs can be joined where it joins. -/
theorem Admissible.of_logical {operator : Operator} {logical : LogicalOp}
    (computes : operator.logical? = some logical)
    (joins : logical.isJoining = true → Joinable inputs) : Admissible operator inputs where
  joins other same joining := by
    rw [computes] at same
    cases same
    exact joins joining
  conjoins same := by
    subst same
    cases computes
  constants value same := by
    subst same
    cases computes

end Scope

end Cascades
