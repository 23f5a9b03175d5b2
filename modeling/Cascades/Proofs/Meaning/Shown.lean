/-
**What rows show of the rows below them.**

A row of a join holds a row of each input, unless the input is filled up with NULL or only asked for a
match; a row of a projection holds a row of its input, and a row of an aggregation the keys of one. So
what is known of the values of the inner row is known of those of the outer one.

* `Sense.Shows`: every row of a relation has the values of some row of another one in some columns;
* `shows_source`: inner joins and selections; `shows_left`, `shows_right`: joins that fill up one side;
* `shows_projected`, `shows_limited`, `shows_keys`: the other operators.
-/

import Cascades.Proofs.Meaning.Joined
import Cascades.Proofs.Meaning.Regular
import Cascades.Proofs.Meaning.Standard

namespace Cascades

open Interpretation

/-- The columns that a relation makes or takes from outside. -/
def Scope.Involves (scope : Scope) (column : ColumnId) : Prop :=
  column ∈ scope.columns ∨ column ∈ scope.free

/-- **Every row of a relation has the values of some row of another one** in some columns, both in
front of the environment. The columns are among those that the relation involves. -/
structure Sense.Shows (whole part : Sense Value) (columns : ColumnId → Prop) : Prop where
  involved : ∀ column, columns column → whole.scope.Involves column
  rows : ∀ environment, ∀ row ∈ whole.rows environment, ∃ inner ∈ part.rows environment,
    ∀ column, columns column → (row.above environment) column = (inner.above environment) column

/-! ### Rows among others -/

namespace Row

variable {row other environment : Row Value} {columns made others : ColumnSet} {column : ColumnId}

/-- A row with another one behind it shows its values in the columns that the other one lacks. -/
theorem restrict_above_apply (within : row.Within columns) (kept : ∀ column, column ∈ columns →
    column ∈ made) (beside : other.Within others) (outside : ¬ column ∈ others) :
    (((row.above other).restrict made).above environment) column = (row.above environment) column := by
  have missing := beside column outside
  by_cases inside : column ∈ made
  · simp [above, restrict, inside, missing]
  · have none := within column fun there => inside (kept column there)
    simp [above, restrict, inside, none]

/-- A row with another one in front of it, too. -/
theorem restrict_below_apply (within : row.Within columns) (kept : ∀ column, column ∈ columns →
    column ∈ made) (beside : other.Within others) (outside : ¬ column ∈ others) :
    (((other.above row).restrict made).above environment) column = (row.above environment) column := by
  have missing := beside column outside
  by_cases inside : column ∈ made
  · simp [above, restrict, inside, missing]
  · have none := within column fun there => inside (kept column there)
    simp [above, restrict, inside, none]

end Row

namespace Interpretation

variable {I : Interpretation Value}

/-! ### Inner joins -/

section Inner

variable {relations conditions : List (Sense Value)} {relation : Sense Value}

/-- A row that is put together from rows of apart relations shows the row of each. -/
theorem exists_shown {environment : Row Value} (apart : relations.Pairwise Apart)
    (member : relation ∈ relations) :
    ∀ row ∈ product relations environment, ∃ inner ∈ relation.rows environment,
      ∀ column, relation.scope.Involves column →
        (row.above environment) column = (inner.above environment) column := by
  induction relations with
  | nil => cases member
  | cons head tail ih =>
    intro row among
    obtain ⟨one, oneIn, other, otherIn, rfl⟩ := Bag.mem_cross.1 among
    obtain ⟨fromHead, fromTail⟩ := List.pairwise_cons.1 apart
    rcases List.mem_cons.1 member with rfl | member
    · refine ⟨one, oneIn, fun column involved => ?_⟩
      refine Row.above_above_apply (product_within tail environment other otherIn) fun inside => ?_
      obtain ⟨_, listed, made⟩ := (SortedSet.mem_addAll.1 inside).resolve_left
        (SortedSet.not_mem_empty column)
      obtain ⟨next, nextIn, rfl⟩ := List.mem_map.1 listed
      exact involved.elim (fun here => (fromHead next nextIn).columns column here made)
        fun used => (fromHead next nextIn).left column used made
    · obtain ⟨inner, innerIn, same⟩ := ih fromTail member other otherIn
      refine ⟨inner, innerIn, fun column involved => ?_⟩
      have outside : ¬ column ∈ head.scope.columns := fun made => involved.elim
        (fun there => (fromHead relation member).columns column made there)
        fun used => (fromHead relation member).right column used made
      rw [← same column involved]
      simp [Row.above, head.within environment one oneIn column outside]

/-- **An inner join shows the rows of its relations.** -/
theorem shows_source (apart : relations.Pairwise Apart) (member : relation ∈ relations) :
    (I.joined relations conditions).Shows relation relation.scope.Involves where
  involved column involved := by
    have listed : relation.scope ∈ relations.map Sense.scope := List.mem_map.2 ⟨_, member, rfl⟩
    rcases involved with made | used
    · exact Or.inl (Scope.mem_columns_joined.2 ⟨_, listed, made⟩)
    · by_cases made : ∃ input ∈ relations.map Sense.scope, column ∈ input.columns
      · exact Or.inl (Scope.mem_columns_joined.2 made)
      · exact Or.inr (Scope.mem_free_joined.2 ⟨Or.inr ⟨_, listed, used⟩, made⟩)
  rows environment row among := exists_shown apart member row (Bag.mem_keep.1 among).1

end Inner

/-! ### Other operators -/

section Other

variable {operator : LogicalOp} {inputs : List (Sense Value)} {left right predicate input list : Sense Value}
  {type : JoinType} {environment row : Row Value}

/-- A row of an operator that is not an inner join. -/
theorem mem_rows_ofLogical (other : operator.isJoining = false) :
    row ∈ (I.ofLogical operator inputs).rows environment ↔
      ∃ before ∈ I.otherRows operator inputs environment,
        before.restrict (Scope.output (inputs.map Sense.scope) operator) = row := by
  unfold ofLogical
  rw [if_neg (by simp [other])]
  exact Multiset.mem_map

theorem columns_ofLogical : (I.ofLogical operator inputs).scope.columns =
    Scope.output (inputs.map Sense.scope) operator := by
  rw [scope_ofLogical]
  rfl

/-- What an input involves, the operator makes or takes from outside, if it keeps the columns. -/
theorem involved_ofLogical (among : input ∈ inputs) (relation : input.scope.isScalar = false)
    (kept : ∀ column, column ∈ input.scope.columns →
      column ∈ Scope.output (inputs.map Sense.scope) operator)
    (made : ∀ column, (∃ input ∈ inputs.map Sense.scope, input.isScalar = false ∧
        column ∈ input.columns) → ¬ column ∈ Scope.output (inputs.map Sense.scope) operator →
          ¬ column ∈ input.scope.free) :
    ∀ column, input.scope.Involves column →
      (I.ofLogical operator inputs).scope.Involves column := by
  intro column involved
  rw [Scope.Involves, columns_ofLogical, scope_ofLogical]
  by_cases inside : column ∈ Scope.output (inputs.map Sense.scope) operator
  · exact Or.inl inside
  · have used := involved.resolve_left fun here => inside (kept column here)
    refine Or.inr (Scope.mem_free_ofLogical.2 ⟨Or.inr ⟨_, List.mem_map.2 ⟨_, among, rfl⟩, relation,
      used⟩, fun shown => made column shown inside used⟩)

end Other

/-! ### Joins that are not inner joins -/

section Outer

variable {left right predicate : Sense Value} {type : JoinType} {environment row : Row Value}

/-- Every row of a left, semi or anti join holds a left row and has nothing else but right columns. -/
theorem exists_left (keeps : type = .left ∨ type = .semi ∨ type = .anti)
    (member : row ∈ I.joinRows type left right predicate environment) :
    ∃ inner ∈ left.rows environment, ∃ other : Row Value, other.Within right.scope.columns ∧
      row = inner.above other := by
  rcases keeps with rfl | rfl | rfl
  · rcases Multiset.mem_add.1 member with pair | lonely
    · obtain ⟨inner, here, other, there, rfl⟩ := Bag.mem_cross.1 (Bag.mem_keep.1 pair).1
      exact ⟨inner, here, other, right.within environment other there, rfl⟩
    · obtain ⟨inner, here, rfl⟩ := Multiset.mem_map.1 lonely
      exact ⟨inner, (Bag.mem_keep.1 here).1, _, Row.nulls_within, rfl⟩
  · exact ⟨row, (Bag.mem_keep.1 member).1, .empty, fun _ _ => rfl, Row.above_empty.symm⟩
  · exact ⟨row, (Bag.mem_keep.1 member).1, .empty, fun _ _ => rfl, Row.above_empty.symm⟩

/-- Every row of a right join holds a right row and has nothing else but left columns. -/
theorem exists_right (member : row ∈ I.joinRows .right left right predicate environment) :
    ∃ inner ∈ right.rows environment, ∃ other : Row Value, other.Within left.scope.columns ∧
      row = other.above inner := by
  rcases Multiset.mem_add.1 member with pair | lonely
  · obtain ⟨other, there, inner, here, rfl⟩ := Bag.mem_cross.1 (Bag.mem_keep.1 pair).1
    exact ⟨inner, here, other, left.within environment other there, rfl⟩
  · obtain ⟨inner, here, rfl⟩ := Multiset.mem_map.1 lonely
    exact ⟨inner, (Bag.mem_keep.1 here).1, _, Row.nulls_within, rfl⟩

variable (standard : I.Standard) (leftIs : left.scope.isScalar = false)
  (rightIs : right.scope.isScalar = false) (predicateIs : predicate.scope.isScalar = true)
  (apart : left.scope.Apart right.scope)
include standard leftIs rightIs predicateIs apart

omit rightIs in
/-- **A left, semi or anti join shows the left rows.** -/
theorem shows_left (keeps : type = .left ∨ type = .semi ∨ type = .anti) :
    (I.ofLogical (.join type) [left, right, predicate]).Shows left left.scope.Involves := by
  have outer : type.isInner = false := by rcases keeps with rfl | rfl | rfl <;> rfl
  have kept : ∀ column, column ∈ left.scope.columns →
      column ∈ Scope.output ([left, right, predicate].map Sense.scope) (.join type) := by
    intro column made
    rcases keeps with rfl | rfl | rfl <;> simp [Scope.output, Scope.relations, leftIs, made]
  refine ⟨involved_ofLogical List.mem_cons_self leftIs kept ?_, fun environment row member => ?_⟩
  · rintro column ⟨input, listed, relation, made⟩ missing used
    simp only [List.map_cons, List.map_nil, List.mem_cons, List.not_mem_nil, or_false] at listed
    rcases listed with rfl | rfl | rfl
    · exact missing (kept column made)
    · exact apart.left column used made
    · rw [predicateIs] at relation
      cases relation
  · obtain ⟨before, among, rfl⟩ :=
      (mem_rows_ofLogical (show (LogicalOp.join type).isJoining = false from outer)).1 member
    have joined : before ∈ I.relation (.join type) [left, right, predicate] environment := among
    rw [standard.join outer] at joined
    obtain ⟨inner, here, other, beside, rfl⟩ := exists_left keeps joined
    refine ⟨inner, here, fun column involved => ?_⟩
    refine Row.restrict_above_apply (left.within environment inner here) kept beside ?_
    exact involved.elim (apart.columns column) (apart.left column)

/-- **A right join shows the right rows.** -/
theorem shows_right :
    (I.ofLogical (.join .right) [left, right, predicate]).Shows right right.scope.Involves := by
  have kept : ∀ column, column ∈ left.scope.columns ∨ column ∈ right.scope.columns →
      column ∈ Scope.output ([left, right, predicate].map Sense.scope) (.join .right) := by
    rintro column (made | made) <;> simp [Scope.output, Scope.relations, leftIs, rightIs, made]
  refine ⟨involved_ofLogical (List.mem_cons_of_mem _ List.mem_cons_self) rightIs
    (fun column made => kept column (Or.inr made)) ?_, fun environment row member => ?_⟩
  · rintro column ⟨input, listed, relation, made⟩ missing used
    simp only [List.map_cons, List.map_nil, List.mem_cons, List.not_mem_nil, or_false] at listed
    rcases listed with rfl | rfl | rfl
    · exact missing (kept column (Or.inl made))
    · exact missing (kept column (Or.inr made))
    · rw [predicateIs] at relation
      cases relation
  · obtain ⟨before, among, rfl⟩ := (mem_rows_ofLogical rfl).1 member
    have joined : before ∈ I.relation (.join .right) [left, right, predicate] environment := among
    rw [standard.join rfl] at joined
    obtain ⟨inner, here, other, beside, rfl⟩ := exists_right joined
    refine ⟨inner, here, fun column involved => ?_⟩
    refine Row.restrict_below_apply (right.within environment inner here)
      (fun column made => kept column (Or.inr made)) beside fun made => ?_
    exact involved.elim (fun there => apart.columns column made there) fun used =>
      apart.right column used made

end Outer

/-! ### Operators over one relation -/

section Single

variable {input list : Sense Value} {operator : LogicalOp} {inputs : List (Sense Value)}

/-- An operator over one relation whose rows hold a row of the relation each, and else only columns
that the relation does not involve. -/
theorem shows_single (relation : input.scope.isScalar = false) (among : input ∈ inputs)
    (only : ∀ other ∈ inputs, other.scope.isScalar = false → other = input)
    (kept : ∀ column, column ∈ input.scope.columns →
      column ∈ Scope.output (inputs.map Sense.scope) operator)
    (other : operator.isJoining = false) {others : ColumnSet}
    (new : ∀ column, input.scope.Involves column → ¬ column ∈ others)
    (rows : ∀ environment, ∀ row ∈ I.otherRows operator inputs environment,
      ∃ inner ∈ input.rows environment, ∃ beside : Row Value, beside.Within others ∧
        row = inner.above beside) :
    (I.ofLogical operator inputs).Shows input input.scope.Involves := by
  refine ⟨involved_ofLogical among relation kept ?_, fun environment row member => ?_⟩
  · rintro column ⟨scope, listed, family, made⟩ missing _
    obtain ⟨sense, senseIn, rfl⟩ := List.mem_map.1 listed
    exact missing (kept column (only sense senseIn family ▸ made))
  · obtain ⟨before, given, rfl⟩ := (mem_rows_ofLogical other).1 member
    obtain ⟨inner, here, beside, within, rfl⟩ := rows environment before given
    exact ⟨inner, here, fun column involved => Row.restrict_above_apply
      (input.within environment inner here) kept within (new column involved)⟩

variable (standard : I.Standard) (relation : input.scope.isScalar = false)
include standard relation

/-- **A projection shows the rows of its input.** -/
theorem shows_projected (listIs : list.scope.isScalar = true)
    (new : ∀ column, input.scope.Involves column → ¬ column ∈ list.scope.columns) :
    (I.ofLogical .project [input, list]).Shows input input.scope.Involves := by
  refine shows_single relation List.mem_cons_self ?_ ?_ rfl new fun environment row member => ?_
  · intro other listed family
    simp only [List.mem_cons, List.not_mem_nil, or_false] at listed
    rcases listed with rfl | rfl
    · rfl
    · rw [listIs] at family
      cases family
  · intro column made
    simp [Scope.output, made]
  · obtain ⟨results, within, shape⟩ := @Standard.project I standard input list environment
    have given : row ∈ I.relation .project [input, list] environment := member
    rw [shape, Multiset.mem_bind] at given
    obtain ⟨inner, here, given⟩ := given
    obtain ⟨result, listed, rfl⟩ := Multiset.mem_map.1 given
    exact ⟨inner, here, result, within inner result listed, rfl⟩

/-- **A limit shows the rows of its input.** -/
theorem shows_limited {offset count : Nat} :
    (I.ofLogical (.limit offset count) [input]).Shows input input.scope.Involves := by
  refine shows_single relation List.mem_cons_self ?_ ?_ rfl
    (fun column _ => SortedSet.not_mem_empty column) fun environment row member => ?_
  · exact fun other listed _ => List.mem_singleton.1 listed
  · intro column made
    simp [Scope.output, Scope.relations, relation, made]
  · exact ⟨row, Multiset.mem_of_le standard.limit.1 member, .empty, fun _ _ => rfl,
      Row.above_empty.symm⟩

omit relation in
/-- **An aggregation shows the keys of the rows of its input.** -/
theorem shows_keys {keys : List Column} (some : keys ≠ [])
    (new : ∀ column, column ∈ list.scope.columns → ∀ key ∈ keys, key.id ≠ column) :
    (I.ofLogical (.aggregate keys) [input, list]).Shows input fun column =>
      column ∈ SortedSet.ofList (keys.map Column.id) := by
  have kept : ∀ column, column ∈ SortedSet.ofList (keys.map Column.id) →
      column ∈ Scope.output ([input, list].map Sense.scope) (.aggregate keys) := by
    intro column key
    exact SortedSet.mem_addAll.2 (Or.inl key)
  refine ⟨fun column key => Or.inl (columns_ofLogical ▸ kept column key),
    fun environment row member => ?_⟩
  obtain ⟨before, given, rfl⟩ := (mem_rows_ofLogical rfl).1 member
  obtain ⟨chosen, results, represents, within, shape⟩ :=
    @Standard.aggregate I standard keys input list environment some
  have made : before ∈ I.relation (.aggregate keys) [input, list] environment := given
  rw [shape] at made
  obtain ⟨inner, listed, rfl⟩ := List.mem_map.1 (Multiset.mem_coe.1 made)
  refine ⟨inner, Multiset.mem_of_le represents.among (Multiset.mem_coe.2 listed),
    fun column key => ?_⟩
  have missing : results inner column = none := by
    refine within inner column fun made => ?_
    obtain ⟨named, there, rfl⟩ := List.mem_map.1 (SortedSet.mem_ofList.1 key)
    exact new _ made named there rfl
  simp only [Row.above, Row.restrict, if_pos key, if_pos (kept column key), missing, Option.or_none]
  cases inner column <;> simp

end Single

end Interpretation

end Cascades
