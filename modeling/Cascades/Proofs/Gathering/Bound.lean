/-
**How far a memo can be rearranged.**

What groups hold comes from the groups that there were at first, and no group holds more of them than
some group did. So there are finitely many conjunctions; a relation is as it was, or it is a join of two
relations that hold less than it does; and every expression that is added is such a conjunction, a
join, or a selection. Counting all of them bounds the memo by what it was at first.

* `chains`, `mem_chains_iff`: lists of groups up to a length;
* `Memo.width`, `mostScalars`, `mostRelations`, `mostGroups`, `mostExprs`: bounds from the memo at first;
* `Rearranged.card_scalars_le`, `Rearranged.card_relations_le`: the groups of a rearranged memo;
* `Rearranged.groups_le`, `Rearranged.exprs_le`: all of them, and the expressions.
-/

import Cascades.Proofs.Gathering.Counting
import Mathlib.Data.Finset.NAry
import Mathlib.Data.Finset.Prod
import Mathlib.Order.Lattice.Nat

namespace Cascades

/-! ### Lists of groups -/

/-- The lists of at most some length over the groups below a number. -/
def chains (groups : Nat) : (length : Nat) → Finset (List GroupId)
  | 0 => {[]}
  | length + 1 => insert [] (Finset.image₂ List.cons (Finset.range groups) (chains groups length))

theorem mem_chains_iff {groups : Nat} : ∀ {length : Nat} {ids : List GroupId},
    ids ∈ chains groups length ↔ ids.length ≤ length ∧ ∀ id ∈ ids, id < groups := by
  intro length
  induction length with
  | zero =>
    intro ids
    rw [chains, Finset.mem_singleton]
    constructor
    · rintro rfl
      exact ⟨le_rfl, nofun⟩
    · rintro ⟨none, _⟩
      exact List.length_eq_zero_iff.1 (Nat.le_zero.1 none)
  | succ length ih =>
    intro ids
    rw [chains, Finset.mem_insert, Finset.mem_image₂]
    cases ids with
    | nil => simp
    | cons id ids =>
      constructor
      · rintro (none | ⟨_, below, _, among, same⟩)
        · cases none
        · cases same
          obtain ⟨short, each⟩ := ih.1 among
          exact ⟨Nat.succ_le_succ short, List.forall_mem_cons.2 ⟨Finset.mem_range.1 below, each⟩⟩
      · rintro ⟨short, each⟩
        obtain ⟨below, each⟩ := List.forall_mem_cons.1 each
        exact Or.inr ⟨id, Finset.mem_range.2 below, ids,
          ih.2 ⟨Nat.le_of_succ_le_succ short, each⟩, rfl⟩

/-- The number of lists of at most some length over some groups. -/
def chainCount (groups : Nat) : (length : Nat) → Nat
  | 0 => 1
  | length + 1 => groups * chainCount groups length + 1

theorem card_chains_le {groups : Nat} (length : Nat) :
    (chains groups length).card ≤ chainCount groups length := by
  induction length with
  | zero => exact le_rfl
  | succ length ih =>
    refine (Finset.card_insert_le _ _).trans (Nat.succ_le_succ ?_)
    refine (Finset.card_image₂_le _ _ _).trans ?_
    rw [Finset.card_range]
    exact Nat.mul_le_mul_left groups ih

/-- A bound on the relations that hold at most some number of groups: those that were there, and the
joins, of two kinds, of two that hold less. -/
def relationCount (groups scalars : Nat) : (width : Nat) → Nat
  | 0 => 0
  | width + 1 =>
    let below := relationCount groups scalars width
    groups + 2 * (below * (below * scalars))

namespace Memo

/-! ### Bounds from a memo -/

section Bounds

variable (memo : Memo)

/-- The greatest number of groups that a group holds. -/
def width : Nat := (Finset.range memo.groups.size).sup fun id => (memo.contents id).card

/-- A bound on the conjunctions of what its groups hold. -/
def mostConjunctions : Nat := chainCount memo.groups.size memo.width

/-- A bound on the scalar groups of a memo that this one is rearranged into. -/
def mostScalars : Nat := memo.groups.size + memo.mostConjunctions

/-- A bound on its relations. -/
def mostRelations : Nat := relationCount memo.groups.size memo.mostScalars memo.width

/-- A bound on all its groups. -/
def mostGroups : Nat := memo.mostScalars + memo.mostRelations

/-- A bound on its expressions: those that were there, conjunctions, joins and selections. -/
def mostExprs : Nat :=
  memo.exprs.size + memo.mostConjunctions +
    2 * (memo.mostRelations * (memo.mostRelations * memo.mostScalars)) +
    memo.mostRelations * memo.mostScalars

theorem card_contents_le {id : GroupId} (inside : id < memo.groups.size) :
    (memo.contents id).card ≤ memo.width :=
  Finset.le_sup (f := fun id => (memo.contents id).card) (Finset.mem_range.2 inside)

/-- The number of the expression with a shape. -/
def numberOf (operator : Operator) (children : List GroupId) : ExprId :=
  (memo.lookup operator children).getD 0

/-- The group of the expression with a shape. -/
def groupOf (operator : Operator) (children : List GroupId) : GroupId :=
  ((memo.exprs[memo.numberOf operator children]?).map Expr.group).getD 0

/-- The scalar groups. -/
def scalars : Finset GroupId := (Finset.range memo.groups.size).filter fun id =>
  memo.isScalarGroup id = true

/-- The relations that hold at most some number of groups. -/
def relations (width : Nat) : Finset GroupId := (Finset.range memo.groups.size).filter fun id =>
  memo.isScalarGroup id = false ∧ (memo.contents id).card ≤ width

end Bounds

variable {first memo : Memo} {breadth later : GroupId → Breadth} {id : GroupId} {number : ExprId}
  {expr : Expr}

theorem Linked.numberOf_eq (linked : memo.Linked) (stored : memo.exprs[number]? = some expr) :
    memo.numberOf expr.operator expr.children = number := by
  rw [numberOf, linked.lookup_eq_some_iff.2 ⟨expr, stored, ReflBEq.rfl, rfl⟩, Option.getD_some]

theorem Linked.groupOf_eq (linked : memo.Linked) (stored : memo.exprs[number]? = some expr) :
    memo.groupOf expr.operator expr.children = expr.group := by
  rw [groupOf, linked.numberOf_eq stored, stored, Option.map_some, Option.getD_some]

theorem mem_scalars_iff : id ∈ memo.scalars ↔ memo.Scalar id := by
  rw [scalars, Finset.mem_filter, Finset.mem_range, ← scalar_iff]
  exact and_iff_right_of_imp Scalar.inside

theorem mem_relations_iff {width : Nat} :
    id ∈ memo.relations width ↔ memo.Relational id ∧ (memo.contents id).card ≤ width := by
  rw [relations, Finset.mem_filter, Finset.mem_range, relational_iff, and_assoc]

/-- A relation holds something. -/
theorem Formed.contents_pos (formed : memo.Formed breadth) (relational : memo.Relational id) :
    0 < (memo.contents id).card := by
  obtain ⟨tables, relation⟩ := formed.breadth_of_relational relational
  refine Nat.pos_of_ne_zero fun none => ?_
  have total := formed.tables_eq_contents relational.inside
  rw [Multiset.card_eq_zero.1 none, Multiset.map_zero, Multiset.sum_zero, relation] at total
  exact absurd total (Nat.ne_of_gt (formed.positive relational.inside relation))

/-! ### Counting -/

/-- The joins of two relations that hold at most some number of groups each. -/
def joins (memo : Memo) (width : Nat) : Finset (JoinType × GroupId × GroupId × GroupId) :=
  {.inner, .cross} ×ˢ memo.relations width ×ˢ memo.relations width ×ˢ memo.scalars

theorem card_joins_le {width relations scalars : Nat}
    (low : (memo.relations width).card ≤ relations) (high : memo.scalars.card ≤ scalars) :
    (memo.joins width).card ≤ 2 * (relations * (relations * scalars)) := by
  rw [joins, Finset.card_product, Finset.card_product, Finset.card_product]
  exact Nat.mul_le_mul Finset.card_le_two (Nat.mul_le_mul low (Nat.mul_le_mul low high))

namespace Rearranged

variable (rearranged : Rearranged False first memo)
include rearranged

theorem card_contents_le (inside : id < memo.groups.size) :
    (memo.contents id).card ≤ first.width := by
  obtain ⟨old, there, part⟩ := rearranged.within inside
  exact (Multiset.card_le_card part).trans (first.card_contents_le there)

/-- The first member of a group that was not there at first is additional. -/
theorem added_first (new : first.groups.size ≤ id) (found : memo.firstMember id = .ok expr) :
    memo.Additional False expr ∧ ∃ number : ExprId, memo.exprs[number]? = some expr ∧
      expr.group = id ∧ expr.position = 0 := by
  obtain ⟨group, number, there, place, stored⟩ := firstMember_ok_iff.1 found
  obtain ⟨rfl, _⟩ := rearranged.toValid.of_firstMember found
  rcases rearranged.added stored with before | additional
  · obtain ⟨_, old, _⟩ := rearranged.start.placed before
    exact absurd (lt_of_group old) (Nat.not_lt.2 new)
  · obtain ⟨_, again, _, position⟩ := rearranged.toValid.listed there place
    obtain rfl := Option.some.inj (stored.symm.trans again)
    exact ⟨additional, number, stored, rfl, position⟩

/-- A conjunction of atomic predicates is a list of groups that there were, no longer than what one of
them held. -/
theorem mem_chains (stored : memo.exprs[number]? = some expr)
    (operator : expr.operator = conjoining expr.children)
    (each : ∀ child ∈ expr.children, memo.Atomic child) :
    expr.children ∈ chains first.groups.size first.width := by
  obtain ⟨group, place, _⟩ := rearranged.placed stored
  have held := rearranged.holds number expr stored
  have gathers : expr.operator.gathers = true := operator ▸ gathers_conjoining
  rw [Operator.gather_of_gathers gathers, sum_atomic each] at held
  have inside := lt_of_group place
  refine mem_chains_iff.2 ⟨?_, fun child member => ?_⟩
  · have card := rearranged.card_contents_le inside
    rwa [← held, Multiset.coe_card] at card
  · obtain ⟨old, there, part⟩ := rearranged.within inside
    rw [← held] at part
    exact rearranged.start.contents_inside there child
      (Multiset.mem_of_le part (Multiset.mem_coe.2 member))

/-- **The scalar groups** are those that there were and conjunctions. -/
theorem card_scalars_le : memo.scalars.card ≤ first.mostScalars := by
  have covered : memo.scalars ⊆ Finset.range first.groups.size ∪
      (chains first.groups.size first.width).image fun ids => memo.groupOf (conjoining ids) ids := by
    intro id member
    have scalar := mem_scalars_iff.1 member
    rw [Finset.mem_union, Finset.mem_range, Finset.mem_image]
    refine (Nat.lt_or_ge id first.groups.size).imp_right fun new => ?_
    obtain ⟨expr, found⟩ := rearranged.toValid.exists_firstMember scalar.inside
    obtain ⟨additional, number, stored, rfl, position⟩ := rearranged.added_first new found
    cases additional with
    | conjunction operator each =>
      refine ⟨expr.children, rearranged.mem_chains stored operator each, ?_⟩
      rw [← operator]
      exact rearranged.toLinked.groupOf_eq stored
    | join _ operator =>
      obtain ⟨group, there, family⟩ := scalar
      have same := rearranged.toValid.family stored there
      rw [operator, family] at same
      cases same
    | select later | physical _ later => exact absurd position later
  refine (Finset.card_le_card covered).trans ((Finset.card_union_le _ _).trans ?_)
  rw [Finset.card_range]
  exact Nat.add_le_add_left (Finset.card_image_le.trans (card_chains_le _)) _

variable (formed : memo.Formed breadth)
include formed

/-- A join of two relations holds more than either of them. -/
theorem mem_joins {type : JoinType} {left right predicate : GroupId}
    (stored : memo.exprs[number]? = some expr) (inner : type.isInner = true)
    (operator : expr.operator = .logical (.join type))
    (children : expr.children = [left, right, predicate]) (leftIs : memo.Relational left)
    (rightIs : memo.Relational right) (predicateIs : memo.Scalar predicate) {width : Nat}
    (narrow : (memo.contents expr.group).card ≤ width + 1) :
    (type, left, right, predicate) ∈ memo.joins width := by
  have held := rearranged.holds number expr stored
  have gathers : expr.operator.gathers = true := operator ▸ inner
  rw [Operator.gather_of_gathers gathers, children] at held
  simp only [List.map_cons, List.map_nil, List.sum_cons, List.sum_nil] at held
  rw [← held, Multiset.card_add, Multiset.card_add] at narrow
  have one := formed.contents_pos leftIs
  have two := formed.contents_pos rightIs
  have types : type ∈ ({.inner, .cross} : Finset JoinType) := by
    cases type <;> first | decide | cases inner
  simp only [joins, Finset.mem_product, mem_relations_iff, mem_scalars_iff]
  exact ⟨types, ⟨leftIs, by omega⟩, ⟨rightIs, by omega⟩, predicateIs⟩

/-- **The relations** are those that there were and joins of two that hold less. -/
theorem card_relations_le (width : Nat) :
    (memo.relations width).card ≤ relationCount first.groups.size first.mostScalars width := by
  induction width with
  | zero =>
    refine Nat.le_zero.2 (Finset.card_eq_zero.2 (Finset.eq_empty_of_forall_notMem fun id member => ?_))
    obtain ⟨relational, narrow⟩ := mem_relations_iff.1 member
    exact absurd (formed.contents_pos relational) (Nat.not_lt.2 narrow)
  | succ width ih =>
    have covered : memo.relations (width + 1) ⊆ Finset.range first.groups.size ∪
        (memo.joins width).image fun (type, left, right, predicate) =>
          memo.groupOf (.logical (.join type)) [left, right, predicate] := by
      intro id member
      obtain ⟨relational, narrow⟩ := mem_relations_iff.1 member
      rw [Finset.mem_union, Finset.mem_range, Finset.mem_image]
      refine (Nat.lt_or_ge id first.groups.size).imp_right fun new => ?_
      obtain ⟨expr, found⟩ := rearranged.toValid.exists_firstMember relational.inside
      obtain ⟨additional, number, stored, rfl, position⟩ := rearranged.added_first new found
      cases additional with
      | conjunction operator _ =>
        obtain ⟨group, there, family⟩ := relational
        have same := rearranged.toValid.family stored there
        rw [operator, isScalar_conjoining, family] at same
        cases same
      | @join type left right predicate inner operator children leftIs rightIs predicateIs =>
        refine ⟨(type, left, right, predicate), rearranged.mem_joins formed stored inner operator
          children leftIs rightIs predicateIs narrow, ?_⟩
        simp only [← operator, ← children]
        exact rearranged.toLinked.groupOf_eq stored
      | select later | physical _ later => exact absurd position later
    refine (Finset.card_le_card covered).trans ((Finset.card_union_le _ _).trans ?_)
    rw [Finset.card_range]
    exact Nat.add_le_add_left
      (Finset.card_image_le.trans (card_joins_le ih rearranged.card_scalars_le)) _

/-- **A rearranged memo has no more groups** than the memo at first allows. -/
theorem groups_le : memo.groups.size ≤ first.mostGroups := by
  have covered : Finset.range memo.groups.size ⊆ memo.scalars ∪ memo.relations first.width := by
    intro id member
    have inside := Finset.mem_range.1 member
    rw [Finset.mem_union, mem_scalars_iff, mem_relations_iff, scalar_iff, relational_iff]
    cases memo.isScalarGroup id with
    | true => exact Or.inl rfl
    | false => exact Or.inr ⟨⟨inside, rfl⟩, rearranged.card_contents_le inside⟩
  rw [← Finset.card_range memo.groups.size]
  refine (Finset.card_le_card covered).trans ((Finset.card_union_le _ _).trans ?_)
  exact Nat.add_le_add rearranged.card_scalars_le (rearranged.card_relations_le formed _)

/-- **A rearranged memo has no more expressions** than the memo at first allows. -/
theorem exprs_le : memo.exprs.size ≤ first.mostExprs := by
  have narrow : ∀ {id : GroupId}, memo.Relational id → id ∈ memo.relations first.width :=
    fun relational => mem_relations_iff.2 ⟨relational, rearranged.card_contents_le relational.inside⟩
  have laid : memo.Laid := formed.laid
  have covered : Finset.range memo.exprs.size ⊆ Finset.range first.exprs.size ∪
      ((chains first.groups.size first.width).image fun ids => memo.numberOf (conjoining ids) ids) ∪
      ((memo.joins first.width).image fun (type, left, right, predicate) =>
        memo.numberOf (.logical (.join type)) [left, right, predicate]) ∪
      ((memo.relations first.width ×ˢ memo.scalars).image fun (input, predicate) =>
        memo.numberOf (.logical .select) [input, predicate]) := by
    intro number member
    obtain ⟨expr, stored⟩ : ∃ expr, memo.exprs[number]? = some expr :=
      ⟨_, Array.getElem?_eq_getElem (Finset.mem_range.1 member)⟩
    simp only [Finset.mem_union, Finset.mem_range, Finset.mem_image]
    obtain ⟨group, place, _⟩ := rearranged.placed stored
    rcases rearranged.added stored with before | additional
    · exact Or.inl (Or.inl (Or.inl (lt_of_expr before)))
    cases additional with
    | conjunction operator each =>
      refine Or.inl (Or.inl (Or.inr ⟨expr.children, rearranged.mem_chains stored operator each, ?_⟩))
      rw [← operator]
      exact rearranged.toLinked.numberOf_eq stored
    | @join type left right predicate inner operator children leftIs rightIs predicateIs =>
      have wide := Nat.le_succ_of_le (rearranged.card_contents_le (lt_of_group place))
      refine Or.inl (Or.inr ⟨(type, left, right, predicate), rearranged.mem_joins formed stored inner
        operator children leftIs rightIs predicateIs wide, ?_⟩)
      simp only [← operator, ← children]
      exact rearranged.toLinked.numberOf_eq stored
    | @select input predicate _ operator children =>
      obtain ⟨source, condition, shape, relational, scalar⟩ :=
        laid.logical rearranged.toLinked stored operator
      obtain ⟨rfl, rest⟩ := List.cons.inj (children.symm.trans shape)
      obtain rfl := List.singleton_inj.1 rest
      refine Or.inr ⟨(input, predicate), Finset.mem_product.2
        ⟨narrow relational, mem_scalars_iff.2 scalar⟩, ?_⟩
      simp only [← operator, ← children]
      exact rearranged.toLinked.numberOf_eq stored
    | physical allowed => exact allowed.elim
  have relations : (memo.relations first.width).card ≤ first.mostRelations :=
    rearranged.card_relations_le formed _
  have scalars := rearranged.card_scalars_le
  rw [← Finset.card_range memo.exprs.size]
  refine (Finset.card_le_card covered).trans ((Finset.card_union_le _ _).trans ?_)
  refine Nat.add_le_add ((Finset.card_union_le _ _).trans (Nat.add_le_add
    ((Finset.card_union_le _ _).trans (Nat.add_le_add ?_ ?_)) ?_)) ?_
  · rw [Finset.card_range]
  · exact Finset.card_image_le.trans (card_chains_le _)
  · exact Finset.card_image_le.trans (card_joins_le relations scalars)
  · refine Finset.card_image_le.trans ?_
    rw [Finset.card_product]
    exact Nat.mul_le_mul relations scalars

end Rearranged

end Memo

end Cascades
