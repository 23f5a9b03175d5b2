/-
**How many rows operators give.**

A join gives at most as many rows as there are pairs, and an outer join besides them the rows that
match nothing. A limit and an aggregation give no more rows than there are, and a projection as many,
unless a function in its list returns a set.

* `card_joined_le`: inner joins; `card_joinRows_le`: the other types of joins;
* `Query.SetFree`, `Interpretation.ProjectsRows`: project lists without functions that return sets.
-/

import Cascades.Proofs.Meaning.Regular
import Cascades.Proofs.Meaning.Standard

namespace Cascades

/-! ### Bags -/

namespace Bag

variable {V : Type} {first second : Bag V} {test other : Row V → Prop}

theorem card_cross : (cross first second).card = first.card * second.card := by
  simp [cross, Multiset.card_bind]

theorem card_crossAll {bags : List (Bag V)} :
    (crossAll bags).card = (bags.map Multiset.card).prod := by
  induction bags with
  | nil => rfl
  | cons head tail ih => rw [crossAll_cons, card_cross, ih, List.map_cons, List.prod_cons]

theorem card_keep_le : (first.keep test).card ≤ first.card := by
  classical
  exact Multiset.card_le_card (Multiset.filter_le _ _)

/-- A row passes a test or it does not. -/
theorem card_keep_add : (first.keep test).card + (first.keep fun row => ¬ test row).card =
    first.card := by
  rw [← Multiset.card_add]
  unfold keep
  congr 1
  convert Multiset.filter_add_not test first

theorem keep_cons_of_pos {row : Row V} (passes : test row) :
    keep (row ::ₘ first) test = row ::ₘ first.keep test := by
  classical
  exact Multiset.filter_cons_of_pos _ passes

theorem keep_cons_of_neg {row : Row V} (fails : ¬ test row) :
    keep (row ::ₘ first) test = first.keep test := by
  classical
  exact Multiset.filter_cons_of_neg _ fails

theorem card_keep_mono (weaker : ∀ row ∈ first, test row → other row) :
    (first.keep test).card ≤ (first.keep other).card := by
  classical
  refine Multiset.card_le_card (Multiset.le_filter.2 ⟨Multiset.filter_le _ _, fun row member => ?_⟩)
  obtain ⟨inside, passes⟩ := Multiset.mem_filter.1 member
  exact weaker row inside passes

/-- If each row passes a test in the company of few others, then few pairs do. -/
theorem card_keep_cross_le {bound : Nat}
    (few : ∀ row ∈ first, (second.keep fun other => test (row.above other)).card ≤ bound) :
    ((cross first second).keep test).card ≤
      (first.keep fun row => ∃ other ∈ second, test (row.above other)).card * bound := by
  induction first using Multiset.induction with
  | empty => simp [cross, keep]
  | cons row rest ih =>
    have others := ih fun other member => few other (Multiset.mem_cons_of_mem member)
    have here := few row (Multiset.mem_cons_self row rest)
    have split : ((cross (row ::ₘ rest) second).keep test).card =
        (second.keep fun other => test (row.above other)).card +
          ((cross rest second).keep test).card := by
      classical
      unfold cross keep
      rw [Multiset.cons_bind, Multiset.filter_add, Multiset.card_add, Multiset.filter_map,
        Multiset.card_map]
      rfl
    rw [split]
    by_cases some : ∃ other ∈ second, test (row.above other)
    · rw [keep_cons_of_pos some, Multiset.card_cons, Nat.add_mul]
      omega
    · have none : (second.keep fun other => test (row.above other)) = 0 :=
        Multiset.eq_zero_of_forall_notMem fun other member =>
          some ⟨other, mem_keep.1 member⟩
      rw [keep_cons_of_neg some, none, Multiset.card_zero]
      omega

end Bag

namespace Interpretation

/-! ### Joins -/

section Joins

variable (I : Interpretation Value) (left right predicate : Sense Value) (environment : Row Value)

/-- The left rows that match some right one. -/
noncomputable def pairedLeft : Bag Value :=
  (left.rows environment).keep fun row =>
    ∃ other ∈ right.rows environment, I.Matches predicate environment row other

/-- The right rows that match some left one. -/
noncomputable def pairedRight : Bag Value :=
  (right.rows environment).keep fun other =>
    ∃ row ∈ left.rows environment, I.Matches predicate environment row other

theorem card_pairedLeft_add : (I.pairedLeft left right predicate environment).card +
    (I.lonelyLeft left right predicate environment).card = (left.rows environment).card := by
  have lonely : I.lonelyLeft left right predicate environment =
      (left.rows environment).keep fun row =>
        ¬ ∃ other ∈ right.rows environment, I.Matches predicate environment row other :=
    Bag.keep_congr fun row _ => by simp only [not_exists, not_and]
  rw [lonely]
  exact Bag.card_keep_add

theorem card_pairedRight_add : (I.pairedRight left right predicate environment).card +
    (I.lonelyRight left right predicate environment).card = (right.rows environment).card := by
  have lonely : I.lonelyRight left right predicate environment =
      (right.rows environment).keep fun other =>
        ¬ ∃ row ∈ left.rows environment, I.Matches predicate environment row other :=
    Bag.keep_congr fun row _ => by simp only [not_exists, not_and]
  rw [lonely]
  exact Bag.card_keep_add

/-- Pairs are made of rows that match something. -/
theorem card_matched_le : (I.matched left right predicate environment).card ≤
    (I.pairedLeft left right predicate environment).card *
      (I.pairedRight left right predicate environment).card :=
  Bag.card_keep_cross_le fun row inside =>
    Bag.card_keep_mono fun _ _ passes => ⟨row, inside, passes⟩

omit I left right predicate environment in
/-- Pairs of paired rows, and the lonely rows of one side. -/
theorem pairs_add_lonely_le {pairs paired lonely others more : Nat} (few : pairs ≤ paired * others) :
    pairs + lonely ≤ (paired + lonely) * max (others + more) 1 := by
  calc pairs + lonely ≤ paired * others + lonely * 1 := by omega
    _ ≤ paired * max (others + more) 1 + lonely * max (others + more) 1 :=
      Nat.add_le_add (Nat.mul_le_mul_left _ (by omega)) (Nat.mul_le_mul_left _ (by omega))
    _ = (paired + lonely) * max (others + more) 1 := (Nat.add_mul ..).symm

omit I left right predicate environment in
/-- Pairs of paired rows, and the lonely rows of both sides. -/
theorem pairs_add_lonely_add_le {pairs paired lonely others more : Nat}
    (few : pairs ≤ paired * others) :
    pairs + lonely + more ≤ max ((paired + lonely) * (others + more))
      ((paired + lonely) + (others + more)) := by
  rcases Nat.eq_zero_or_pos (paired * others) with none | some
  · exact le_trans (by omega) (le_max_right _ _)
  · have left : lonely * 1 ≤ lonely * others :=
      Nat.mul_le_mul_left _ (Nat.pos_of_mul_pos_left some)
    have right : 1 * more ≤ paired * more :=
      Nat.mul_le_mul_right _ (Nat.pos_of_mul_pos_right some)
    refine le_trans ?_ (le_max_left _ _)
    calc pairs + lonely + more ≤ paired * others + lonely * others + paired * more := by omega
      _ ≤ (paired + lonely) * (others + more) := by
        rw [Nat.mul_add, Nat.add_mul, Nat.add_mul]
        omega

/-- **The rows of a join that is not an inner join**, from the rows of its sides: a row that matches
nothing is kept as if it matched one row. -/
theorem card_joinRows_le {type : JoinType} (outer : type.isInner = false) :
    (I.joinRows type left right predicate environment).card ≤
      match type with
      | .left => (left.rows environment).card * max (right.rows environment).card 1
      | .right => max (left.rows environment).card 1 * (right.rows environment).card
      | .full => max ((left.rows environment).card * (right.rows environment).card)
          ((left.rows environment).card + (right.rows environment).card)
      | _ => (left.rows environment).card := by
  have pairs := I.card_matched_le left right predicate environment
  have lefts := I.card_pairedLeft_add left right predicate environment
  have rights := I.card_pairedRight_add left right predicate environment
  cases type with
  | inner | cross => cases outer
  | semi | anti => exact Bag.card_keep_le
  | left =>
    show (I.matched left right predicate environment +
      (I.lonelyLeft left right predicate environment).map _).card ≤ _
    rw [Multiset.card_add, Multiset.card_map]
    simp only [← lefts, ← rights]
    exact pairs_add_lonely_le pairs
  | right =>
    show (I.matched left right predicate environment +
      (I.lonelyRight left right predicate environment).map _).card ≤ _
    rw [Multiset.card_add, Multiset.card_map]
    simp only [← lefts, ← rights]
    rw [Nat.mul_comm] at pairs ⊢
    exact pairs_add_lonely_le pairs
  | full =>
    show (I.matched left right predicate environment +
      (I.lonelyLeft left right predicate environment).map _ +
      (I.lonelyRight left right predicate environment).map _).card ≤ _
    rw [Multiset.card_add, Multiset.card_add, Multiset.card_map, Multiset.card_map]
    simp only [← lefts, ← rights]
    exact pairs_add_lonely_add_le pairs

/-- A left join whose right side is empty keeps every left row. -/
theorem card_joinRows_left_of_empty (empty : right.rows environment = 0) :
    (I.joinRows .left left right predicate environment).card = (left.rows environment).card := by
  have unpaired : I.pairedLeft left right predicate environment = 0 := by
    refine Multiset.eq_zero_of_forall_notMem fun row member => ?_
    obtain ⟨_, other, inside, _⟩ := Bag.mem_keep.1 member
    rw [empty] at inside
    exact Multiset.notMem_zero other inside
  have pairs := I.card_matched_le left right predicate environment
  have lefts := I.card_pairedLeft_add left right predicate environment
  rw [unpaired, Multiset.card_zero, Nat.zero_mul] at pairs
  rw [unpaired, Multiset.card_zero, Nat.zero_add] at lefts
  show (I.matched left right predicate environment +
    (I.lonelyLeft left right predicate environment).map _).card = _
  rw [Multiset.card_add, Multiset.card_map, lefts, Nat.le_zero.1 pairs, Nat.zero_add]

end Joins

/-! ### Operators over their inputs -/

section Operators

variable {I : Interpretation Value} {environment : Row Value} {input list : Sense Value}

/-- An operator that is not an inner join has as many rows as it is interpreted with. -/
theorem card_ofLogical {operator : LogicalOp} {inputs : List (Sense Value)}
    (other : operator.isJoining = false) :
    ((I.ofLogical operator inputs).rows environment).card =
      (I.otherRows operator inputs environment).card := by
  unfold ofLogical
  rw [if_neg (by simp [other])]
  exact Multiset.card_map _ _

/-- **An inner join** gives at most the product of the rows of its relations. -/
theorem card_joined_le {relations conditions : List (Sense Value)} :
    ((I.joined relations conditions).rows environment).card ≤
      (relations.map fun relation => (relation.rows environment).card).prod := by
  refine le_trans Bag.card_keep_le (le_of_eq ?_)
  rw [product, Bag.card_crossAll, List.map_map]
  rfl

variable (standard : I.Standard)
include standard

/-- **A limit** gives what it counts, as far as there are rows. -/
theorem card_limited {offset count : Nat} :
    ((I.ofLogical (.limit offset count) [input]).rows environment).card =
      min count ((input.rows environment).card - offset) :=
  (card_ofLogical rfl).trans standard.limit.2

/-- An aggregation without keys gives one row. -/
theorem card_aggregated_nil :
    ((I.ofLogical (.aggregate []) [input, list]).rows environment).card = 1 := by
  obtain ⟨result, _, shape⟩ := @Standard.aggregateAll I standard input list environment
  have rows : I.otherRows (.aggregate []) [input, list] environment = {result} := shape
  rw [card_ofLogical rfl, rows, Multiset.card_singleton]

/-- **An aggregation with keys** gives no more rows than there are. -/
theorem card_aggregated_le {keys : List Column} (some : keys ≠ []) :
    ((I.ofLogical (.aggregate keys) [input, list]).rows environment).card ≤
      (input.rows environment).card := by
  obtain ⟨chosen, _, represents, _, shape⟩ :=
    @Standard.aggregate I standard keys input list environment some
  have rows : I.otherRows (.aggregate keys) [input, list] environment = _ := shape
  rw [card_ofLogical rfl, rows, Multiset.coe_card, List.length_map, ← Multiset.coe_card]
  exact Multiset.card_le_card represents.among

/-- An outer join, a semijoin or an antijoin gives the rows of its type. -/
theorem card_outerJoined {type : JoinType} {left right predicate : Sense Value}
    (outer : type.isInner = false) :
    ((I.ofLogical (.join type) [left, right, predicate]).rows environment).card =
      (I.joinRows type left right predicate environment).card := by
  have rows : I.otherRows (.join type) [left, right, predicate] environment = _ :=
    standard.join outer
  have other : (LogicalOp.join type).isJoining = false := outer
  rw [card_ofLogical other, rows]

end Operators

end Interpretation

/-! ### Projections -/

section Projections

variable {I : Interpretation Value} (sets : String → Prop)

/-- A query that calls none of some functions. -/
def Query.SetFree (query : Query) : Prop :=
  query.Each fun operator _ => ∀ name, operator = .scalar (.call name) → ¬ sets name

/-- A query whose project lists call none of the functions that return sets. -/
def Query.ProjectsSetFree (query : Query) : Prop :=
  query.Each fun operator inputs => operator = .logical .project →
    ∀ input list, inputs = [input, list] → list.SetFree sets

/-- A projection gives one row for each row, if its list calls no function that returns a set. -/
def Interpretation.ProjectsRows (I : Interpretation Value) : Prop :=
  ∀ list : Query, list.SetFree sets → ∀ (input : Sense Value) (environment : Row Value),
    (I.relation .project [input, list.sense I] environment).card = (input.rows environment).card

/-- An operator over inputs that gives one row for each row if it is a projection. -/
def Interpretation.KeepsRows (I : Interpretation Value) (operator : Operator)
    (inputs : List (Sense Value)) : Prop :=
  operator = .logical .project → ∀ input list, inputs = [input, list] → ∀ environment,
    (I.relation .project [input, list] environment).card = (input.rows environment).card

variable {sets}

theorem Interpretation.ofValues_projectsRows {table : Table → List Column → Bag Value} :
    (ofValues table).ProjectsRows sets := by
  intro list _ input environment
  show ((input.rows environment).bind _).card = _
  simp

theorem Interpretation.ProjectsRows.keeps (projects : I.ProjectsRows sets) {operator : Operator}
    {inputs : List Query}
    (free : operator = .logical .project → ∀ input list, inputs = [input, list] → list.SetFree sets) :
    I.KeepsRows operator (Query.senses I inputs) := by
  intro kind input list shape environment
  match inputs, shape with
  | [one, other], shape =>
    cases shape
    exact projects other (free kind one other rfl) _ environment

/-- No projection is regular over any inputs. -/
theorem Operator.AlwaysRegular.keepsRows {operator : Operator} {inputs : List (Sense Value)}
    (regular : operator.AlwaysRegular inputs.length) : I.KeepsRows operator inputs := by
  rintro rfl
  obtain ⟨input, list, shape, relation, _⟩ :=
    (regular (List.replicate inputs.length ⟨true, .empty, .empty⟩) (by simp)).projects rfl
  have scalar : input = ⟨true, .empty, .empty⟩ :=
    List.eq_of_mem_replicate (shape ▸ List.mem_cons_self)
  rw [scalar] at relation
  cases relation

end Projections

end Cascades
