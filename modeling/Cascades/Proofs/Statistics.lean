/-
**Statistics can always be found.**

In a memo whose expressions are laid out and whose relational groups begin with a logical member,
every relational group has statistics: they follow from first members only, whose children are
older.

* `ofOperator_runs`: an operator over inputs that have statistics;
* `findWithin_runs`, `ofGroupFrom_ends`: a group, whatever was found before.
-/

import Cascades.Proofs.Memo.First
import Cascades.Proofs.Stateful
import Cascades.Statistics.Group

namespace Cascades

theorem Expr.child_ok {expr : Expr} {position : Nat} {child : GroupId}
    (place : expr.children[position]? = some child) : expr.child position = .ok child :=
  child_ok_iff.2 place

theorem Expr.lastChild_ok {expr : Expr} {front : List GroupId} {last : GroupId}
    (shown : expr.children = front ++ [last]) : expr.lastChild = .ok last := by
  have arity : expr.arity = front.length + 1 := by rw [Expr.arity, shown, List.length_append]; rfl
  unfold Expr.lastChild
  refine bind_eq_ok_iff.2 ⟨front.length, Count.sub_eq_ok_iff.2 (by omega), ?_⟩
  exact Expr.child_ok (by simp [shown])

namespace Statistics

variable {memo : Memo} {catalog : Catalog} {faulty : Fault → Prop} {id : GroupId}

/-! ### Predicates -/

section Laid

variable (laid : memo.Laid)
include laid

theorem conjunctSelectivity_ends {input : Statistics} (scalar : memo.Scalar id) :
    Ends faulty (conjunctSelectivity memo input id) fun _ => True := by
  unfold conjunctSelectivity
  split
  · rename_i operator children first
    obtain ⟨left, right, rfl⟩ := laid.operands first
    split
    · exact Ends.pure trivial
    simp only [List.getElem?_cons_zero, List.getElem?_cons_succ]
    split
    · split
      · exact Ends.pure trivial
      · refine Ends.bind (laid.equalColumns? scalar.inside) fun found (_ : True) => ?_
        split
        · exact Ends.pure trivial
        · exact Ends.pure trivial
    · exact Ends.pure trivial
    · exact Ends.pure trivial
  · exact Ends.pure trivial

theorem selectivity_ends {input : Statistics} (scalar : memo.Scalar id) :
    Ends faulty (selectivity memo input id) fun _ => True := by
  have ⟨group, there, _⟩ := scalar
  unfold selectivity
  refine Ends.bind_ok (Memo.group_ok_iff.2 there) ?_
  refine Ends.foldlM (fun conjunct member share _ => ?_) trivial
  exact Ends.bind (conjunctSelectivity_ends laid (laid.conjuncts scalar conjunct member))
    fun _ (_ : True) => Ends.pure trivial

theorem equalPairs_ends {left right : Statistics} (scalar : memo.Scalar id) :
    Ends faulty (equalPairs memo left right (memo.conjuncts id)) fun _ => True := by
  have each : ∀ conjunct ∈ memo.conjuncts id,
      Ends faulty (memo.equalColumns? conjunct) fun _ => True :=
    fun conjunct member => laid.equalColumns? (laid.conjuncts scalar conjunct member).inside
  have all : Ends faulty (memo.equalities (memo.conjuncts id)) fun _ => True :=
    Ends.bind (Ends.mapM each) fun _ _ => Ends.pure trivial
  exact Ends.bind all fun _ _ => Ends.pure trivial

end Laid

/-! ### Groups -/

/-- A computation of statistics never fails, whatever was found before. -/
abbrev Total (faulty : Fault → Prop) {α : Type} (finding : Finding α) : Prop :=
  Runs faulty (fun _ => True) finding fun _ => True

section Formed

variable (linked : memo.Linked) (laid : memo.Laid)
include linked laid

/-- **An operator** over inputs whose statistics can be found. -/
theorem ofOperator_runs {input : GroupId → Finding Statistics} {expr : Expr} {number : ExprId}
    (stored : memo.exprs[number]? = some expr) {operator : LogicalOp}
    (logical : expr.operator = .logical operator)
    (inputs : ∀ child ∈ expr.children, memo.Relational child → Total faulty (input child)) :
    Total faulty (ofOperator memo catalog input expr operator) := by
  have layout := laid.logical linked stored logical
  cases operator with
  | get table columns => exact Runs.pure trivial
  | select =>
    obtain ⟨source, predicate, shown, relational, scalar⟩ := layout
    refine Runs.bind_ok (Expr.child_ok (by rw [shown]; rfl)) ?_
    refine Runs.bind (inputs _ (by simp [shown]) relational) fun rows _ => ?_
    refine Runs.bind_ok (Expr.child_ok (by rw [shown]; rfl)) ?_
    exact Runs.bind (Runs.lift (selectivity_ends laid scalar)) fun _ _ => Runs.pure trivial
  | project =>
    obtain ⟨source, last, shown, relational, _⟩ := layout
    refine Runs.bind_ok (Expr.child_ok (by rw [shown]; rfl)) ?_
    exact inputs _ (by simp [shown]) relational
  | limit offset count =>
    obtain ⟨source, shown, relational⟩ := layout
    refine Runs.bind_ok (Expr.child_ok (by rw [shown]; rfl)) ?_
    exact Runs.bind (inputs _ (by simp [shown]) relational) fun _ _ => Runs.pure trivial
  | aggregate keys =>
    obtain ⟨source, last, shown, relational, _⟩ := layout
    refine Runs.bind_ok (Expr.child_ok (by rw [shown]; rfl)) ?_
    exact Runs.bind (inputs _ (by simp [shown]) relational) fun _ _ => Runs.pure trivial
  | join type =>
    obtain ⟨left, right, predicate, shown, first, second, scalar⟩ := layout
    refine Runs.bind_ok (Expr.child_ok (by rw [shown]; rfl)) ?_
    refine Runs.bind (inputs _ (by simp [shown]) first) fun leftRows _ => ?_
    refine Runs.bind_ok (Expr.child_ok (by rw [shown]; rfl)) ?_
    refine Runs.bind (inputs _ (by simp [shown]) second) fun rightRows _ => ?_
    refine Runs.bind_ok (Expr.child_ok (by rw [shown]; rfl)) ?_
    exact Runs.bind (Runs.lift (equalPairs_ends laid scalar)) fun _ _ => Runs.pure trivial
  | naryJoin =>
    obtain ⟨first, others, predicate, shown, relational, scalar⟩ := layout
    refine Runs.bind_ok (Expr.lastChild_ok shown) ?_
    refine Runs.bind_ok (Expr.child_ok (by rw [shown]; rfl)) ?_
    refine Runs.bind (inputs _ (by simp [shown]) (relational _ List.mem_cons_self)) fun rows _ => ?_
    refine Runs.foldlM (fun _ _ => True) [] (fun next member _ joined _ => ?_) trivial
    rw [shown, List.dropLast_concat, List.tail_cons] at member
    refine Runs.bind (inputs _ (by simp [shown, member])
      (relational next (List.mem_cons_of_mem _ member))) fun nextRows _ => ?_
    exact Runs.bind (Runs.lift (equalPairs_ends laid scalar)) fun _ _ => Runs.pure trivial

variable (headed : memo.LogicalFirst)
include headed

/-- **A relational group** has statistics, which a descent with enough levels finds. -/
theorem findWithin_runs (levels : Nat) :
    ∀ {id : GroupId}, memo.Relational id → id < levels →
      Total faulty (findWithin memo catalog levels id) := by
  induction levels with
  | zero => exact fun _ inside => absurd inside (Nat.not_lt_zero _)
  | succ levels ih =>
    intro id relational inside
    obtain ⟨number, expr, operator, found, stored, logical, _, older⟩ :=
      headed.firstLogical linked relational
    obtain ⟨group, there, family⟩ := relational
    unfold findWithin
    refine Runs.bind Runs.get fun known _ => ?_
    split
    · exact Runs.pure trivial
    have own : Total faulty (ofMembers memo catalog (findWithin memo catalog levels) id) := by
      unfold ofMembers
      refine Runs.bind_ok (Memo.group_ok_iff.2 there) ?_
      rw [family]
      refine Runs.bind_ok found ?_
      refine ofOperator_runs linked laid stored logical fun child member relational => ?_
      exact ih relational (Nat.lt_of_lt_of_le (older child member) (Nat.le_of_lt_succ inside))
    refine Runs.bind own fun statistics _ => ?_
    exact Runs.bind (Runs.modify fun _ _ => trivial) fun _ _ => Runs.pure trivial

theorem find_runs (relational : memo.Relational id) : Total faulty (find memo catalog id) :=
  findWithin_runs linked laid headed _ relational (Nat.lt_succ_of_lt relational.inside)

/-- Where some statistics were found already, those of a relational group are found as well. -/
theorem ofGroupFrom_ok (relational : memo.Relational id) (found : Found) :
    ∃ statistics, ofGroupFrom memo catalog found id = .ok statistics := by
  have total : Total (fun _ => False) (find memo catalog id) :=
    find_runs linked laid headed relational
  obtain ⟨ended, done, _⟩ := (total found trivial).exists_ok
  exact ⟨ended.1, run'_eq_ok_iff.2 ⟨ended.2, done⟩⟩

end Formed

end Statistics

end Cascades
