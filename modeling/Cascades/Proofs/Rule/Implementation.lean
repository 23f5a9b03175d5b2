/-
**What implementing rules propose.**

A physical form of an expression is over the groups that the expression is over, so it belongs into
the group of the expression, beside it.

* `Implements.sure`: a rule that implements is sure if it judges and proposes without a fault;
* `standard_sure`: all rules are sure;
* `exists_realizes`: every operator but the join of many inputs gets a physical form.
-/

import Cascades.Proofs.Meaning.Implementation
import Cascades.Proofs.Rule.Exploration

namespace Cascades

open Memo

variable {faulty : Fault → Prop} {memo : Memo} {breadth : GroupId → Breadth}

/-- **A physical form** of a bound expression belongs into the group of the expression. -/
theorem Binding.Drawn.suits {binding : Binding} {pattern : Pattern}
    (drawn : binding.Drawn memo pattern) (inner : pattern.isLeaf = false)
    (formed : memo.Formed breadth) {operator : PhysicalOp}
    (implemented : binding.operator = .logical operator.logical) :
    Suits memo breadth binding.group (.overGroups (.physical operator) binding.childGroups) := by
  obtain ⟨id, expr, stored, shown, named, groups, _⟩ := drawn.inner inner
  have seated := formed.seated stored
  have takes := seated.takes
  rw [← shown, implemented] at takes
  rw [named, groups]
  refine .groups (fun child => formed.childExists stored) ?_ seated.older (fun same => ?_) nofun
  · generalize breadth expr.group = result at takes
    cases takes with
    | logical takes => exact .physical takes
  · cases same
    exact ⟨id, expr, stored, shown.symm.trans implemented, rfl, rfl⟩

namespace Rule

/-- A rule that implements is sure if it judges and proposes without a fault. -/
theorem Implements.sure {rule : Rule} (implements : rule.Implements)
    (inner : rule.pattern.isLeaf = false)
    (judges : ∀ {context : Context} {breadth : GroupId → Breadth} {id : ExprId} {expr : Expr},
      context.Ready breadth → context.memo.exprs[id]? = some expr →
        rule.pattern.matchesRoot expr.operator expr.arity = true →
          Ends faulty (rule.promise context id) fun _ => True)
    (proposes : ∀ {context : Context} {binding : Binding},
      binding.Drawn context.memo rule.pattern →
        Ends (Failure.Allowed faulty) (rule.transform context binding) fun _ => True) :
    rule.Sure faulty where
  judges := judges
  proposes {context breadth binding} ready drawn := by
    refine (proposes drawn).of_all fun proposals done proposal member => ?_
    obtain ⟨operator, implemented, rfl⟩ := implements drawn done proposal member
    exact drawn.suits inner ready.formed implemented

/-- The groups at all positions below a binding are there. -/
theorem substitute_ends {operator : PhysicalOp} {binding : Binding} {positions : List Nat}
    (inside : ∀ position ∈ positions, position < binding.childGroups.length) :
    Ends faulty (substitute operator binding positions) fun _ => True := by
  have each : ∀ position ∈ positions, Ends faulty (binding.childGroup position) fun _ => True :=
    fun position member => Ends.of_ok (Binding.childGroup_ok_iff.2
      (List.getElem?_eq_getElem (inside position member))) trivial
  exact (Ends.mapM_all each).returns

/-! ### Operators with one physical form -/

theorem getToTableScan_sure : getToTableScan.Sure faulty := by
  refine getToTableScan_implements.sure rfl (fun _ _ _ => Ends.pure trivial) fun _ => ?_
  unfold getToTableScan
  simp only
  split <;> exact Ends.pure trivial

theorem selectToFilter_sure : selectToFilter.Sure faulty := by
  refine selectToFilter_implements.sure rfl (fun _ _ _ => Ends.pure trivial) fun _ => ?_
  unfold selectToFilter
  simp only
  split <;> exact Ends.pure trivial

theorem projectToComputeScalar_sure : projectToComputeScalar.Sure faulty := by
  refine projectToComputeScalar_implements.sure rfl (fun _ _ _ => Ends.pure trivial) fun _ => ?_
  unfold projectToComputeScalar
  simp only
  split <;> exact Ends.pure trivial

theorem limitToLimit_sure : limitToLimit.Sure faulty := by
  refine limitToLimit_implements.sure rfl (fun _ _ _ => Ends.pure trivial) fun _ => ?_
  unfold limitToLimit
  simp only
  split <;> exact Ends.pure trivial

theorem aggregateToHashAggregate_sure : aggregateToHashAggregate.Sure faulty := by
  refine aggregateToHashAggregate_implements.sure rfl (fun _ _ _ => Ends.pure trivial)
    fun drawn => ?_
  unfold aggregateToHashAggregate
  simp only
  split
  · refine Ends.lift (substitute_ends ?_)
    rw [length_childGroups drawn]
    decide
  · exact Ends.pure trivial

/-! ### Joins -/

/-- An equality across the inputs of a join is looked for among predicates. -/
theorem hasEqualityAcross_ends (laid : memo.Laid) {left right : ColumnSet}
    {conjuncts : List GroupId} (scalars : ∀ conjunct ∈ conjuncts, memo.Scalar conjunct) :
    Ends faulty (hasEqualityAcross memo left right conjuncts) fun _ => True := by
  induction conjuncts with
  | nil => exact Ends.pure trivial
  | cons conjunct rest ih =>
    have others := ih fun other member => scalars other (List.mem_cons_of_mem _ member)
    unfold hasEqualityAcross
    refine Ends.bind (laid.equalColumns? (scalars conjunct List.mem_cons_self).inside)
      fun _ (_ : True) => ?_
    split
    · exact Ends.ite (Ends.pure trivial) others
    · exact others

theorem joinToHashJoin_judges {context : Context} (ready : context.Ready breadth) {id : ExprId}
    {expr : Expr} (stored : context.memo.exprs[id]? = some expr)
    (root : joinToHashJoin.pattern.matchesRoot expr.operator expr.arity = true) :
    Ends faulty (joinToHashJoin.promise context id) fun _ => True := by
  have formed := ready.formed
  obtain ⟨⟨operator, shown, kind⟩, _⟩ := Pattern.matchesRoot_logical rfl root
  obtain ⟨type, rfl⟩ : ∃ type, operator = .join type := by
    cases operator with
    | join type => exact ⟨type, rfl⟩
    | _ => cases kind
  have takes := (formed.seated stored).takes
  rw [shown] at takes
  obtain ⟨left, right, predicate, low, high, children, leftIs, rightIs, scalar, _⟩ :=
    formed.of_join (fun child => formed.childExists stored) takes
  refine Ends.bind_ok (expr_ok_iff.2 stored) ?_
  refine Ends.bind_ok (Expr.child_ok (by rw [children]; rfl)) ?_
  refine Ends.bind_ok (Expr.child_ok (by rw [children]; rfl)) ?_
  refine Ends.bind_ok (Expr.child_ok (by rw [children]; rfl)) ?_
  refine Ends.bind ((ready.complete predicate scalar.inside).scalarProperties scalar)
    fun properties _ => ?_
  refine Ends.ite (Ends.pure trivial) ?_
  refine Ends.bind (ready.outputColumns (leftIs.relational formed)) fun _ _ => ?_
  refine Ends.bind (ready.outputColumns (rightIs.relational formed)) fun _ _ => ?_
  exact (hasEqualityAcross_ends formed.laid (formed.conjuncts scalar)).returns

theorem joinToHashJoin_sure : joinToHashJoin.Sure faulty := by
  refine joinToHashJoin_implements.sure rfl
    (fun ready stored root => joinToHashJoin_judges ready stored root) fun drawn => ?_
  unfold joinToHashJoin
  simp only
  split
  · refine Ends.lift (substitute_ends ?_)
    rw [length_childGroups drawn]
    decide
  · exact Ends.pure trivial

theorem joinToNestedLoop_sure : joinToNestedLoop.Sure faulty := by
  refine joinToNestedLoop_implements.sure rfl (fun _ _ _ => Ends.pure trivial) fun drawn => ?_
  unfold joinToNestedLoop
  simp only
  split
  · refine Ends.lift (substitute_ends ?_)
    rw [length_childGroups drawn]
    decide
  · exact Ends.pure trivial

/-- **All rules are sure.** -/
theorem standard_sure : ∀ rule ∈ standard, rule.Sure faulty := by
  simp only [standard, List.forall_mem_cons]
  exact ⟨joinCommutativity_sure, joinAssociativity_sure, expandNaryJoin_sure,
    pushSelectIntoJoin_sure, getToTableScan_sure, selectToFilter_sure, projectToComputeScalar_sure,
    limitToLimit_sure, joinToHashJoin_sure, joinToNestedLoop_sure, aggregateToHashAggregate_sure,
    fun _ none => absurd none List.not_mem_nil⟩

/-! ### Operators that get a physical form -/

/-- **A rule that realizes an operator**: whatever the inputs are, it gives an expression with the
operator a physical form. -/
structure Realizes (rule : Rule) (operator : LogicalOp) : Prop where
  listed : rule ∈ standard
  kind : rule.kind = .implementation
  overLeaves : ∃ kind arity, rule.pattern = .overLeaves kind arity
  matching : ∀ {inputs : List Breadth} {tables : Nat}, operator.Takes inputs tables →
    rule.pattern.matchesRoot (.logical operator) inputs.length = true
  promise : ∀ context id, rule.promise context id = .ok .low
  implements : rule.Implements
  proposes : ∀ {context : Context} {binding : Binding} {proposals : List Proposal},
    binding.operator = .logical operator → rule.transform context binding = .ok proposals →
      proposals ≠ []

theorem getToTableScan_realizes {table : Table} {columns : List Column} :
    getToTableScan.Realizes (.get table columns) where
  listed := by simp [standard]
  kind := rfl
  overLeaves := ⟨_, _, rfl⟩
  matching takes := by
    cases takes
    rfl
  promise _ _ := rfl
  implements := getToTableScan_implements
  proposes shown done := by
    unfold getToTableScan at done
    simp only [shown] at done
    exact pure_eq_ok_iff.1 done ▸ List.cons_ne_nil _ _

theorem selectToFilter_realizes : selectToFilter.Realizes .select where
  listed := by simp [standard]
  kind := rfl
  overLeaves := ⟨_, _, rfl⟩
  matching takes := by
    cases takes
    rfl
  promise _ _ := rfl
  implements := selectToFilter_implements
  proposes shown done := by
    unfold selectToFilter at done
    simp only [shown] at done
    exact pure_eq_ok_iff.1 done ▸ List.cons_ne_nil _ _

theorem projectToComputeScalar_realizes : projectToComputeScalar.Realizes .project where
  listed := by simp [standard]
  kind := rfl
  overLeaves := ⟨_, _, rfl⟩
  matching takes := by
    cases takes
    rfl
  promise _ _ := rfl
  implements := projectToComputeScalar_implements
  proposes shown done := by
    unfold projectToComputeScalar at done
    simp only [shown] at done
    exact pure_eq_ok_iff.1 done ▸ List.cons_ne_nil _ _

theorem limitToLimit_realizes {offset count : Nat} :
    limitToLimit.Realizes (.limit offset count) where
  listed := by simp [standard]
  kind := rfl
  overLeaves := ⟨_, _, rfl⟩
  matching takes := by
    cases takes
    rfl
  promise _ _ := rfl
  implements := limitToLimit_implements
  proposes shown done := by
    unfold limitToLimit at done
    simp only [shown] at done
    exact pure_eq_ok_iff.1 done ▸ List.cons_ne_nil _ _

theorem ne_nil_of_substitute {operator : PhysicalOp} {binding : Binding} {positions : List Nat}
    {proposals : List Proposal}
    (done : (liftM (substitute operator binding positions) : Except Failure (List Proposal)) =
      .ok proposals) : proposals ≠ [] := by
  obtain ⟨_, _, done⟩ := bind_eq_ok_iff.1 (lift_fault_eq_ok_iff.1 done)
  exact pure_eq_ok_iff.1 done ▸ List.cons_ne_nil _ _

theorem joinToNestedLoop_realizes {type : JoinType} : joinToNestedLoop.Realizes (.join type) where
  listed := by simp [standard]
  kind := rfl
  overLeaves := ⟨_, _, rfl⟩
  matching takes := by
    cases takes
    rfl
  promise _ _ := rfl
  implements := joinToNestedLoop_implements
  proposes shown done := by
    unfold joinToNestedLoop at done
    simp only [joinType?_eq_some_iff.2 shown] at done
    exact ne_nil_of_substitute done

theorem aggregateToHashAggregate_realizes {keys : List Column} :
    aggregateToHashAggregate.Realizes (.aggregate keys) where
  listed := by simp [standard]
  kind := rfl
  overLeaves := ⟨_, _, rfl⟩
  matching takes := by
    cases takes
    rfl
  promise _ _ := rfl
  implements := aggregateToHashAggregate_implements
  proposes shown done := by
    unfold aggregateToHashAggregate at done
    simp only [shown] at done
    exact ne_nil_of_substitute done

/-- **Every logical operator is realized**, but the join of many inputs. -/
theorem exists_realizes {operator : LogicalOp} (plain : operator ≠ .naryJoin) :
    ∃ rule : Rule, rule.Realizes operator := by
  cases operator with
  | get => exact ⟨_, getToTableScan_realizes⟩
  | select => exact ⟨_, selectToFilter_realizes⟩
  | project => exact ⟨_, projectToComputeScalar_realizes⟩
  | join => exact ⟨_, joinToNestedLoop_realizes⟩
  | naryJoin => exact absurd rfl plain
  | aggregate => exact ⟨_, aggregateToHashAggregate_realizes⟩
  | limit => exact ⟨_, limitToLimit_realizes⟩

end Rule

end Cascades
