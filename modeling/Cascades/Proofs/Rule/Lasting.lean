/-
**What implementing rules look at.**

An implementing rule promises and proposes by what it reads of an expression and of complete groups. So
its promise for an expression stays while the memo grows, and what it proposes for a binding follows from
the operator and the inputs that the binding shows.

* `Lasting`: rules whose promises stay; `implementing_lasting`: the standard ones that implement;
* `Uniform`: rules that propose by operator and inputs alone; `implementing_uniform`: the same ones.
-/

import Cascades.Proofs.Property.Retention
import Cascades.Proofs.Rule.Implementation

namespace Cascades.Rule

variable {memo next : Memo}

/-! ### Promises -/

/-- A rule whose promise for an expression stays once all properties are known. -/
def Lasting (rule : Rule) : Prop :=
  ∀ {first later : Context} {breadth : GroupId → Breadth} {id : ExprId} {promise : Promise},
    first.Ready breadth → first.Extends later → rule.promise first id = .ok promise →
      rule.promise later id = .ok promise

/-- A rule with a constant promise. -/
theorem Lasting.of_constant {rule : Rule} {promise : Promise}
    (constant : ∀ context id, rule.promise context id = .ok promise) : rule.Lasting := by
  intro first later breadth id other _ _ judged
  rw [constant] at judged ⊢
  exact judged

/-- An equality across two inputs is found again when the memo grew. -/
theorem hasEqualityAcross_grown (grows : memo.Grows next) (valid : memo.Valid) {left right : ColumnSet}
    {conjuncts : List GroupId} (inside : ∀ conjunct ∈ conjuncts, conjunct < memo.groups.size) :
    hasEqualityAcross next left right conjuncts = hasEqualityAcross memo left right conjuncts := by
  induction conjuncts with
  | nil => rfl
  | cons conjunct rest ih =>
    unfold hasEqualityAcross
    rw [grows.equalColumns?_eq valid (inside conjunct List.mem_cons_self),
      ih fun other member => inside other (List.mem_cons_of_mem _ member)]

theorem outputColumns_extended {first later : Context} (extending : first.Extends later) {id : GroupId}
    {columns : ColumnSet} (read : outputColumns first id = .ok columns) :
    outputColumns later id = .ok columns := by
  obtain ⟨properties, known, same⟩ := bind_eq_ok_iff.1 read
  exact bind_eq_ok_iff.2 ⟨properties, extending.relationalProperties known, same⟩

theorem joinToHashJoin_lasting : joinToHashJoin.Lasting := by
  intro first later breadth id promise ready extending judged
  have valid := ready.formed.toValid
  have laid : first.memo.Laid := ready.formed.laid
  obtain ⟨expr, stored, judged⟩ := bind_eq_ok_iff.1 judged
  obtain ⟨left, one, judged⟩ := bind_eq_ok_iff.1 judged
  obtain ⟨right, two, judged⟩ := bind_eq_ok_iff.1 judged
  obtain ⟨predicate, three, judged⟩ := bind_eq_ok_iff.1 judged
  obtain ⟨properties, known, judged⟩ := bind_eq_ok_iff.1 judged
  have there := Memo.expr_ok_iff.2 (extending.grows.exprs (Memo.expr_ok_iff.1 stored))
  refine bind_eq_ok_iff.2 ⟨expr, there, bind_eq_ok_iff.2 ⟨left, one, bind_eq_ok_iff.2 ⟨right, two,
    bind_eq_ok_iff.2 ⟨predicate, three, bind_eq_ok_iff.2 ⟨properties,
      extending.scalarProperties known, ?_⟩⟩⟩⟩⟩
  split at judged
  · rename_i subquery
    rwa [if_pos subquery]
  · rename_i subquery
    rw [if_neg subquery]
    obtain ⟨leftColumns, leftKnown, judged⟩ := bind_eq_ok_iff.1 judged
    obtain ⟨rightColumns, rightKnown, judged⟩ := bind_eq_ok_iff.1 judged
    refine bind_eq_ok_iff.2 ⟨leftColumns, outputColumns_extended extending leftKnown,
      bind_eq_ok_iff.2 ⟨rightColumns, outputColumns_extended extending rightKnown, ?_⟩⟩
    have scalar : first.memo.Scalar predicate := (Context.scalarProperties_cases known).1
    have across : hasEqualityAcross later.memo leftColumns rightColumns (later.memo.conjuncts predicate) =
        hasEqualityAcross first.memo leftColumns rightColumns (first.memo.conjuncts predicate) := by
      rw [extending.grows.conjuncts_eq valid scalar.inside]
      exact hasEqualityAcross_grown extending.grows valid fun conjunct member =>
        (laid.conjuncts scalar conjunct member).inside
    obtain ⟨found, looked, judged⟩ := bind_eq_ok_iff.1 judged
    exact bind_eq_ok_iff.2 ⟨found, across.trans looked, judged⟩

/-- **The standard rules that implement** promise the same as long as the memo grows. -/
theorem implementing_lasting : ∀ rule ∈ implementing, rule.Lasting := by
  simp only [implementing, List.forall_mem_cons]
  refine ⟨?_, ?_, ?_, ?_, joinToHashJoin_lasting, ?_, ?_, fun _ none => absurd none List.not_mem_nil⟩
  all_goals exact Lasting.of_constant fun _ _ => rfl

/-- What such a rule promises in one context that goes on from another one, it promises in all. -/
theorem Lasting.alike {rule : Rule} (lasting : rule.Lasting) (sure : rule.Sure fun _ => False)
    {first one two : Context} {breadth : GroupId → Breadth} (ready : first.Ready breadth) {id : ExprId}
    {expr : Expr} (stored : first.memo.exprs[id]? = some expr)
    (matching : rule.pattern.matchesRoot expr.operator expr.arity = true) (early : first.Extends one)
    (late : first.Extends two) {promise : Promise} (judged : rule.promise one id = .ok promise) :
    rule.promise two id = .ok promise := by
  obtain ⟨known, before, _⟩ := (sure.judges ready stored matching).exists_ok
  obtain rfl := Except.ok.inj ((lasting ready early before).symm.trans judged)
  exact lasting ready late before

/-! ### Proposals -/

/-- The standard rules that implement look at an operator over leaves. -/
theorem implementing_overLeaves :
    ∀ rule ∈ implementing, ∃ kind arity, rule.pattern = .overLeaves kind arity := by
  simp only [implementing, List.forall_mem_cons]
  refine ⟨?_, ?_, ?_, ?_, ?_, ?_, ?_, fun _ none => absurd none List.not_mem_nil⟩
  all_goals exact ⟨_, _, rfl⟩

/-- A rule that proposes by the operator and the inputs of a binding alone. -/
def Uniform (rule : Rule) : Prop :=
  ∀ {context other : Context} {binding another : Binding}, another.operator = binding.operator →
    another.childGroups = binding.childGroups →
      rule.transform other another = rule.transform context binding

theorem substitute_uniform {operator : PhysicalOp} {binding another : Binding} {positions : List Nat}
    (groups : another.childGroups = binding.childGroups) :
    substitute operator another positions = substitute operator binding positions := by
  have each : another.childGroup = binding.childGroup := by
    funext position
    have inside : another.children[position]?.map Binding.group =
        binding.children[position]?.map Binding.group := by
      rw [← List.getElem?_map, ← List.getElem?_map]
      exact congrArg (·[position]?) groups
    unfold Binding.childGroup
    cases one : another.children[position]? <;> cases two : binding.children[position]? <;>
      simp_all
  unfold substitute
  rw [each]

/-- **The standard rules that implement** propose by the operator and the inputs of a binding. -/
theorem implementing_uniform : ∀ rule ∈ implementing, rule.Uniform := by
  simp only [implementing, List.forall_mem_cons]
  refine ⟨?_, ?_, ?_, ?_, ?_, ?_, ?_, fun _ none => absurd none List.not_mem_nil⟩
  all_goals
    intro context other binding another operator groups
    simp only [getToTableScan, selectToFilter, projectToComputeScalar, limitToLimit, joinToHashJoin,
      joinToNestedLoop, aggregateToHashAggregate, operator, groups, substitute_uniform groups]

end Cascades.Rule
