/-
**The physical images of an expression.**

A physical operator over the inputs of a logical expression is an image of it if some rule may put it
there. Each physical operator comes from one rule. Every logical operator but the join of many inputs has
one image, and a join has another one where it can be hashed.

* `hasSubquery`: a subquery occurs in a scalar; `Fresh.hasSubquery_eq`: that is what is known of it;
* `EquatesAcross`, `CanHash`: joins with an equality across their inputs and without a subquery;
* `Image`: the images of an expression; `Grows.image_iff`: they stay while the memo grows;
* `forming`: the rule behind a physical operator; `forming_worth_iff`: when it is worth trying;
* `forming_proposes`, `exists_forming`: what it proposes, and that no other rule does.
-/

import Cascades.Proofs.Order.Nesting
import Cascades.Proofs.Search.Forms

namespace Cascades

variable {memo next : Memo} {id : GroupId} {number : ExprId} {source : Expr}

/-! ### Subqueries -/

namespace Memo

/-- Whether an operator is a subquery, or a scalar operator with a subquery among its inputs. -/
def subqueryStep : Operator → List Bool → Bool
  | .scalar (.subquery _), _ | .scalar .subqueryExists, _ => true
  | .scalar _, inputs => inputs.any fun input => input
  | _, _ => false

/-- **Whether a subquery occurs** in a scalar. -/
def hasSubquery (memo : Memo) (id : GroupId) : Bool := memo.fold subqueryStep false id

theorem Grows.hasSubquery_eq (grows : memo.Grows next) (valid : memo.Valid) (later : next.Valid)
    (inside : id < memo.groups.size) : next.hasSubquery id = memo.hasSubquery id :=
  grows.fold_eq valid later.toLinked inside

/-- A relation is no scalar in which a subquery could occur. -/
theorem Valid.hasSubquery_of_relational (valid : memo.Valid) (inside : id < memo.groups.size)
    (relational : memo.isScalarGroup id = false) : memo.hasSubquery id = false := by
  obtain ⟨expr, found⟩ := valid.exists_firstMember inside
  obtain ⟨group, number, there, _, stored⟩ := firstMember_ok_iff.1 found
  obtain ⟨rfl, _⟩ := valid.of_firstMember found
  have family : expr.operator.isScalar = false := by
    rw [valid.family stored there]
    simpa [isScalarGroup, there] using relational
  rw [hasSubquery, valid.fold_eq found]
  cases kind : expr.operator with
  | scalar operator =>
    rw [kind] at family
    cases family
  | logical | physical => rfl

/-- A subquery occurs among the scalar inputs if it does among all. -/
theorem Valid.any_hasSubquery (valid : memo.Valid) (stored : memo.exprs[number]? = some source) :
    (memo.scalarChildren source).any memo.hasSubquery = source.children.any memo.hasSubquery := by
  unfold scalarChildren
  rw [List.any_filter, Bool.eq_iff_iff, List.any_eq_true, List.any_eq_true]
  refine exists_congr fun child => and_congr_right fun member => ?_
  cases family : memo.isScalarGroup child with
  | true => simp
  | false => simp [valid.hasSubquery_of_relational (valid.childExists stored member) family]

end Memo

namespace Context

variable {context : Context}

/-- **What is known of subqueries** in a scalar. -/
theorem Fresh.hasSubquery_eq (fresh : context.Fresh) {values : ScalarProperties}
    (read : context.scalarProperties id = .ok values) :
    values .hasSubquery = context.memo.hasSubquery id := by
  induction id using Nat.strongRecOn generalizing values with
  | ind id ih =>
    have valid := fresh.valid
    obtain ⟨operator, expr, found, kind, _⟩ :=
      Memo.Scalar.exists_scalarFirst? (scalarProperties_cases read).1 valid
    obtain ⟨_, number, _, _, stored⟩ := Memo.firstMember_ok_iff.1 found
    have older := (valid.of_firstMember found).2
    have derived : ScalarProperty.deriveHasSubquery context.ample expr = .ok (values .hasSubquery) :=
      fresh.derive_scalar found (known_of_scalarProperties read .hasSubquery)
    have inputs : ∀ result, ((context.memo.scalarChildren expr).anyM fun child => do
        return (← context.scalarProperties child) .hasSubquery) = .ok result →
          result = (expr.children.map context.memo.hasSubquery).any fun input => input := by
      intro result done
      rw [List.any_map]
      refine (anyM_eq_any (fun child member found given => ?_) done).trans
        (valid.any_hasSubquery stored)
      obtain ⟨known, readToo, same⟩ := bind_eq_ok_iff.1 given
      rw [← pure_eq_ok_iff.1 same]
      exact ih child (older child (List.mem_of_mem_filter member)) readToo
    rw [Memo.hasSubquery, valid.fold_eq found, kind]
    unfold ScalarProperty.deriveHasSubquery at derived
    rw [kind] at derived
    cases operator with
    | subquery | subqueryExists => exact (pure_eq_ok_iff.1 derived).symm
    | _ => exact inputs _ derived

end Context

/-! ### Joins that can be hashed -/

namespace Memo

variable {left right : ColumnSet} {conjunct : GroupId}

/-- **A predicate equates** a column of one set with a column of another one. -/
def EquatesAcross (memo : Memo) (left right : ColumnSet) (conjunct : GroupId) : Prop :=
  ∃ first second one two, memo.scalarFirst? conjunct = some (.binary .eq, [first, second]) ∧
    memo.column? first = some one ∧ memo.column? second = some two ∧
    ((one.id ∈ left ∧ two.id ∈ right) ∨ (two.id ∈ left ∧ one.id ∈ right))

theorem equalColumns?_of_columns (inside : conjunct < memo.groups.size) {first second : GroupId}
    {one two : Column} (equality : memo.scalarFirst? conjunct = some (.binary .eq, [first, second]))
    (oneIs : memo.column? first = some one) (twoIs : memo.column? second = some two) :
    memo.equalColumns? conjunct = .ok (some (one.id, two.id)) := by
  obtain ⟨group, there⟩ := group_of_lt inside
  have known : memo.group conjunct = .ok group := group_ok_iff.2 there
  simp [equalColumns?, known, equality, oneIs, twoIs, bind, Except.bind, pure, Except.pure]

/-- The columns that are found in a predicate are those of an equality. -/
theorem Laid.columns_of_equalColumns? (laid : memo.Laid) {one two : ColumnId}
    (found : memo.equalColumns? conjunct = .ok (some (one, two))) :
    ∃ first second oneColumn twoColumn,
      memo.scalarFirst? conjunct = some (.binary .eq, [first, second]) ∧
      memo.column? first = some oneColumn ∧ memo.column? second = some twoColumn ∧
      oneColumn.id = one ∧ twoColumn.id = two := by
  unfold Memo.equalColumns? at found
  obtain ⟨_, _, found⟩ := bind_eq_ok_iff.1 found
  split at found
  · rename_i children equality
    obtain ⟨first, second, rfl⟩ := laid.operands equality
    simp only [List.getElem?_cons_zero, List.getElem?_cons_succ] at found
    split at found
    · rename_i oneColumn oneIs
      split at found
      · rename_i twoColumn twoIs
        cases pure_eq_ok_iff.1 found
        exact ⟨first, second, oneColumn, twoColumn, equality, oneIs, twoIs, rfl, rfl⟩
      · cases pure_eq_ok_iff.1 found
    · cases pure_eq_ok_iff.1 found
  · cases pure_eq_ok_iff.1 found

theorem Laid.equatesAcross_iff (laid : memo.Laid) (inside : conjunct < memo.groups.size) :
    memo.EquatesAcross left right conjunct ↔ ∃ one two,
      memo.equalColumns? conjunct = .ok (some (one, two)) ∧
        ((one ∈ left ∧ two ∈ right) ∨ (two ∈ left ∧ one ∈ right)) := by
  constructor
  · rintro ⟨first, second, one, two, equality, oneIs, twoIs, across⟩
    exact ⟨one.id, two.id, equalColumns?_of_columns inside equality oneIs twoIs, across⟩
  · rintro ⟨_, _, found, across⟩
    obtain ⟨first, second, one, two, equality, oneIs, twoIs, rfl, rfl⟩ :=
      laid.columns_of_equalColumns? found
    exact ⟨first, second, one, two, equality, oneIs, twoIs, across⟩

/-- **A join can be hashed** if no subquery occurs in its predicate, and some conjunct equates a column
of its left input with one of its right input. -/
def CanHash (memo : Memo) (join : Expr) : Prop :=
  ∃ left right predicate, join.children = [left, right, predicate] ∧
    memo.hasSubquery predicate = false ∧ ∃ conjunct ∈ memo.conjuncts predicate,
      memo.EquatesAcross (memo.scope left).columns (memo.scope right).columns conjunct

/-- **The physical images** of an expression, over the same inputs. -/
inductive Image (memo : Memo) (source : Expr) : PhysicalOp → Prop
  | tableScan {table : Table} {columns : List Column} :
      source.operator = .logical (.get table columns) → Image memo source (.tableScan table columns)
  | filter : source.operator = .logical .select → Image memo source .filter
  | computeScalar : source.operator = .logical .project → Image memo source .computeScalar
  | limit {offset count : Nat} :
      source.operator = .logical (.limit offset count) → Image memo source (.limit offset count)
  | hashAggregate {keys : List Column} :
      source.operator = .logical (.aggregate keys) → Image memo source (.hashAggregate keys)
  | nestedLoopJoin {type : JoinType} :
      source.operator = .logical (.join type) → Image memo source (.nestedLoopJoin type)
  | hashJoin {type : JoinType} :
      source.operator = .logical (.join type) → memo.CanHash source → Image memo source (.hashJoin type)

/-- An image implements the operator of the expression, and a join is hashed only where it can be. -/
theorem image_iff {operator : PhysicalOp} : memo.Image source operator ↔
    source.operator = .logical operator.logical ∧
      ∀ type, operator = .hashJoin type → memo.CanHash source := by
  constructor
  · intro image
    cases image with
    | hashJoin shown canHash => exact ⟨shown, fun _ _ => canHash⟩
    | _ shown => exact ⟨shown, fun _ same => by cases same⟩
  · rintro ⟨shown, hashed⟩
    cases operator with
    | tableScan => exact .tableScan shown
    | filter => exact .filter shown
    | computeScalar => exact .computeScalar shown
    | hashJoin type => exact .hashJoin shown (hashed type rfl)
    | nestedLoopJoin => exact .nestedLoopJoin shown
    | hashAggregate => exact .hashAggregate shown
    | limit => exact .limit shown

/-! ### Growth -/

section Growth

variable (grows : memo.Grows next) (valid : memo.Valid)
include grows valid

theorem Grows.equatesAcross_iff (inside : conjunct < memo.groups.size) :
    next.EquatesAcross left right conjunct ↔ memo.EquatesAcross left right conjunct := by
  unfold EquatesAcross
  rw [grows.scalarFirst?_eq valid inside]
  refine exists_congr fun first => exists_congr fun second => exists_congr fun one =>
    exists_congr fun two => and_congr_right fun equality => ?_
  have there := valid.operands_inside equality
  rw [grows.column?_eq valid (there first (by simp)), grows.column?_eq valid (there second (by simp))]

variable (later : next.Valid)
include later

theorem Grows.canHash_iff (stored : memo.exprs[number]? = some source) : next.CanHash source ↔ memo.CanHash source := by
  unfold CanHash
  refine exists_congr fun left => exists_congr fun right => exists_congr fun predicate =>
    and_congr_right fun shape => ?_
  have there : ∀ child ∈ source.children, child < memo.groups.size := fun child =>
    valid.childExists stored
  simp only [shape, List.forall_mem_cons] at there
  obtain ⟨low, high, inside, _⟩ := there
  have columns : ∀ {child : GroupId}, child < memo.groups.size →
      next.scope child = memo.scope child := fun inside => grows.profile_scope valid later {} inside
  rw [grows.hasSubquery_eq valid later inside, grows.conjuncts_eq valid inside, columns low,
    columns high]
  refine and_congr_right fun _ => exists_congr fun conjunct => and_congr_right fun member => ?_
  exact grows.equatesAcross_iff valid (valid.conjuncts_inside inside conjunct member)

/-- **The images of an expression** stay the same. -/
theorem Grows.image_iff (stored : memo.exprs[number]? = some source) {operator : PhysicalOp} :
    next.Image source operator ↔ memo.Image source operator := by
  rw [Memo.image_iff, Memo.image_iff, grows.canHash_iff valid later stored]

end Growth

end Memo

/-! ### The rules behind images -/

namespace Rule

variable {context : Context} {operator : PhysicalOp}

/-- **The rule behind a physical operator.** -/
def forming : PhysicalOp → Rule
  | .tableScan .. => getToTableScan
  | .filter => selectToFilter
  | .computeScalar => projectToComputeScalar
  | .hashJoin _ => joinToHashJoin
  | .nestedLoopJoin _ => joinToNestedLoop
  | .hashAggregate _ => aggregateToHashAggregate
  | .limit .. => limitToLimit

theorem forming_mem (operator : PhysicalOp) : forming operator ∈ standard := by
  cases operator <;> simp [forming, standard]

theorem forming_kind (operator : PhysicalOp) : (forming operator).kind = .implementation := by
  cases operator <;> rfl

theorem forming_overLeaves (operator : PhysicalOp) :
    ∃ kind arity, (forming operator).pattern = .overLeaves kind arity := by
  cases operator <;> exact ⟨_, _, rfl⟩

/-- The rule is for the logical operators that the physical one implements. -/
theorem forming_matching {inputs : List Breadth} {tables : Nat}
    (takes : operator.logical.Takes inputs tables) :
    (forming operator).pattern.matchesRoot (.logical operator.logical) inputs.length = true := by
  cases operator <;> cases takes <;> rfl

/-! ### When they are worth trying -/

/-- **An equality across two inputs** is found if there is one. -/
theorem hasEqualityAcross_iff (laid : memo.Laid) {left right : ColumnSet} {conjuncts : List GroupId}
    (inside : ∀ conjunct ∈ conjuncts, conjunct < memo.groups.size) {found : Bool}
    (done : hasEqualityAcross memo left right conjuncts = .ok found) :
    found = true ↔ ∃ conjunct ∈ conjuncts, memo.EquatesAcross left right conjunct := by
  induction conjuncts with
  | nil =>
    cases pure_eq_ok_iff.1 done
    simp
  | cons conjunct rest ih =>
    unfold hasEqualityAcross at done
    obtain ⟨columns, looked, done⟩ := bind_eq_ok_iff.1 done
    rw [List.exists_mem_cons_iff, laid.equatesAcross_iff (inside conjunct List.mem_cons_self), looked]
    have others := ih fun other member => inside other (List.mem_cons_of_mem _ member)
    cases columns with
    | none => simpa using others done
    | some pair =>
      obtain ⟨one, two⟩ := pair
      simp only at done
      split at done
      · rename_i across
        cases pure_eq_ok_iff.1 done
        simp [across]
      · rename_i across
        rw [others done]
        simp only [Except.ok.injEq, Option.some.injEq, Prod.mk.injEq]
        refine (or_iff_right ?_).symm
        rintro ⟨_, _, ⟨rfl, rfl⟩, meets⟩
        exact across meets

theorem outputColumns_eq (fresh : context.Fresh) {columns : ColumnSet}
    (read : outputColumns context id = .ok columns) : columns = (context.memo.scope id).columns := by
  obtain ⟨properties, known, same⟩ := bind_eq_ok_iff.1 read
  have relational : context.memo.Relational id := (Context.relationalProperties_cases known).1
  have inside := relational.inside
  have agrees := (fresh.profiled inside).relational known .outputColumns
  rw [← pure_eq_ok_iff.1 same]
  have scope := (Memo.Grows.refl context.memo).profile_scope fresh.valid fresh.valid context.catalog inside
  rw [← scope]
  exact agrees

/-- **A join is worth hashing** if it can be hashed. -/
theorem joinToHashJoin_worth_iff (fresh : context.Fresh) (laid : context.memo.Laid)
    (stored : context.memo.exprs[number]? = some source) {type : JoinType}
    (join : source.operator = .logical (.join type)) {promise : Promise}
    (judged : joinToHashJoin.promise context number = .ok promise) :
    promise ≠ .skip ↔ context.memo.CanHash source := by
  obtain ⟨left, right, predicate, shape, _, _, scalar⟩ := laid.logical fresh.valid.toLinked stored join
  obtain ⟨_, again, judged⟩ := bind_eq_ok_iff.1 judged
  obtain rfl := Option.some.inj (stored.symm.trans (Memo.expr_ok_iff.1 again))
  obtain ⟨_, one, judged⟩ := bind_eq_ok_iff.1 judged
  obtain ⟨_, two, judged⟩ := bind_eq_ok_iff.1 judged
  obtain ⟨_, three, judged⟩ := bind_eq_ok_iff.1 judged
  rw [Expr.child_ok_iff, shape] at one two three
  cases one
  cases two
  cases three
  obtain ⟨properties, known, judged⟩ := bind_eq_ok_iff.1 judged
  have subquery := fresh.hasSubquery_eq known
  have canHash : context.memo.CanHash source ↔ context.memo.hasSubquery predicate = false ∧
      ∃ conjunct ∈ context.memo.conjuncts predicate, context.memo.EquatesAcross
        (context.memo.scope left).columns (context.memo.scope right).columns conjunct := by
    unfold Memo.CanHash
    rw [shape]
    constructor
    · rintro ⟨_, _, _, same, holds⟩
      cases same
      exact holds
    · exact fun holds => ⟨left, right, predicate, rfl, holds⟩
  rw [canHash, ← subquery]
  split at judged
  · rename_i occurs
    cases pure_eq_ok_iff.1 judged
    simp [occurs]
  · rename_i free
    obtain ⟨leftColumns, leftKnown, judged⟩ := bind_eq_ok_iff.1 judged
    obtain ⟨rightColumns, rightKnown, judged⟩ := bind_eq_ok_iff.1 judged
    obtain ⟨found, looked, judged⟩ := bind_eq_ok_iff.1 judged
    have equality := hasEqualityAcross_iff laid
      (fresh.valid.conjuncts_inside scalar.inside) looked
    rw [outputColumns_eq fresh leftKnown, outputColumns_eq fresh rightKnown] at equality
    rw [← equality, and_iff_right (Bool.eq_false_iff.2 free)]
    cases found with
    | true =>
      cases pure_eq_ok_iff.1 judged
      simp
    | false =>
      cases pure_eq_ok_iff.1 judged
      simp

/-- **The rule is worth trying** on the expressions of which its operator is an image. -/
theorem forming_worth_iff (fresh : context.Fresh) (laid : context.memo.Laid)
    (stored : context.memo.exprs[number]? = some source)
    (shown : source.operator = .logical operator.logical) {promise : Promise}
    (judged : (forming operator).promise context number = .ok promise) :
    promise ≠ .skip ↔ context.memo.Image source operator := by
  rw [Memo.image_iff, and_iff_right shown]
  cases operator with
  | hashJoin type =>
    rw [joinToHashJoin_worth_iff fresh laid stored shown judged]
    exact ⟨fun canHash _ _ => canHash, fun canHash => canHash type rfl⟩
  | _ =>
    obtain rfl := Except.ok.inj judged
    exact iff_of_true (fun same => by cases same) fun _ same => by cases same

/-! ### What they propose -/

/-- **The rule proposes its operator** over all inputs, and nothing else. -/
theorem forming_proposes {binding : Binding} {proposals : List Proposal}
    (drawn : binding.Drawn memo (forming operator).pattern)
    (shown : binding.operator = .logical operator.logical)
    (done : (forming operator).transform context binding = .ok proposals) :
    proposals = [.overGroups (.physical operator) binding.childGroups] := by
  have substituted : ∀ {positions : List Nat}, positions = List.range binding.childGroups.length →
      (liftM (substitute operator binding positions) : Except Failure (List Proposal)) =
        .ok proposals → proposals = [.overGroups (.physical operator) binding.childGroups] := by
    intro positions all done
    obtain ⟨groups, given, done⟩ := bind_eq_ok_iff.1 (lift_fault_eq_ok_iff.1 done)
    rw [← pure_eq_ok_iff.1 done, childGroups_of_mapM all given]
  cases operator with
  | tableScan table columns =>
    have none : binding.childGroups = [] := List.length_eq_zero_iff.1 (length_childGroups drawn)
    simp only [forming, getToTableScan, shown, PhysicalOp.logical] at done
    rw [← pure_eq_ok_iff.1 done, none]
  | filter =>
    simp only [forming, selectToFilter, shown, PhysicalOp.logical] at done
    exact (pure_eq_ok_iff.1 done).symm
  | computeScalar =>
    simp only [forming, projectToComputeScalar, shown, PhysicalOp.logical] at done
    exact (pure_eq_ok_iff.1 done).symm
  | limit offset count =>
    simp only [forming, limitToLimit, shown, PhysicalOp.logical] at done
    exact (pure_eq_ok_iff.1 done).symm
  | hashAggregate keys =>
    simp only [forming, aggregateToHashAggregate, shown, PhysicalOp.logical] at done
    exact substituted (by rw [length_childGroups drawn]; rfl) done
  | hashJoin type =>
    simp only [forming, joinToHashJoin, joinType?_eq_some_iff.2 shown] at done
    exact substituted (by rw [length_childGroups drawn]; rfl) done
  | nestedLoopJoin type =>
    simp only [forming, joinToNestedLoop, joinType?_eq_some_iff.2 shown] at done
    exact substituted (by rw [length_childGroups drawn]; rfl) done

/-- What a rule substitutes is its operator over some groups. -/
theorem operator_of_substitute {binding : Binding} {positions : List Nat} {proposals : List Proposal}
    (done : (liftM (substitute operator binding positions) : Except Failure (List Proposal)) =
      .ok proposals) {kind : Operator} {groups : List GroupId}
    (member : .overGroups kind groups ∈ proposals) : kind = .physical operator := by
  obtain ⟨_, _, done⟩ := bind_eq_ok_iff.1 (lift_fault_eq_ok_iff.1 done)
  rw [← pure_eq_ok_iff.1 done] at member
  exact (Proposal.overGroups_inj (List.mem_singleton.1 member)).1

/-- **No other rule proposes a physical operator** than the one behind it, and it does so for the
logical operator that the physical one implements. -/
theorem exists_forming {rule : Rule} (listed : rule ∈ implementing) {binding : Binding}
    {proposals : List Proposal} (done : rule.transform context binding = .ok proposals)
    {kind : Operator} {groups : List GroupId} (member : .overGroups kind groups ∈ proposals) :
    ∃ operator, kind = .physical operator ∧ rule = forming operator ∧
      binding.operator = .logical operator.logical := by
  have only : ∀ {operator : PhysicalOp} {others : List GroupId},
      (pure [.overGroups (.physical operator) others] : Except Failure (List Proposal)) =
        .ok proposals → kind = .physical operator := by
    intro operator others done
    rw [← pure_eq_ok_iff.1 done] at member
    exact (Proposal.overGroups_inj (List.mem_singleton.1 member)).1
  have nothing : (pure [] : Except Failure (List Proposal)) = .ok proposals → False := by
    intro done
    rw [← pure_eq_ok_iff.1 done] at member
    cases member
  simp only [implementing, List.mem_cons, List.not_mem_nil, or_false] at listed
  rcases listed with rfl | rfl | rfl | rfl | rfl | rfl | rfl
  · simp only [getToTableScan] at done
    split at done
    · rename_i table columns shown
      exact ⟨.tableScan table columns, only done, rfl, shown⟩
    · exact (nothing done).elim
  · simp only [selectToFilter] at done
    split at done
    · rename_i shown
      exact ⟨.filter, only done, rfl, shown⟩
    · exact (nothing done).elim
  · simp only [projectToComputeScalar] at done
    split at done
    · rename_i shown
      exact ⟨.computeScalar, only done, rfl, shown⟩
    · exact (nothing done).elim
  · simp only [limitToLimit] at done
    split at done
    · rename_i offset count shown
      exact ⟨.limit offset count, only done, rfl, shown⟩
    · exact (nothing done).elim
  · simp only [joinToHashJoin] at done
    split at done
    · rename_i type shown
      exact ⟨.hashJoin type, operator_of_substitute done member, rfl, joinType?_eq_some_iff.1 shown⟩
    · exact (nothing done).elim
  · simp only [joinToNestedLoop] at done
    split at done
    · rename_i type shown
      exact ⟨.nestedLoopJoin type, operator_of_substitute done member, rfl,
        joinType?_eq_some_iff.1 shown⟩
    · exact (nothing done).elim
  · simp only [aggregateToHashAggregate] at done
    split at done
    · rename_i keys shown
      exact ⟨.hashAggregate keys, operator_of_substitute done member, rfl, shown⟩
    · exact (nothing done).elim

end Rule

end Cascades
