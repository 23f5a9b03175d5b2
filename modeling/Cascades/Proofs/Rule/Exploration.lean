/-
**What exploring rules propose.**

On a formed memo all of whose properties are known, a rule judges every expression for which it has a
pattern, and what it proposes for a binding belongs into the group of the binding: it is over the same
tables.

* `Context.Ready`: such a memo with its properties; `Rule.Sure`: such a rule;
* `Sure.proposals`: all that a sure rule proposes for an expression;
* `joinCommutativity_sure`, `joinAssociativity_sure`, `pushSelectIntoJoin_sure`,
  `expandNaryJoin_sure`: the rules that explore.
-/

import Cascades.Proofs.Meaning.Expansion
import Cascades.Proofs.Memo.Formed
import Cascades.Proofs.Property.Completion

namespace Cascades

open Memo

variable {faulty : Fault → Prop} {memo : Memo} {breadth : GroupId → Breadth} {context : Context}

/-! ### Sure rules -/

/-- A formed memo, all of whose properties are known. -/
structure Context.Ready (context : Context) (breadth : GroupId → Breadth) : Prop where
  formed : context.memo.Formed breadth
  complete : ∀ id < context.memo.groups.size, context.Complete id

/-- **A sure rule** judges every expression for which it has a pattern, and what it proposes belongs
into the group of the expression. -/
structure Rule.Sure (faulty : Fault → Prop) (rule : Rule) : Prop where
  judges : ∀ {context : Context} {breadth : GroupId → Breadth} {id : ExprId} {expr : Expr},
    context.Ready breadth → context.memo.exprs[id]? = some expr →
      rule.pattern.matchesRoot expr.operator expr.arity = true →
        Ends faulty (rule.promise context id) fun _ => True
  proposes : ∀ {context : Context} {breadth : GroupId → Breadth} {binding : Binding},
    context.Ready breadth → binding.Drawn context.memo rule.pattern →
      Ends (Failure.Allowed faulty) (rule.transform context binding) fun proposals =>
        ∀ proposal ∈ proposals, context.memo.Suits breadth binding.group proposal

/-- **All that a sure rule proposes for an expression** belongs into the group of the expression. -/
theorem Rule.Sure.proposals {rule : Rule} (sure : rule.Sure faulty) (ready : context.Ready breadth)
    {id : ExprId} {expr : Expr} (stored : context.memo.exprs[id]? = some expr) :
    Ends (Failure.Allowed faulty) (rule.proposals context id) fun proposals =>
      ∀ proposal ∈ proposals, context.memo.Suits breadth expr.group proposal := by
  have valid := ready.formed.toValid
  unfold Rule.proposals Rule.proposalsOf
  have each : ∀ binding ∈ (Listing.ofExpr context.memo context.guard id rule.pattern).found,
      Ends (Failure.Allowed faulty) (do
        context.guard.check 0
        rule.transform context binding : Except Failure (List Proposal)) fun proposals =>
          ∀ proposal ∈ proposals, context.memo.Suits breadth expr.group proposal := by
    intro binding found
    obtain ⟨drawn, same, children, again, shown⟩ := Listing.drawn_ofExpr valid found
    rw [stored] at again
    cases again
    refine Ends.bind (Ends.lift_abort Guard.check_ends) fun _ _ => ?_
    have group : binding.group = expr.group := by
      rw [shown]
      rfl
    exact group ▸ sure.proposes ready drawn
  refine Ends.bind (Ends.mapM_all each) fun proposed suits => ?_
  have agrees : (Listing.ofExpr context.memo context.guard id rule.pattern).Agrees _ :=
    (Listing.agrees valid context.guard.room le_rfl).2 id rule.pattern (lt_of_expr stored)
  split
  · rename_i failure failed
    exact Ends.throw ((agrees.stopped failure failed).mono fun _ none => none.elim)
  · refine Ends.pure fun proposal member => ?_
    obtain ⟨some, listed, inside⟩ := List.mem_flatten.1 member
    exact suits some listed proposal inside

namespace Context.Ready

variable (ready : context.Ready breadth)
include ready

/-- The columns of a relation are known. -/
theorem outputColumns {id : GroupId} (relational : context.memo.Relational id) :
    Ends faulty (Rule.outputColumns context id) fun _ => True :=
  ((ready.complete id relational.inside).relationalProperties relational).returns

/-- The columns that a predicate depends on are known. -/
theorem usedColumns {id : GroupId} (scalar : context.memo.Scalar id) :
    Ends faulty (Rule.usedColumns context id) fun _ => True :=
  ((ready.complete id scalar.inside).scalarProperties scalar).returns

end Context.Ready

/-! ### Inputs of operators -/

/-- A group that stands for a relation over a number of tables. -/
structure Memo.Covers (memo : Memo) (breadth : GroupId → Breadth) (id : GroupId) (tables : Nat) :
    Prop where
  inside : id < memo.groups.size
  amount : breadth id = .relation tables

namespace Memo.Formed

variable (formed : memo.Formed breadth)
include formed

/-- What a join takes: two relations and a predicate. -/
theorem of_join {type : JoinType} {children : List GroupId} {result : Breadth}
    (inside : ∀ child ∈ children, child < memo.groups.size)
    (takes : (Operator.logical (.join type)).Takes (children.map breadth) result) :
    ∃ left right predicate low high, children = [left, right, predicate] ∧
      memo.Covers breadth left low ∧ memo.Covers breadth right high ∧ memo.Scalar predicate ∧
      result = .relation (low + high) := by
  generalize same : children.map breadth = inputs at takes
  cases takes with
  | logical takes =>
  cases takes with
  | @join _ low high =>
    obtain ⟨left, rest, rfl, first, same⟩ := List.map_eq_cons_iff.1 same
    obtain ⟨right, rest, rfl, second, same⟩ := List.map_eq_cons_iff.1 same
    obtain ⟨predicate, rest, rfl, third, same⟩ := List.map_eq_cons_iff.1 same
    obtain rfl := List.map_eq_nil_iff.1 same
    exact ⟨left, right, predicate, low, high, rfl, ⟨inside left (by simp), first⟩,
      ⟨inside right (by simp), second⟩, formed.scalar_of_breadth (inside predicate (by simp)) third,
      rfl⟩

/-- What a selection takes: a relation over as many tables and a predicate. -/
theorem of_select {children : List GroupId} {result : Breadth}
    (inside : ∀ child ∈ children, child < memo.groups.size)
    (takes : (Operator.logical .select).Takes (children.map breadth) result) :
    ∃ input predicate, children = [input, predicate] ∧ breadth input = result ∧
      memo.Scalar predicate := by
  generalize same : children.map breadth = inputs at takes
  cases takes with
  | logical takes =>
  cases takes with
  | select =>
    obtain ⟨input, rest, rfl, first, same⟩ := List.map_eq_cons_iff.1 same
    obtain ⟨predicate, rest, rfl, second, same⟩ := List.map_eq_cons_iff.1 same
    obtain rfl := List.map_eq_nil_iff.1 same
    exact ⟨input, predicate, rfl, first,
      formed.scalar_of_breadth (inside predicate (by simp)) second⟩

/-- What a join of many inputs takes: at least one relation and a predicate. -/
theorem of_naryJoin {children : List GroupId} {result : Breadth}
    (inside : ∀ child ∈ children, child < memo.groups.size)
    (takes : (Operator.logical .naryJoin).Takes (children.map breadth) result) :
    ∃ sources predicate, children = sources ++ [predicate] ∧ sources ≠ [] ∧
      (∀ source ∈ sources, memo.Relational source) ∧ memo.Scalar predicate ∧
      result = .relation (sources.map fun source => (breadth source).tables).sum := by
  generalize same : children.map breadth = inputs at takes
  cases takes with
  | logical takes =>
  cases takes with
  | @naryJoin counts some =>
    obtain ⟨sources, rest, rfl, first, last⟩ := List.map_eq_append_iff.1 same
    obtain ⟨predicate, rest, rfl, second, none⟩ := List.map_eq_cons_iff.1 last
    obtain rfl := List.map_eq_nil_iff.1 none
    have tables : counts = sources.map fun source => (breadth source).tables := by
      have all := congrArg (List.map Breadth.tables) first
      rw [List.map_map, List.map_map] at all
      exact ((List.map_id counts).symm.trans all.symm)
    refine ⟨sources, predicate, rfl, ?_, fun source member => ?_,
      formed.scalar_of_breadth (inside predicate (by simp)) second, by rw [tables]⟩
    · rintro rfl
      exact some (List.map_eq_nil_iff.1 first.symm)
    · have among : breadth source ∈ counts.map Breadth.relation :=
        first ▸ List.mem_map_of_mem member
      obtain ⟨count, _, equal⟩ := List.mem_map.1 among
      exact formed.relational_of_breadth (inside source (by simp [member])) equal.symm

/-- The conjuncts of a predicate are predicates. -/
theorem conjuncts {predicate : GroupId} (scalar : memo.Scalar predicate) :
    ∀ conjunct ∈ memo.conjuncts predicate, memo.Scalar conjunct :=
  have laid : memo.Laid := formed.laid
  laid.conjuncts scalar

end Memo.Formed

/-! ### Proposed joins -/

namespace Memo

theorem Covers.relational {id : GroupId} {tables : Nat} (covers : memo.Covers breadth id tables)
    (formed : memo.Formed breadth) : memo.Relational id :=
  formed.relational_of_breadth covers.inside covers.amount

/-- A relation among proposals. -/
theorem Amount.relation {id : GroupId} {tables : Nat} (covers : memo.Covers breadth id tables)
    {rest : List Proposal} {amounts : List Breadth} (others : Amount memo breadth rest amounts) :
    Amount memo breadth (.group id :: rest) (.relation tables :: amounts) :=
  covers.amount ▸ .group covers.inside others

/-- A predicate among proposals. -/
theorem Amount.predicate (formed : memo.Formed breadth) {id : GroupId} (scalar : memo.Scalar id)
    {rest : List Proposal} {amounts : List Breadth} (others : Amount memo breadth rest amounts) :
    Amount memo breadth (.group id :: rest) (.scalar :: amounts) :=
  formed.breadth_of_scalar scalar ▸ .group scalar.inside others

/-- A conjunction of predicates among proposals. -/
theorem Amount.conjunction (formed : memo.Formed breadth) {ids : List GroupId}
    (scalars : ∀ id ∈ ids, memo.Scalar id) {rest : List Proposal} {amounts : List Breadth}
    (others : Amount memo breadth rest amounts) :
    Amount memo breadth (.conjunction ids :: rest) (.scalar :: amounts) := by
  match ids with
  | [] => exact .node .nil (.scalar .constant) rfl nofun others
  | [single] => exact .predicate formed (scalars single List.mem_cons_self) others
  | first :: second :: more =>
    have values : (first :: second :: more).map breadth =
        List.replicate (first :: second :: more).length .scalar := by
      refine List.eq_replicate_iff.2 ⟨List.length_map _, fun value member => ?_⟩
      obtain ⟨id, listed, rfl⟩ := List.mem_map.1 member
      exact formed.breadth_of_scalar (scalars id listed)
    refine .node (Amount.groups fun id member => (scalars id member).inside) ?_ rfl nofun others
    rw [values]
    exact .scalar (.and _)

/-- A join of proposals with as many tables as a group belongs into the group. -/
theorem suits_join {target : GroupId} {type : JoinType} {children : List Proposal} {low high : Nat}
    (amount : Amount memo breadth children [.relation low, .relation high, .scalar])
    (whole : breadth target = .relation (low + high)) :
    Suits memo breadth target (.node (.logical (.join type)) children) :=
  .join amount (whole ▸ .logical .join)

end Memo

namespace Rule

/-! ### Bindings of joins -/

/-- A join that a binding shows: its relations and its predicate, and their numbers of tables. -/
structure Spans (memo : Memo) (breadth : GroupId → Breadth) (binding : Binding)
    (left right predicate : GroupId) (low high : Nat) : Prop where
  groups : binding.childGroups = [left, right, predicate]
  leftIs : memo.Covers breadth left low
  rightIs : memo.Covers breadth right high
  predicateIs : memo.Scalar predicate
  whole : breadth binding.group = .relation (low + high)

theorem exists_spans (formed : memo.Formed breadth) {binding : Binding} {patterns : List Pattern}
    {type : JoinType} (drawn : binding.Drawn memo (.logical .join patterns))
    (operator : binding.operator = .logical (.join type)) :
    ∃ left right predicate low high, Spans memo breadth binding left right predicate low high := by
  obtain ⟨id, expr, stored, shown, named, groups, _⟩ := drawn.inner rfl
  have takes := (formed.seated stored).takes
  rw [← shown, operator] at takes
  obtain ⟨left, right, predicate, low, high, children, leftIs, rightIs, predicateIs, whole⟩ :=
    formed.of_join (fun child => formed.childExists stored) takes
  exact ⟨left, right, predicate, low, high, groups.trans children, leftIs, rightIs, predicateIs,
    named ▸ whole⟩

namespace Spans

variable {binding : Binding} {left right predicate : GroupId} {low high : Nat}
  (spans : Spans memo breadth binding left right predicate low high)
include spans

theorem childGroup_left : binding.childGroup 0 = .ok left :=
  Binding.childGroup_ok_iff.2 (by rw [spans.groups]; rfl)

theorem childGroup_right : binding.childGroup 1 = .ok right :=
  Binding.childGroup_ok_iff.2 (by rw [spans.groups]; rfl)

theorem childGroup_predicate : binding.childGroup 2 = .ok predicate :=
  Binding.childGroup_ok_iff.2 (by rw [spans.groups]; rfl)

end Spans

/-- **An inner join above an inner join** that a binding shows: the lower one is its left input. -/
theorem exists_nested (formed : memo.Formed breadth) {binding below : Binding}
    (drawn : binding.Drawn memo joinAssociativity.pattern)
    (given : childBinding binding 0 = .ok below) (operator : binding.operator = innerJoin)
    (operatorBelow : below.operator = innerJoin) :
    ∃ left right other predicate condition one two three four,
      below.Drawn memo (.overLeaves .join 3) ∧
      Spans memo breadth binding below.group other predicate three four ∧
      Spans memo breadth below left right condition one two := by
  obtain ⟨drawnBelow, first⟩ := drawn_below drawn rfl given
  obtain ⟨_, other, predicate, three, four, spans⟩ := exists_spans formed drawn operator
  obtain ⟨left, right, condition, one, two, spansBelow⟩ :=
    exists_spans formed drawnBelow operatorBelow
  rw [spans.groups] at first
  obtain rfl := Option.some.inj first
  exact ⟨left, right, other, predicate, condition, one, two, three, four, drawnBelow, spans,
    spansBelow⟩

/-! ### Exchange of inputs -/

theorem joinCommutativity_sure : joinCommutativity.Sure faulty where
  judges ready stored _ := by
    refine Ends.bind_ok (expr_ok_iff.2 stored) ?_
    split <;> exact Ends.pure trivial
  proposes {context breadth binding} ready drawn := by
    unfold joinCommutativity
    simp only
    split
    · rename_i type operator
      refine Ends.ite ?_ (Ends.pure (List.forall_mem_nil _))
      obtain ⟨left, right, predicate, low, high, spans⟩ :=
        exists_spans ready.formed drawn (joinType?_eq_some_iff.1 operator)
      refine Ends.bind_lift_ok spans.childGroup_right ?_
      refine Ends.bind_lift_ok spans.childGroup_left ?_
      refine Ends.bind_lift_ok spans.childGroup_predicate ?_
      refine Ends.pure fun proposal member => ?_
      rw [List.mem_singleton.1 member]
      have amount : Amount context.memo breadth [.group right, .group left, .group predicate]
          [.relation high, .relation low, .scalar] :=
        .relation spans.rightIs (.relation spans.leftIs
          (.predicate ready.formed spans.predicateIs .nil))
      exact suits_join amount (spans.whole.trans (by rw [Nat.add_comm]))
    · exact Ends.pure (List.forall_mem_nil _)

/-! ### Selections above joins -/

/-- There is a binding below the root for every child group. -/
theorem childBinding_ends {binding : Binding} {position : Nat} {id : GroupId}
    (place : binding.childGroups[position]? = some id) :
    Ends faulty (childBinding binding position) fun below =>
      binding.children[position]? = some below ∧ below.group = id := by
  rw [Binding.childGroups, List.getElem?_map, Option.map_eq_some_iff] at place
  obtain ⟨below, there, same⟩ := place
  unfold childBinding
  rw [there]
  exact Ends.pure ⟨rfl, same⟩

/-- The join of a selection above a join is over the tables of the selection. -/
theorem pushed_suits (formed : memo.Formed breadth) {binding : Binding} {target : GroupId}
    {left right predicate selected : GroupId} {low high : Nat}
    (spans : Spans memo breadth binding left right predicate low high)
    (selectedIs : memo.Scalar selected) (whole : breadth binding.group = breadth target) :
    Suits memo breadth target (.node innerJoin [.group left, .group right,
      .conjunction (memo.conjuncts predicate ++ memo.conjuncts selected)]) := by
  have scalars : ∀ conjunct ∈ memo.conjuncts predicate ++ memo.conjuncts selected,
      memo.Scalar conjunct :=
    List.forall_mem_append.2 ⟨formed.conjuncts spans.predicateIs, formed.conjuncts selectedIs⟩
  exact suits_join (.relation spans.leftIs (.relation spans.rightIs
    (.conjunction formed scalars .nil))) (whole.symm.trans spans.whole)

theorem pushSelectIntoJoin_sure : pushSelectIntoJoin.Sure faulty where
  judges _ _ _ := Ends.pure trivial
  proposes {context breadth binding} ready drawn := by
    have formed := ready.formed
    obtain ⟨id, expr, stored, shown, named, groups, root, under⟩ := drawn.inner rfl
    obtain ⟨_, arity⟩ := Pattern.matchesRoot_logical rfl root
    have nothing : ∀ proposal ∈ ([] : List Proposal),
        context.memo.Suits breadth binding.group proposal := List.forall_mem_nil _
    unfold pushSelectIntoJoin
    simp only
    split
    swap
    · exact Ends.pure nothing
    rename_i select
    have takes := (formed.seated stored).takes
    rw [← shown, select] at takes
    obtain ⟨input, selected, children, amount, selectedIs⟩ :=
      formed.of_select (fun child => formed.childExists stored) takes
    rw [children] at groups
    refine Ends.bind (Ends.lift (childBinding_ends (by rw [groups]; rfl))) fun below found => ?_
    obtain ⟨place, rfl⟩ := found
    have drawnBelow := under 0 below (.overLeaves .join 3) place (by rw [arity]; rfl)
    have outerGiven : binding.childGroup 1 = .ok selected :=
      Binding.childGroup_ok_iff.2 (by rw [groups]; rfl)
    cases type : joinType? below.operator with
    | none => exact Ends.pure nothing
    | some joined =>
      obtain ⟨left, right, predicate, low, high, spans⟩ :=
        exists_spans formed drawnBelow (joinType?_eq_some_iff.1 type)
      have pushed := pushed_suits formed spans selectedIs (amount.trans (congrArg _ named.symm))
      simp only [spans.childGroup_left, spans.childGroup_right, spans.childGroup_predicate, outerGiven]
      cases joined with
      | inner | cross => exact Ends.pure (List.forall_mem_singleton.2 pushed)
      | left | right | full | semi | anti => exact Ends.pure nothing

/-! ### Regrouping -/

/-- A regrouped join is over the same tables. -/
theorem regroup_suits (formed : memo.Formed breadth) {outerConjuncts : List (GroupId × ColumnSet)}
    {innerConjuncts : List GroupId} {stay moved other target : GroupId} {one two three : Nat}
    {movedColumns otherColumns : ColumnSet} {proposal : Proposal}
    (stays : memo.Covers breadth stay one) (moves : memo.Covers breadth moved two)
    (joins : memo.Covers breadth other three)
    (outer : ∀ conjunct ∈ outerConjuncts, memo.Scalar conjunct.1)
    (inner : ∀ conjunct ∈ innerConjuncts, memo.Scalar conjunct)
    (whole : breadth target = .relation (one + (two + three)))
    (done : regroup? outerConjuncts innerConjuncts stay moved other movedColumns otherColumns =
      some proposal) : Suits memo breadth target proposal := by
  obtain ⟨pushed, kept, split, _, rfl⟩ := regroup?_cases done
  obtain ⟨pushedAre, keptAre⟩ := regrouped_all split outer inner
  have below : Amount memo breadth [.group moved, .group other, .conjunction (pushed.map (·.1))]
      [.relation two, .relation three, .scalar] :=
    .relation moves (.relation joins (.conjunction formed pushedAre .nil))
  exact suits_join (.relation stays (.node below (.logical .join) rfl nofun
    (.conjunction formed keptAre .nil))) whole

theorem joinAssociativity_sure : joinAssociativity.Sure faulty where
  judges ready stored _ := by
    refine Ends.bind_ok (expr_ok_iff.2 stored) ?_
    split <;> exact Ends.pure trivial
  proposes {context breadth binding} ready drawn := by
    have formed := ready.formed
    obtain ⟨_, expr, _, _, _, groups, root, under⟩ := drawn.inner rfl
    obtain ⟨_, arity⟩ := Pattern.matchesRoot_logical rfl root
    obtain ⟨input, first⟩ : ∃ input, binding.childGroups[0]? = some input := by
      have some : 0 < expr.children.length := by
        rw [show expr.children.length = 3 from arity]
        decide
      rw [groups]
      exact ⟨_, List.getElem?_eq_getElem some⟩
    unfold joinAssociativity
    simp only
    refine Ends.bind (Ends.lift (childBinding_ends first)) fun below found => ?_
    obtain ⟨place, rfl⟩ := found
    split
    · exact Ends.pure (List.forall_mem_nil _)
    rename_i both
    simp only [Bool.or_eq_true, bne_iff_ne, not_or, not_not] at both
    have drawnBelow := under 0 below (.overLeaves .join 3) place (by rw [arity]; rfl)
    obtain ⟨source, other, outerPredicate, all, three, outer⟩ :=
      exists_spans formed drawn (joinType?_eq_some_iff.1 both.1)
    obtain ⟨left, right, innerPredicate, one, two, inner⟩ :=
      exists_spans formed drawnBelow (joinType?_eq_some_iff.1 both.2)
    -- The left input of the outer join is the inner one.
    obtain rfl : source = below.group := by
      rw [outer.groups] at first
      exact Option.some.inj first
    have sum : all = one + two := Breadth.relation.inj (outer.leftIs.amount.symm.trans inner.whole)
    refine Ends.bind_lift_ok inner.childGroup_left ?_
    refine Ends.bind_lift_ok inner.childGroup_right ?_
    refine Ends.bind_lift_ok outer.childGroup_right ?_
    refine Ends.bind (Ends.lift (ready.outputColumns (inner.leftIs.relational formed)))
      fun leftColumns _ => ?_
    refine Ends.bind (Ends.lift (ready.outputColumns (inner.rightIs.relational formed)))
      fun rightColumns _ => ?_
    refine Ends.bind (Ends.lift (ready.outputColumns (outer.rightIs.relational formed)))
      fun otherColumns _ => ?_
    refine Ends.bind_lift_ok outer.childGroup_predicate ?_
    have used : ∀ conjunct ∈ context.memo.conjuncts outerPredicate, Ends (Failure.Allowed faulty)
        (do return (conjunct, ← (usedColumns context conjunct : Except Fault ColumnSet)))
        fun entry => context.memo.Scalar entry.1 := by
      intro conjunct member
      have scalar := formed.conjuncts outer.predicateIs conjunct member
      exact Ends.bind (Ends.lift (ready.usedColumns scalar)) fun _ _ => Ends.pure scalar
    refine Ends.bind (Ends.mapM_all used) fun outerConjuncts outers => ?_
    refine Ends.bind_lift_ok inner.childGroup_predicate ?_
    have inners := formed.conjuncts inner.predicateIs
    refine Ends.pure fun proposal member => ?_
    rcases List.mem_append.1 member with member | member
    · exact regroup_suits formed inner.leftIs inner.rightIs outer.rightIs outers inners
        (by rw [outer.whole, sum, Nat.add_assoc]) (Option.mem_toList.1 member)
    · exact regroup_suits formed inner.rightIs inner.leftIs outer.rightIs outers inners
        (by rw [outer.whole, sum, Nat.add_comm one, Nat.add_assoc]) (Option.mem_toList.1 member)

/-! ### Expansion -/

/-- A join graph over some relations, all of whose predicates are predicates of the memo. -/
structure Draws (memo : Memo) (inputs : List GroupId) (graph : JoinGraph) : Prop where
  components : graph.components.length = inputs.length
  predicates : ∀ found ∈ graph.predicates, ∀ conjunct, found.group = some conjunct →
    memo.Scalar conjunct

/-- The join graph of relations and a predicate is found. -/
theorem ofGroups_ends (ready : context.Ready breadth) {inputs : List GroupId} {predicate : GroupId}
    (relational : ∀ input ∈ inputs, context.memo.Relational input)
    (scalar : context.memo.Scalar predicate) :
    Ends faulty (JoinGraph.ofGroups context inputs predicate) (Draws context.memo inputs) := by
  have formed := ready.formed
  have laid : context.memo.Laid := formed.laid
  have ⟨group, there, _⟩ := scalar
  have components : ∀ input ∈ inputs, Runs faulty (fun (_ : Statistics.Found) => True) (do
      let statistics ← Statistics.find context.memo context.catalog input
      let properties ← context.relationalProperties input
      return { group := some input, statistics, columns := properties .outputColumns } :
        Statistics.Finding JoinComponent) fun _ => True := by
    intro input member
    have relation := relational input member
    refine Runs.bind (Statistics.find_runs formed.toLinked laid formed.logicalFirst relation)
      fun statistics _ => ?_
    refine Runs.bind (Runs.lift ?_) fun properties (_ : True) => Runs.pure trivial
    exact (ready.complete input relation.inside).relationalProperties relation
  have predicates : ∀ conjunct ∈ context.memo.conjuncts predicate, Ends faulty (do
      let properties ← context.scalarProperties conjunct
      let equality ← context.memo.equalColumns? conjunct
      return { group := some conjunct, columns := properties .usedColumns, equality : JoinPredicate })
      fun found => ∀ conjunct, found.group = some conjunct → context.memo.Scalar conjunct := by
    intro conjunct member
    have value := formed.conjuncts scalar conjunct member
    refine Ends.bind ((ready.complete conjunct value.inside).scalarProperties value) fun _ _ => ?_
    refine Ends.bind (laid.equalColumns? value.inside) fun _ (_ : True) => Ends.pure fun _ same => ?_
    cases same
    exact value
  refine Ends.bind ((Runs.mapM components).run' trivial) fun found related => ?_
  refine Ends.bind_ok (group_ok_iff.2 there) ?_
  refine Ends.bind (Ends.mapM_all predicates) fun _ scalars => ?_
  exact Ends.pure ⟨related.length_eq.symm, scalars⟩

/-- The number of tables below some components. -/
def tablesAt (breadth : GroupId → Breadth) (inputs : List GroupId) (numbers : List Nat) : Nat :=
  ((inputsAt inputs numbers).map fun input => (breadth input).tables).sum

theorem tablesAt_append {inputs : List GroupId} {numbers more : List Nat} :
    tablesAt breadth inputs (numbers ++ more) =
      tablesAt breadth inputs numbers + tablesAt breadth inputs more := by
  unfold tablesAt
  rw [inputsAt_append, List.map_append, List.sum_append]

/-- The predicates that a join applies are predicates of the memo. -/
theorem Draws.scalars {graph : JoinGraph} {inputs : List GroupId} (draws : Draws memo inputs graph)
    (numbers : List Nat) {extra : List GroupId} (extras : ∀ conjunct ∈ extra, memo.Scalar conjunct) :
    ∀ conjunct ∈ graph.groupsOf numbers ++ extra, memo.Scalar conjunct := by
  refine List.forall_mem_append.2 ⟨fun conjunct member => ?_, extras⟩
  obtain ⟨_, _, found, there, named⟩ := JoinGraph.mem_groupsOf_iff.1 member
  exact draws.predicates found (List.mem_of_getElem? there) conjunct named

section Tree

variable {graph : JoinGraph} {inputs : List GroupId} (formed : memo.Formed breadth)
  (relational : ∀ input ∈ inputs, memo.Relational input) (draws : Draws memo inputs graph)
include formed relational draws

/-- **The joins for a tree** are over all tables of its components. -/
theorem amount_joinsOf {joined : JoinGraph.Joined} (built : graph.Built joined)
    {rest : List Proposal} {amounts : List Breadth} (others : Amount memo breadth rest amounts) :
    Amount memo breadth (joinsOf graph inputs [] joined.tree :: rest)
      (.relation (tablesAt breadth inputs joined.tree.leaves) :: amounts) := by
  induction built generalizing rest amounts with
  | @single number inside =>
    have bound : number < inputs.length := draws.components ▸ inside
    have there : inputs.getD number 0 ∈ inputs := by simp [bound]
    obtain ⟨tables, amount⟩ := formed.breadth_of_relational (relational _ there)
    have shown : tablesAt breadth inputs (graph.single number).tree.leaves = tables := by
      show (breadth (inputs.getD number 0)).tables + 0 = tables
      rw [amount]
      rfl
    exact shown ▸ .relation ⟨(relational _ there).inside, amount⟩ others
  | @join left right _ _ ihLeft ihRight =>
    have leaves : (graph.join left right).tree.leaves = left.tree.leaves ++ right.tree.leaves := rfl
    rw [leaves, tablesAt_append]
    have scalars := draws.scalars (graph.appliedAt left right) (List.forall_mem_nil _)
    exact .node (ihLeft (ihRight (.conjunction formed scalars .nil))) (.logical .join) rfl nofun others

/-- **The joins for a greedy order** are over all tables of the inputs. -/
theorem greedyOrder_suits {target : GroupId} (several : 2 ≤ inputs.length)
    (whole : breadth target = .relation (inputs.map fun input => (breadth input).tables).sum)
    {guard : Guard} {tree : JoinTree} (done : graph.greedyOrder guard = .ok tree) :
    Suits memo breadth target (joinsOf graph inputs (leftover graph tree) tree) := by
  obtain ⟨left, right, first, second, _, rfl, perm⟩ :=
    JoinGraph.greedyOrder_join (draws.components.symm ▸ several) done
  have leaves : (graph.join left right).tree.leaves = left.tree.leaves ++ right.tree.leaves := rfl
  have sum : tablesAt breadth inputs left.tree.leaves + tablesAt breadth inputs right.tree.leaves =
      (inputs.map fun input => (breadth input).tables).sum := by
    rw [← tablesAt_append, ← leaves]
    exact ((inputsAt_perm (draws.components ▸ perm)).map _).sum_eq
  have extras : ∀ conjunct ∈ leftover graph (graph.join left right).tree, memo.Scalar conjunct := by
    intro conjunct member
    obtain ⟨_, _, found, there, named⟩ := mem_leftover_iff.1 member
    exact draws.predicates found (List.mem_of_getElem? there) conjunct named
  have scalars := draws.scalars (graph.appliedAt left right) extras
  exact suits_join (amount_joinsOf formed relational draws first
    (amount_joinsOf formed relational draws second (.conjunction formed scalars .nil)))
    (whole.trans (by rw [sum]))

end Tree

theorem expandNaryJoin_sure : expandNaryJoin.Sure faulty where
  judges _ stored _ := (Ends.of_ok (expr_ok_iff.2 stored) rfl).returns
  proposes {context breadth binding} ready drawn := by
    have formed := ready.formed
    obtain ⟨id, expr, stored, shown, named, groups, _⟩ := drawn.inner rfl
    unfold expandNaryJoin
    simp only
    split
    · rename_i last first others operator reversed
      have seated := formed.seated stored
      have takes := seated.takes
      rw [← shown, operator] at takes
      obtain ⟨sources, predicate, shape, -, relational, scalar, whole⟩ :=
        formed.of_naryJoin (fun child => formed.childExists stored) takes
      rw [groups, shape, List.reverse_append, List.reverse_singleton, List.singleton_append,
        List.cons.injEq] at reversed
      obtain ⟨rfl, reversed⟩ := reversed
      rw [← reversed, List.reverse_reverse, named]
      split
      · rename_i input
        refine Ends.pure fun proposal member => ?_
        rw [List.mem_singleton.1 member]
        have inside : ∀ child ∈ [input, predicate], child ∈ expr.children := by
          rw [shape]
          simp
        obtain ⟨tables, amount⟩ := formed.breadth_of_relational (relational input (by simp))
        have same : breadth expr.group = .relation tables := by
          rw [whole, List.map_singleton, List.sum_singleton, amount]
          rfl
        refine .groups (fun child member => formed.childExists stored (inside child member)) ?_
          (fun child member => seated.older child (inside child member)) (fun physical => nomatch physical)
          nofun
        rw [List.map_cons, List.map_singleton, amount, same, formed.breadth_of_scalar scalar]
        exact .logical .select
      · rename_i several
        refine Ends.bind (Ends.lift (ofGroups_ends ready relational scalar)) fun graph draws => ?_
        have two : 2 ≤ sources.length := by
          match sources, several, reversed with
          | [], _, empty => cases empty
          | [input], one, _ => exact absurd rfl (one input)
          | _ :: _ :: _, _, _ => simp
        have some : graph.components ≠ [] := by
          rw [← List.length_pos_iff, draws.components]
          omega
        refine Ends.bind (Ends.lift_abort (JoinGraph.greedyOrder_ends some)) fun tree ordered => ?_
        refine Ends.pure fun proposal member => ?_
        rw [List.mem_singleton.1 member]
        exact greedyOrder_suits formed relational draws two whole ordered
    · exact Ends.pure (List.forall_mem_nil _)

/-- A join of many inputs is expanded if it has an input. -/
theorem expandNaryJoin_promise {id : ExprId} {expr : Expr}
    (stored : context.memo.exprs[id]? = some expr) (several : 2 ≤ expr.arity) :
    expandNaryJoin.promise context id = .ok .high := by
  have worth : (if 2 ≤ expr.arity then Promise.high else .skip) = .high := if_pos several
  exact bind_eq_ok_iff.2 ⟨expr, expr_ok_iff.2 stored, congrArg Except.ok worth⟩

/-- A binding of a join of many inputs has one expansion. -/
theorem expandNaryJoin_transform {binding : Binding} {proposals : List Proposal}
    (nary : binding.operator = .logical .naryJoin) (several : 2 ≤ binding.childGroups.length)
    (done : expandNaryJoin.transform context binding = .ok proposals) :
    ∃ proposal, proposals = [proposal] := by
  obtain ⟨predicate, first, others, reversed⟩ :
      ∃ predicate first others, binding.childGroups.reverse = predicate :: first :: others := by
    rw [← List.length_reverse] at several
    match binding.childGroups.reverse, several with
    | predicate :: first :: others, _ => exact ⟨predicate, first, others, rfl⟩
  unfold expandNaryJoin at done
  simp only [nary, reversed] at done
  split at done
  · exact ⟨_, (pure_eq_ok_iff.1 done).symm⟩
  · obtain ⟨graph, _, done⟩ := bind_eq_ok_iff.1 done
    obtain ⟨tree, _, done⟩ := bind_eq_ok_iff.1 done
    exact ⟨_, (pure_eq_ok_iff.1 done).symm⟩

end Rule

end Cascades
