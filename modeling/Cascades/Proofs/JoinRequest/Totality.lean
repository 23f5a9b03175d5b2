/-
**Every request that can be loaded is answered.**

The answer fails only as it may: the guard stops the search, or no plan is found. Every plan is over
scans, filters and joins, so it has a tree.

* `exists_treeOf`: a plan of scans, filters and joins has a tree;
* `optimize_ends`: the search of a request does not go wrong;
* `optimize_plans`: it finds a plan where all rules are enabled and no limit is reached;
* `JoinRequest.answer_total`: what the answer to a request may be.
-/

import Cascades.Proofs.JoinRequest.Answer
import Cascades.Proofs.JoinRequest.FirstRound
import Cascades.Proofs.Search.Evidence

namespace Cascades

open Memo

/-! ### Trees of plans -/

namespace Memo

variable {memo : Memo} {breadth : GroupId → Breadth} {number : ExprId} {expr : Expr}

theorem relationalChildren_eq {children : List GroupId} {predicate : GroupId}
    (shape : expr.children = children ++ [predicate])
    (relational : ∀ child ∈ children, memo.Relational child) (scalar : memo.Scalar predicate) :
    memo.relationalChildren expr = children := by
  have relations : children.filter (fun child => !memo.isScalarGroup child) = children :=
    List.filter_eq_self.2 fun child member => by rw [(relational_iff.1 (relational child member)).2]; rfl
  rw [relationalChildren, shape, List.filter_append, relations]
  simp [scalar_iff.1 scalar]

/-- A physical expression has the children that its operator takes. -/
theorem Formed.physicalLayout (formed : memo.Formed breadth) (stored : memo.exprs[number]? = some expr)
    {operator : PhysicalOp} (physical : expr.operator = .physical operator) :
    memo.LogicalLayout expr.children operator.logical := by
  obtain ⟨other, sibling, found, logical, same, _⟩ := (formed.seated stored).logical physical
  exact same ▸ Laid.logical formed.toLinked formed.laid found logical

end Memo

namespace JoinQuery

variable (query : JoinQuery) {memo next : Memo} {breadth : GroupId → Breadth}

theorem exists_conditions (formed : memo.Formed breadth) (grows : memo.Grows next)
    {predicate : GroupId} (scalar : memo.Scalar predicate) (leftTables : List String) :
    ∃ conditions, query.conditions next predicate leftTables = .ok conditions := by
  have valid := formed.toValid
  have inside := valid.conjuncts_inside scalar.inside
  have each : ∀ conjunct ∈ memo.conjuncts predicate, ∃ pair,
      memo.equalColumns? conjunct = .ok pair := by
    intro conjunct member
    have ends : Ends (fun _ => False) (memo.equalColumns? conjunct) _ :=
      Laid.equalColumns? formed.laid (inside conjunct member)
    cases found : memo.equalColumns? conjunct with
    | ok pair => exact ⟨pair, rfl⟩
    | error cause =>
      rw [found] at ends
      exact ends.elim
  obtain ⟨pairs, found⟩ := mapM_total each
  have equalities : memo.equalities (memo.conjuncts predicate) = .ok (pairs.filterMap id) := by
    unfold Memo.equalities
    rw [found]
    rfl
  unfold conditions
  rw [grows.conjuncts_eq valid scalar.inside, grows.equalities_eq valid inside, equalities]
  exact ⟨_, rfl⟩

theorem exists_joinTree (formed : memo.Formed breadth) (grows : memo.Grows next) {number : ExprId}
    {expr : Expr} (stored : memo.exprs[number]? = some expr) {left right predicate : GroupId}
    (shape : expr.children = [left, right, predicate]) (scalar : memo.Scalar predicate)
    (algorithm : String) (leftTree rightTree : AnswerTree) :
    ∃ tree, query.joinTree next number algorithm leftTree rightTree = .ok tree := by
  obtain ⟨conditions, found⟩ := exists_conditions query formed grows scalar leftTree.tables
  have last : expr.child 2 = .ok predicate := Expr.child_ok_iff.2 (by rw [shape]; rfl)
  unfold joinTree
  rw [expr_ok_iff.2 (grows.exprs stored)]
  refine ⟨.join algorithm conditions leftTree rightTree, ?_⟩
  show (liftM (expr.child 2) >>= _ : Except RequestError AnswerTree) = _
  rw [last]
  show (liftM (query.conditions next predicate leftTree.tables) >>= _ :
    Except RequestError AnswerTree) = _
  rw [found]
  rfl

/-- **A plan of scans, filters and joins** has a tree. -/
theorem exists_treeOf {setting : Plan.Setting} {group : GroupId} {plan : Plan}
    (formed : setting.memo.Formed breadth) (grows : setting.memo.Grows next)
    (plain : ∀ {number : ExprId} {expr : Expr}, setting.memo.exprs[number]? = some expr →
      expr.operator.IsPlain)
    (planned : Plan.Tree setting group plan) : ∃ tree, query.treeOf next plan = .ok tree := by
  induction planned with
  | @member number expr operator output inputs plan stored physical _ count _ made ih =>
    obtain ⟨_, _, same⟩ := bind_eq_ok_iff.1 made
    obtain rfl := pure_eq_ok_iff.1 same
    have computes : expr.operator.logical? = some operator.logical := by rw [physical]; rfl
    have kind := plain stored _ computes
    have layout := formed.physicalLayout stored physical
    have joined : ∀ {type : JoinType} (algorithm : String), operator.logical = .join type →
        ∃ left right, inputs = [left, right] ∧ ∃ leftTree rightTree tree,
          query.treeOf next left = .ok leftTree ∧ query.treeOf next right = .ok rightTree ∧
          query.joinTree next number algorithm leftTree rightTree = .ok tree := by
      intro type algorithm join
      rw [join] at layout
      obtain ⟨left, right, predicate, shape, leftIs, rightIs, scalar⟩ := layout
      have below : setting.memo.relationalChildren expr = [left, right] :=
        relationalChildren_eq shape (by simp [leftIs, rightIs]) scalar
      rw [below] at count ih
      obtain ⟨first, second, rfl⟩ := List.length_eq_two.1 count.symm
      obtain ⟨leftTree, one⟩ := @ih left first (by simp)
      obtain ⟨rightTree, two⟩ := @ih right second (by simp)
      obtain ⟨tree, three⟩ :=
        exists_joinTree query formed grows stored shape scalar algorithm leftTree rightTree
      exact ⟨first, second, rfl, leftTree, rightTree, tree, one, two, three⟩
    cases operator with
    | tableScan table columns => exact ⟨_, rfl⟩
    | filter =>
      obtain ⟨input, predicate, shape, inputIs, scalar⟩ := layout
      have below : setting.memo.relationalChildren expr = [input] :=
        relationalChildren_eq shape (List.forall_mem_singleton.2 inputIs) scalar
      rw [below] at count ih
      obtain ⟨only, rfl⟩ := List.length_eq_one_iff.1 count.symm
      exact @ih input only (by simp)
    | hashJoin type =>
      obtain ⟨left, right, rfl, leftTree, rightTree, tree, one, two, three⟩ := joined "HASH" rfl
      refine ⟨tree, ?_⟩
      unfold treeOf
      rw [one, two]
      exact three
    | nestedLoopJoin type =>
      obtain ⟨left, right, rfl, leftTree, rightTree, tree, one, two, three⟩ := joined "NESTED_LOOP" rfl
      refine ⟨tree, ?_⟩
      unfold treeOf
      rw [one, two]
      exact three
    | _ =>
      rcases kind with joining | ⟨_, _, get⟩
      · cases joining
      · cases get

end JoinQuery

/-! ### Answers -/

namespace JoinQuery

open Search

variable {query : JoinQuery} {request : JoinRequest} {config : Config} {model : CostModel}

/-- **A search of a request** does not go wrong. -/
theorem optimize_ends (loads : ofRequest request = .ok query)
    (count : request.tables.length ≤ greatestCount) :
    ∃ outcome final,
      optimize model query.root (ofMemo query.memo query.catalog Rule.standard config) =
        .ok (outcome, final) ∧ Ends Abort.Stops outcome fun _ => True := by
  have origin := ofRequest_origin loads
  obtain ⟨breadth, formed⟩ := origin.built.formed
  let start := ofMemo query.memo query.catalog Rule.standard config
  let never (_ : Fault) : Prop := False
  have countable : Countable True never breadth query.memo := fun _ =>
    ⟨trivial, formed, fun id inside => (tables_le loads formed id inside).trans
      (Nat.max_le.2 ⟨by decide, count⟩)⟩
  have fresh : Follows True True start.context.memo start breadth start := .fresh origin.built formed
  have ends := optimize_follows countable Rule.standard_sure (fun _ => Rule.standard_rearranging)
    origin.relational model start fresh
  cases done : optimize model query.root start with
  | error cause =>
    rw [done] at ends
    exact ends.elim
  | ok ended =>
    rw [done] at ends
    exact ⟨ended.1, ended.2, rfl, ends⟩

/-- A search of a request that gives a result went through both phases. -/
theorem goesThrough_of_optimize (loads : ofRequest request = .ok query) {found : Option Plan}
    {final : Search}
    (done : optimize model query.root (ofMemo query.memo query.catalog Rule.standard config) =
      .ok (.ok found, final)) :
    ∃ breadth explored implemented,
      GoesThrough query.root breadth (ofMemo query.memo query.catalog Rule.standard config) explored
        implemented ∧
      implemented.cheapest? model query.root = .ok found ∧
      final = { implemented with
        context := { implemented.context with memo := implemented.context.memo.close } } := by
  have origin := ofRequest_origin loads
  obtain ⟨breadth, formed⟩ := origin.built.formed
  rcases optimize_cases done with ⟨_, same⟩ |
    ⟨explored, implemented, _, explores, implements, plans, same, rfl⟩
  · cases same
  cases same
  exact ⟨breadth, explored, implemented,
    ⟨formed, origin.built.isMarked_eq, rfl, origin.relational, explores, implements⟩, plans, rfl⟩

/-- Every plan of a request has a tree. -/
theorem exists_tree_of_optimize (loads : ofRequest request = .ok query) {plan : Plan} {final : Search}
    (done : optimize model query.root (ofMemo query.memo query.catalog Rule.standard config) =
      .ok (.ok (some plan), final)) :
    ∃ tree, query.treeOf final.context.memo plan = .ok tree := by
  obtain ⟨breadth, explored, implemented, through, plans, rfl⟩ := goesThrough_of_optimize loads done
  obtain ⟨later, develops⟩ := through.implemented_continues.develops
  have planned :=
    (right_of_cheapest through.implemented_continues through.relational plans).1.tree plan rfl
  -- Only scans, filters and joins are in the memo.
  obtain ⟨placed, conjuncts, holds⟩ :
      ∃ placed conjuncts, query.Holds (.ofTables fun _ _ => 0) False request placed conjuncts :=
    ofRequest_holds False.elim loads
  have unsearched := holds.loaded.unsearched
  have reached : Search.Reached _ implemented :=
    (Reached.start.phase through.explores).phase through.implements
  have gathered := reached.gathered
    (Context.coherent_of_sound unsearched.sound query.catalog { maxDepth := config.maxDepth })
    unsearched.gathered fun _ => id
  exact exists_treeOf query develops.formed (close_keeps develops.formed.toValid).2
    (fun stored => (gathered _ _ stored).plain) planned

/-- **A plan is found** where all rules are enabled and no limit is reached. -/
theorem optimize_plans (loads : ofRequest request = .ok query)
    (enabled : ∀ rule ∈ Rule.standard, config.isDisabled rule.name = false) {found : Option Plan}
    {final : Search}
    (done : optimize model query.root (ofMemo query.memo query.catalog Rule.standard config) =
      .ok (.ok found, final))
    (few : final.iterations < final.config.maxIterations) (room : final.isFull = false) :
    ∃ plan, found = some plan := by
  have origin := ofRequest_origin loads
  obtain ⟨_, _, implemented, through, _, same⟩ := goesThrough_of_optimize loads done
  have config : final.config = config := same ▸ through.implemented_config
  have finds := optimize_finds origin.built rfl enabled origin.relational
    (fun abort last _ stopped => by cases done.symm.trans stopped)
    fun outcome last again => by
      cases done.symm.trans again
      exact ⟨few, room⟩
  rcases finds with ⟨_, _, again, _, displaced⟩ | failed
  swap
  · cases done.symm.trans failed
  cases done.symm.trans again
  cases found with
  | some plan => exact ⟨plan, rfl⟩
  | none =>
    -- The join of all tables would be alone at the root, where there is another member.
    obtain ⟨explored, number, expr, explores, displaced⟩ := displaced rfl
    obtain ⟨added, member, stored, inRoot, other⟩ :=
      origin.exists_member (enabled _ (by simp [Rule.standard])) (Nat.zero_lt_of_lt (config ▸ few))
        explores
    refine absurd (displaced.alone added member stored ?_) other
    rcases origin.cases displaced.stored with (scalar | ⟨_, _, get⟩) | ⟨_, same⟩
    · rw [displaced.nary] at scalar
      cases scalar
    · cases displaced.nary.symm.trans get
    · exact inRoot.trans same.symm

end JoinQuery

namespace JoinRequest

open JoinQuery

variable {request : JoinRequest} {query : JoinQuery} {config : Config}

/-- The answer to a request is what a search of it ends with. -/
theorem answer_eq (loads : ofRequest request = .ok query) {outcome : Except Abort (Option Plan)}
    {final : Search}
    (done : Search.optimize (CardinalityModel.cost {}) query.root
      (.ofMemo query.memo query.catalog Rule.standard config) = .ok (outcome, final)) :
    request.answer config = match outcome with
      | .error abort => .error (.failed (.abort abort))
      | .ok none => .error .noPlan
      | .ok (some plan) => do
        return {
          tree := ← query.treeOf final.context.memo plan
          cost := plan.cost.total
          rows := plan.rows
          groups := final.context.memo.groups.size
          iterations := final.iterations } := by
  unfold answer
  rw [loads]
  simp only [bind, Except.bind, done]
  rcases outcome with abort | _ | plan <;> rfl

/-- **Every request that can be loaded is answered**, unless its search is stopped by the guard, or
finds no plan. Where all rules are enabled and the search is neither stopped nor reaches a limit, there
is an answer. As many tables as a request has can be counted. -/
theorem answer_total (config : Config) (loads : ofRequest request = .ok query)
    (count : request.tables.length ≤ greatestCount) :
    ((∃ answer, request.answer config = .ok answer) ∨ request.answer config = .error .noPlan ∨
      ∃ abort, abort.stopsSearch = true ∧ request.answer config = .error (.failed (.abort abort))) ∧
    ((∀ rule ∈ Rule.standard, config.isDisabled rule.name = false) →
      (∀ abort, request.answer config ≠ .error (.failed (.abort abort))) →
      (∀ outcome final,
        Search.optimize (CardinalityModel.cost {}) query.root
          (.ofMemo query.memo query.catalog Rule.standard config) = .ok (outcome, final) →
        final.iterations < final.config.maxIterations ∧ final.isFull = false) →
      ∃ answer, request.answer config = .ok answer) := by
  obtain ⟨outcome, final, done, ends⟩ := optimize_ends loads count
  have answered := answer_eq loads done
  have planned : ∀ plan, outcome = .ok (some plan) → ∃ answer, request.answer config = .ok answer := by
    rintro plan rfl
    obtain ⟨tree, shown⟩ := exists_tree_of_optimize loads done
    rw [answered]
    dsimp only
    rw [shown]
    exact ⟨_, rfl⟩
  rcases outcome with abort | _ | plan
  · exact ⟨.inr (.inr ⟨abort, ends, answered⟩), fun _ unstopped => absurd answered (unstopped abort)⟩
  · refine ⟨.inr (.inl answered), fun enabled _ unhit => ?_⟩
    obtain ⟨few, room⟩ := unhit _ _ done
    obtain ⟨_, found⟩ := optimize_plans loads enabled done few room
    cases found
  · have given := planned plan rfl
    exact ⟨.inl given, fun _ _ _ => given⟩

/-- Orders with a customer, who is compared with herself too, and a calendar beside them. -/
def ordersBesideDays : JoinRequest where
  tables := [
    { id := "orders", schema := "shop", name := "orders", rows := 100, size := none
      columns := [{ name := "customer", distinct := 10, nullFraction := 0, averageSize := 8 }] },
    { id := "customers", schema := "shop", name := "customers", rows := 0, size := none
      columns := [{ name := "id", distinct := 10, nullFraction := 0, averageSize := 8 }] },
    { id := "days", schema := "default", name := "days", rows := 365, size := none, columns := [] }]
  edges := [
    { leftTable := "orders", rightTable := "customers", joinType := "INNER"
      leftColumn := "customer", rightColumn := "id" },
    { leftTable := "customers", rightTable := "orders", joinType := "inner"
      leftColumn := "id", rightColumn := "customer" },
    { leftTable := "customers", rightTable := "customers", joinType := "INNER"
      leftColumn := "id", rightColumn := "id" }]

theorem answer_total_ordersBesideDays :
    ∃ query answer, ofRequest ordersBesideDays = .ok query ∧
      ordersBesideDays.tables.length ≤ greatestCount ∧ ordersBesideDays.answer {} = .ok answer := by
  have shown : (ofRequest ordersBesideDays).toOption.bind (fun query =>
      (Search.optimize (CardinalityModel.cost {}) query.root
        (.ofMemo query.memo query.catalog Rule.standard {})).toOption.map fun ended =>
          (ended.1.toOption.isSome,
            ended.2.iterations < ended.2.config.maxIterations && !ended.2.isFull)) =
      some (true, true) := by
    decide +kernel
  obtain ⟨query, given, shown⟩ := Option.bind_eq_some_iff.1 shown
  obtain ⟨⟨outcome, final⟩, ended, shown⟩ := Option.map_eq_some_iff.1 shown
  obtain ⟨succeeds, below⟩ := Prod.mk.inj shown
  have loads := toOption_eq_some_iff.1 given
  have done := toOption_eq_some_iff.1 ended
  have count : ordersBesideDays.tables.length ≤ greatestCount := by decide
  obtain ⟨few, room⟩ := Bool.and_eq_true_iff.1 below
  have unstopped : ∀ abort, ordersBesideDays.answer {} ≠ .error (.failed (.abort abort)) := by
    intro abort
    rw [answer_eq loads done]
    rcases outcome with cause | _ | plan
    · cases succeeds
    · exact fun same => nomatch same
    · obtain ⟨tree, given⟩ := exists_tree_of_optimize loads done
      dsimp only
      rw [given]
      exact fun same => nomatch same
  obtain ⟨answer, answered⟩ := (answer_total {} loads count).2 (fun _ _ => rfl) unstopped
    fun outcome final again => by
      cases done.symm.trans again
      exact ⟨of_decide_eq_true few, by simpa using room⟩
  exact ⟨query, answer, loads, count, answered⟩

end JoinRequest

end Cascades
