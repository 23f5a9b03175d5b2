/-
**The first round of a request.**

In the memo of a request the join of all tables is the only expression that a rule can explore. Its
expansion joins the tables one by one, each join above the one before. Joins are inserted from below, so
every join there is lies below the next one, and the last of them is new: it gets into the group of the
root.

* `Rising`: no join of a memo is above some group; `materialize_rising`: the topmost join of a linear
  tree is the last one;
* `Unjoined.insertProposal_expands`: an expansion gets into the group that it is for;
* `Origin.eq_expandNaryJoin`: nothing else is tried in the first round;
* `Origin.round_expands`, `Origin.exists_member`: the root gets another member, and keeps it.
-/

import Cascades.Proofs.Gathering.Expansion
import Cascades.Proofs.Gathering.Rearranging
import Cascades.Proofs.JoinRequest.Origin
import Cascades.Proofs.Search.Planning

namespace Cascades

namespace Memo

variable {memo next : Memo} {id : GroupId}

/-! ### Joins from below -/

/-- Every expression has a group of its own, and no join is above some group. -/
structure Rising (memo : Memo) (bound : GroupId) : Prop where
  valid : memo.Valid
  flat : memo.Flat
  joins : ∀ {number : ExprId} {expr : Expr}, memo.exprs[number]? = some expr →
    expr.operator = Rule.innerJoin → expr.group ≤ bound

namespace Rising

/-- A join over the topmost group is new. -/
theorem lookup_eq_none (rising : memo.Rising id) {rest : List GroupId} :
    memo.lookup Rule.innerJoin (id :: rest) = none := by
  cases found : memo.lookup Rule.innerJoin (id :: rest) with
  | none => rfl
  | some number =>
    obtain ⟨expr, stored, equal, shape⟩ := rising.valid.lookup_eq_some_iff.1 found
    have below := rising.joins stored (Operator.eq_of_beq equal rfl)
    have above : id < expr.group :=
      rising.valid.older stored (rising.flat number expr stored) (shape ▸ List.mem_cons_self)
    exact absurd below (Nat.not_le.2 above)

/-- Joins stay where they are when other expressions are inserted. -/
theorem insert_other (rising : memo.Rising id) {operator : Operator} {children : List GroupId}
    {number : ExprId} (other : operator ≠ Rule.innerJoin)
    (done : memo.insert operator children = .ok (number, next)) : next.Rising id where
  valid := (insert_keeps done rising.valid).1
  flat := insert_flat rising.flat done
  joins stored join := by
    rcases stored_insert done stored with before | ⟨same, _⟩
    · exact rising.joins before join
    · exact absurd (same.symm.trans join) other

/-- A join over the topmost group is the topmost one then. -/
theorem insert_join (rising : memo.Rising id) {rest : List GroupId} {number : ExprId} {expr : Expr}
    (done : memo.insert Rule.innerJoin (id :: rest) = .ok (number, next))
    (stored : next.exprs[number]? = some expr) : next.Rising expr.group := by
  obtain ⟨inside, ⟨found, _⟩ | ⟨_, _, rfl, shape⟩⟩ := insert_cases done
  · rw [rising.lookup_eq_none] at found
    cases found
  · have last : expr.group = memo.groups.size := by
      rcases stored_insert done stored with before | ⟨_, _, _, same⟩
      · exact absurd (lt_of_expr before) (Nat.lt_irrefl _)
      · exact same
    refine ⟨(insert_keeps done rising.valid).1, insert_flat rising.flat done, fun found join => ?_⟩
    rw [last]
    rcases stored_insert done found with before | ⟨_, _, _, same⟩
    · exact (rising.joins before join).trans (inside id List.mem_cons_self).le
    · exact same.le

theorem materialize_conjunction (rising : memo.Rising id) {conjuncts : List GroupId}
    {predicate : GroupId} (done : memo.materialize (.conjunction conjuncts) = .ok (predicate, next)) :
    next.Rising id := by
  have inserted : ∀ {operator : ScalarOp} {children : List GroupId},
      memo.materialize (.overGroups (.scalar operator) children) = .ok (predicate, next) →
        next.Rising id := by
    intro operator children done
    obtain ⟨⟨ids, middle⟩, below, done⟩ := bind_eq_ok_iff.1 done
    obtain ⟨⟨number, last⟩, one, done⟩ := bind_eq_ok_iff.1 done
    obtain ⟨expr, _, done⟩ := bind_eq_ok_iff.1 done
    cases pure_eq_ok_iff.1 done
    rw [materializeAll_groups] at below
    cases below
    have other : Operator.scalar operator ≠ Rule.innerJoin := nofun
    exact rising.insert_other other one
  rcases conjuncts with _ | ⟨single, _ | ⟨second, rest⟩⟩
  · exact @inserted _ [] done
  · cases pure_eq_ok_iff.1 done
    exact rising
  · exact inserted done

end Rising

/-! ### Linear trees -/

section Tree

variable {graph : JoinGraph} {inputs : List GroupId}

/-- The inputs of a join that is inserted: those of a tree, a group, and a predicate. -/
theorem materializeAll_rising {left : Proposal} {leaf : GroupId} {conjuncts ids : List GroupId}
    (rises : ∀ {id : GroupId} {middle : Memo}, memo.materialize left = .ok (id, middle) →
      middle.Rising id)
    (done : memo.materializeAll [left, .group leaf, .conjunction conjuncts] = .ok (ids, next)) :
    ∃ id predicate, ids = [id, leaf, predicate] ∧ next.Rising id := by
  obtain ⟨⟨id, middle⟩, first, done⟩ := bind_eq_ok_iff.1 done
  obtain ⟨⟨others, last⟩, beside, same⟩ := bind_eq_ok_iff.1 done
  cases pure_eq_ok_iff.1 same
  obtain ⟨⟨_, _⟩, given, done⟩ := bind_eq_ok_iff.1 beside
  cases pure_eq_ok_iff.1 given
  obtain ⟨⟨more, _⟩, held, same⟩ := bind_eq_ok_iff.1 done
  cases pure_eq_ok_iff.1 same
  obtain ⟨⟨predicate, _⟩, conjunction, done⟩ := bind_eq_ok_iff.1 held
  obtain ⟨⟨_, _⟩, none, same⟩ := bind_eq_ok_iff.1 done
  cases pure_eq_ok_iff.1 none
  cases pure_eq_ok_iff.1 same
  exact ⟨id, predicate, rfl, (rises first).materialize_conjunction conjunction⟩

/-- **A linear tree of joins is inserted from below**: the topmost join is its last one. -/
theorem materialize_rising (joinless : ∀ {bound : GroupId}, memo.Rising bound)
    {joined : JoinGraph.Joined} (linear : graph.Linear joined)
    (done : memo.materialize (Rule.joinsOf graph inputs [] joined.tree) = .ok (id, next)) :
    next.Rising id := by
  induction linear generalizing id next with
  | single inside =>
    cases pure_eq_ok_iff.1 done
    exact joinless
  | @join left number first inside ih =>
    obtain ⟨⟨ids, middle⟩, below, done⟩ := bind_eq_ok_iff.1 done
    obtain ⟨⟨top, last⟩, one, done⟩ := bind_eq_ok_iff.1 done
    obtain ⟨expr, found, done⟩ := bind_eq_ok_iff.1 done
    cases pure_eq_ok_iff.1 done
    obtain ⟨under, predicate, rfl, rising⟩ := materializeAll_rising ih below
    exact rising.insert_join one (expr_ok_iff.1 found)

/-- What is put into a group where it was nowhere is a member of the group. -/
theorem exists_added {operator : Operator} {children : List GroupId} {target : GroupId}
    {number : ExprId} (absent : memo.lookup operator children = none)
    (done : memo.insertInto target operator children = .ok (number, next)) :
    ∃ expr, next.exprs[number]? = some expr ∧ expr.group = target ∧ expr.operator = operator := by
  obtain ⟨_, ⟨found, _⟩ | ⟨_, rfl, rfl, _⟩⟩ := insertInto_cases done
  · rw [absent] at found
    cases found
  · exact ⟨memo.added target operator children, stored_append_iff.2 (.inr ⟨rfl, rfl⟩), rfl, rfl⟩

/-- Every expression has a group of its own, and there are no joins of two inputs and no selections. -/
structure Unjoined (memo : Memo) : Prop where
  valid : memo.Valid
  flat : memo.Flat
  others : ∀ {number : ExprId} {expr : Expr}, memo.exprs[number]? = some expr →
    expr.operator ≠ Rule.innerJoin ∧ expr.operator ≠ .logical .select

namespace Unjoined

variable (unjoined : memo.Unjoined)
include unjoined

theorem rising {bound : GroupId} : memo.Rising bound where
  valid := unjoined.valid
  flat := unjoined.flat
  joins stored join := absurd join (unjoined.others stored).1

theorem lookup_select {children : List GroupId} :
    memo.lookup (.logical .select) children = none := by
  cases found : memo.lookup (.logical .select) children with
  | none => rfl
  | some number =>
    obtain ⟨expr, stored, equal, _⟩ := unjoined.valid.lookup_eq_some_iff.1 found
    exact absurd (Operator.eq_of_beq equal rfl) (unjoined.others stored).2

theorem mark (number : ExprId) (mark : Mark) : (memo.mark number mark).Unjoined where
  valid := (mark_keeps unjoined.valid).1
  flat other expr stored := unjoined.flat other expr (exprs_mark ▸ stored)
  others stored := unjoined.others (exprs_mark ▸ stored)

/-- **A linear tree of joins gets into the group that it is for.** -/
theorem insertProposal_joins
    {joined : JoinGraph.Joined} (linear : graph.Linear joined) (several : 2 ≤ joined.tree.leaves.length)
    {extra : List GroupId} {target : GroupId}
    (done : memo.insertProposal target (Rule.joinsOf graph inputs extra joined.tree) = .ok next) :
    ∃ (number : ExprId) (expr : Expr), next.exprs[number]? = some expr ∧ expr.group = target ∧
      expr.operator = Rule.innerJoin := by
  cases linear with
  | single inside => exact absurd several (Nat.not_succ_le_self 1)
  | @join left number first inside =>
    obtain ⟨⟨ids, middle⟩, below, done⟩ := bind_eq_ok_iff.1 done
    obtain ⟨⟨top, last⟩, one, done⟩ := bind_eq_ok_iff.1 done
    cases pure_eq_ok_iff.1 done
    obtain ⟨under, predicate, rfl, rising⟩ :=
      materializeAll_rising (fun done => materialize_rising unjoined.rising first done) below
    exact ⟨top, exists_added rising.lookup_eq_none one⟩

/-- **An expansion gets into the group that it is for.** -/
theorem insertProposal_expands {context : Context} {binding : Binding} {proposals : List Proposal}
    {proposal : Proposal} (transformed : Rule.expandNaryJoin.transform context binding = .ok proposals)
    (member : proposal ∈ proposals) {target : GroupId}
    (done : memo.insertProposal target proposal = .ok next) :
    ∃ (number : ExprId) (expr : Expr), next.exprs[number]? = some expr ∧ expr.group = target ∧
      expr.operator ≠ .logical .naryJoin := by
  obtain ⟨sources, predicate, _, _, ⟨input, rfl, rfl⟩ | ⟨several, graph, tree, drawn, ordered, rfl⟩⟩ :=
    Rule.expandNaryJoin_cases transformed member
  · obtain ⟨⟨ids, middle⟩, below, done⟩ := bind_eq_ok_iff.1 done
    obtain ⟨⟨top, last⟩, one, done⟩ := bind_eq_ok_iff.1 done
    cases pure_eq_ok_iff.1 done
    rw [materializeAll_groups] at below
    cases below
    obtain ⟨expr, stored, same, select⟩ := exists_added unjoined.lookup_select one
    exact ⟨top, expr, stored, same, select ▸ nofun⟩
  · have count : graph.components.length = sources.length := Rule.ofGroups_length drawn
    obtain ⟨left, right, _, _, linear, rfl, perm⟩ :=
      JoinGraph.greedyOrder_join (count ▸ several) ordered
    have leaves : 2 ≤ (graph.join left right).tree.leaves.length := by
      rw [perm.length_eq, List.length_range, count]
      exact several
    obtain ⟨number, expr, stored, same, join⟩ := unjoined.insertProposal_joins linear leaves done
    exact ⟨number, expr, stored, same, join ▸ nofun⟩

end Unjoined

end Tree

end Memo

/-! ### The round -/

namespace JoinQuery

open Memo

variable {query : JoinQuery} {next : Memo}

namespace Origin

variable (origin : query.Origin)
include origin

theorem unjoined : query.memo.Unjoined where
  valid := by
    obtain ⟨_, formed⟩ := origin.built.formed
    exact formed.toValid
  flat := origin.flat
  others stored := by
    rcases origin.cases stored with (scalar | ⟨_, _, get⟩) | ⟨nary, _⟩
    · refine ⟨fun join => ?_, fun select => ?_⟩
      · rw [join] at scalar
        cases scalar
      · rw [select] at scalar
        cases scalar
    · exact get ▸ ⟨nofun, nofun⟩
    · exact nary ▸ ⟨nofun, nofun⟩

/-- Only the expansion explores what there is at first. -/
theorem eq_expandNaryJoin {rule : Rule} (listed : rule ∈ Rule.standard)
    (explores : rule.kind = .exploration) {id : ExprId} {expr : Expr}
    (stored : query.memo.exprs[id]? = some expr) {operator : LogicalOp}
    (logical : expr.operator = .logical operator)
    (matching : rule.pattern.matchesRoot expr.operator expr.arity = true) :
    rule = Rule.expandNaryJoin ∧ expr.operator = .logical .naryJoin ∧ expr.group = query.root := by
  simp only [Rule.standard, List.mem_cons, List.not_mem_nil, or_false] at listed
  rcases origin.cases stored with (scalar | ⟨_, _, get⟩) | ⟨nary, same⟩
  · rw [logical] at scalar
    cases scalar
  · rw [get] at matching
    rcases listed with rfl | rfl | rfl | rfl | implements
    · cases matching
    · cases matching
    · cases matching
    · cases matching
    · rcases implements with rfl | rfl | rfl | rfl | rfl | rfl | rfl <;> cases explores
  · rw [nary] at matching
    rcases listed with rfl | rfl | rfl | rfl | implements
    · cases matching
    · cases matching
    · exact ⟨rfl, nary, same⟩
    · cases matching
    · rcases implements with rfl | rfl | rfl | rfl | rfl | rfl | rfl <;> cases explores

section Round

open Search

variable {config : Config} {start derived final : Search}

/-- The expansion of the join of all tables is to be tried at first. -/
theorem listed (same : derived.context.memo = query.memo) (standard : derived.rules = Rule.standard)
    (enabled : derived.config.isDisabled Rule.expandNaryJoin.name = false) {trials : List Trial}
    (tried : derived.trials .exploration query.root = .ok trials) :
    ∃ number, (number, Rule.expandNaryJoin) ∈ trials := by
  obtain ⟨breadth, formed⟩ := origin.built.formed
  obtain ⟨number, expr, stored, nary, inRoot⟩ := origin.root
  have several := two_le_arity formed stored nary
  have reaches : derived.context.memo.Below query.root number := by
    rw [same]
    exact Reaches.below formed.toLinked stored
      (inRoot ▸ (formed.toLinked.reaches_closed origin.relational).1) nary
  have known : Rule.expandNaryJoin ∈ derived.rules := by
    rw [standard]
    simp [Rule.standard]
  rw [← same] at stored
  have matching : Rule.expandNaryJoin.pattern.matchesRoot expr.operator expr.arity = true := by
    rw [nary]
    exact decide_eq_true (Nat.le_succ_of_le several)
  have fresh : derived.context.memo.isMarked number Rule.expandNaryJoin.mark = false := by
    rw [same]
    exact origin.built.isMarked_eq number _
  refine ⟨number, (mem_trials_iff tried).2 ⟨reaches, known, ?_, .high, ?_, by decide⟩⟩
  · exact ⟨rfl, ⟨expr, stored, matching⟩, enabled, fresh⟩
  · exact Rule.expandNaryJoin_promise stored several

/-- A trial that is carried out at first puts another member into the root. -/
theorem committed_expands (same : derived.context.memo = query.memo)
    (standard : derived.rules = Rule.standard) {trials : List Trial}
    (tried : derived.trials .exploration query.root = .ok trials) {trial : Trial}
    (member : trial ∈ trials) {proposals : List Proposal}
    (proposed : trial.2.proposals derived.context trial.1 = .ok proposals) {added : Nat}
    (committed : derived.Committed trial proposals added final) :
    ∃ (number : ExprId) (expr : Expr), final.context.memo.exprs[number]? = some expr ∧
      expr.group = query.root ∧ expr.operator ≠ .logical .naryJoin := by
  obtain ⟨id, rule⟩ := trial
  obtain ⟨breadth, formed⟩ := origin.built.formed
  obtain ⟨below, known, ⟨explores, ⟨expr, stored, matching⟩, _, _⟩, _⟩ := (mem_trials_iff tried).1 member
  obtain ⟨_, operator, again, logical⟩ := below.exists_logical
  rw [stored] at again
  cases again
  obtain ⟨again, memo, there, inserted, rfl⟩ := committed
  rw [stored] at there
  cases there
  rw [same] at stored inserted
  obtain ⟨rfl, nary, inRoot⟩ :=
    origin.eq_expandNaryJoin (standard ▸ known) explores stored logical matching
  have several := two_le_arity formed stored nary
  rw [← same] at formed stored
  -- There is a binding, so something is proposed.
  obtain ⟨binding, alternatives, _, _, shows, _, groups, transformed, inside⟩ :=
    exists_drawn formed.toValid formed.logicalFirst rfl (by decide) stored matching proposed
  have some : proposals ≠ [] := by
    obtain ⟨proposal, rfl⟩ :=
      Rule.expandNaryJoin_transform (shows.trans nary) (groups ▸ several) transformed
    exact List.ne_nil_of_mem (inside proposal List.mem_cons_self)
  obtain ⟨first, others, rfl⟩ := List.exists_cons_of_ne_nil some
  obtain ⟨binding, alternatives, _, _, transformed, member⟩ :=
    Rule.exists_of_proposals formed.toValid stored proposed List.mem_cons_self
  obtain ⟨grown, run, done⟩ := bind_eq_ok_iff.1 inserted
  cases pure_eq_ok_iff.1 done
  rw [List.foldlM_cons] at run
  obtain ⟨next, one, rest⟩ := bind_eq_ok_iff.1 run
  obtain ⟨added, form, there, target, plain⟩ :=
    (origin.unjoined.mark id _).insertProposal_expands transformed member one
  have valid := (insertProposal_keeps one (origin.unjoined.mark id _).valid).1
  have keeps : next.Keeps memo :=
    foldlM_relates Keeps.refl Keeps.trans (fun _ step => insertProposal_keeps step) rest
  exact ⟨added, form, (keeps valid).2.exprs there, target.trans inRoot, plain⟩

/-- **In the first round the root gets another member.** -/
theorem round_expands (same : start.context.memo = query.memo) (standard : start.rules = Rule.standard)
    (enabled : start.config.isDisabled Rule.expandNaryJoin.name = false)
    (positive : start.iterations < start.config.maxIterations) {more : Bool}
    (done : round .exploration query.root start = .ok (.ok more, final)) :
    ∃ (number : ExprId) (expr : Expr), final.context.memo.exprs[number]? = some expr ∧
      expr.group = query.root ∧ expr.operator ≠ .logical .naryJoin := by
  rcases round_cases done with ⟨_, aborted, _⟩ | ⟨derived, trials, derives, tried, rest⟩
  · cases aborted
  obtain ⟨memo, rules, enabled, room⟩ : derived.context.memo = query.memo ∧
      derived.rules = Rule.standard ∧ derived.config.isDisabled Rule.expandNaryJoin.name = false ∧
      derived.iterations < derived.config.maxIterations := by
    obtain ⟨context, kept, rfl⟩ := onContext_deriveAll derives
    exact ⟨kept.memo.trans same, standard, enabled, positive⟩
  obtain ⟨number, expands⟩ := origin.listed memo rules enabled tried
  rcases rest with ⟨rfl, _⟩ | ⟨results, count, _, proposed, commits, outcome⟩
  · cases expands
  obtain ⟨first, others, rfl⟩ := List.exists_cons_of_ne_nil (List.ne_nil_of_mem expands)
  obtain ⟨budget, left⟩ : ∃ budget, derived.config.maxIterations - derived.iterations = budget + 1 :=
    Nat.exists_eq_add_one.2 (Nat.sub_pos_of_lt room)
  rw [left, List.take_succ_cons] at proposed
  have heads := map_fst_results proposed
  obtain ⟨⟨trial, result⟩, later, rfl⟩ : ∃ result later, results = result :: later := by
    cases results with
    | nil => cases heads
    | cons result later => exact ⟨result, later, rfl⟩
  obtain ⟨rfl, _⟩ := List.cons.inj heads
  rcases commitAll_cons commits with ⟨_, _, rfl, _⟩ | ⟨proposals, added, next, rfl, committed, ends⟩
  · cases outcome
  have proposes := (mem_results proposed List.mem_cons_self).2
  obtain ⟨added, expr, stored, member⟩ :=
    origin.committed_expands memo rules tried List.mem_cons_self proposes committed
  have grows : next.context.memo.Grows final.context.memo := by
    rcases ends with ⟨_, _, rfl⟩ | ⟨_, others⟩
    · exact .refl _
    · let relation (one two : Search) : Prop := one.context.memo.Keeps two.context.memo
      have keeps : relation next final := commitAll_relates (fun _ => .refl _) (fun _ _ _ => .trans)
        (fun _ _ _ _ _ _ committed => committed.keeps) others
      exact (keeps (committed.keeps (memo ▸ origin.unjoined.valid)).1).2
  exact ⟨added, expr, grows.exprs stored, member⟩

/-- **After an exploration the root has another member** than the join of all tables. -/
theorem exists_member (enabled : config.isDisabled Rule.expandNaryJoin.name = false)
    (positive : 0 < config.maxIterations)
    (done : explore query.root (ofMemo query.memo query.catalog Rule.standard config) =
      .ok (.ok ⟨⟩, final)) :
    ∃ (number : ExprId) (expr : Expr), final.context.memo.exprs[number]? = some expr ∧
      expr.group = query.root ∧ expr.operator ≠ .logical .naryJoin := by
  let start := ofMemo query.memo query.catalog Rule.standard config
  have first : ∀ {more : Bool} {next : Search},
      round .exploration query.root start = .ok (.ok more, next) → _ := fun {more next} done =>
    origin.round_expands (show start.context.memo = query.memo from rfl) rfl enabled positive done
  rcases phase_cases done with one | ⟨next, one, others⟩
  · exact first one
  · obtain ⟨number, expr, stored, member⟩ := first one
    have distinct : Distinct start.rules := standard_distinct
    have early := round_accounts distinct origin.unjoined.valid one
    have late := rounds_accounts (early.rules ▸ distinct) early.valid others
    exact ⟨number, expr, late.grows.exprs stored, member⟩

end Round

end Origin

end JoinQuery

end Cascades
