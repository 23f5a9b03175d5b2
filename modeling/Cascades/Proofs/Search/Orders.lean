/-
**Every join order is explored, or a proposal is missing.**

An exploration that reaches no limit applies commutativity and associativity to all joins below the
root. If the groups of the joins have all that is proposed, then for a tree of inner joins that the root
begins with, every nesting of its relations without a cross product can be chosen from the root. A
proposal may be missing, though: an expression that is there already stays in its own group, and two
groups that turn out to be one are never merged; and a rule is applied to an expression once, whatever
bindings come later. All nestings can be chosen then where some groups count as one, as far as these have
what is proposed.

* `Nests.of_grows`: a tree stays in a memo that grows; `Resolved.exists_group`: a proposal has its group;
* `Starts.exact`, `Finished.exact`: what the rules read when a round begins, and in the end;
* `proposes_again`: the two rules propose the same when a memo has grown;
* `Missing`: a proposal that the group of its join does not have;
* `exists_cause`: where it is then, or why it is nowhere;
* `explore_provides`: **every nesting is provided, or a proposal is missing**;
  `explore_misses_order`: one is missing where a join was inserted in either order.
-/

import Cascades.Proofs.Order.Placement
import Cascades.Proofs.Search.Exhaustion
import Cascades.Proofs.Search.Members
import Cascades.Proofs.Search.Reach

namespace Cascades

open Memo

/-! ### Memos that have grown -/

namespace Memo

variable {memo next : Memo} {conjunct first second id : GroupId} {relations one two : Finset GroupId}
  {nesting : Nesting} {conjuncts : List GroupId}

/-- The relations of a tree are relations, and its conjuncts are predicates. -/
theorem Nests.families (valid : memo.Valid) (laid : memo.Laid)
    (nests : memo.Nests id nesting conjuncts) :
    memo.Relational id ∧ (∀ relation ∈ nesting.whole, memo.Relational relation) ∧
      ∀ conjunct ∈ conjuncts, memo.Scalar conjunct := by
  induction nests with
  | relation relational =>
    refine ⟨relational, fun relation member => ?_, nofun⟩
    rwa [List.mem_singleton.1 (List.mem_toFinset.1 member)]
  | join has _ _ _ _ low high =>
    obtain ⟨_, _, scalar⟩ := has.families valid laid
    obtain ⟨_, expr, stored, operator, _, is⟩ := has
    refine ⟨is ▸ valid.relational_of_stored stored (operator ▸ rfl), fun relation member => ?_,
      fun conjunct member => ?_⟩
    · rw [Nesting.whole_join] at member
      exact (Finset.mem_union.1 member).elim (low.2.1 relation) (high.2.1 relation)
    · rcases List.mem_append.1 member with below | top
      · exact (List.mem_append.1 below).elim (low.2.2 conjunct) (high.2.2 conjunct)
      · exact laid.conjuncts scalar conjunct top

section Grows

variable (grows : memo.Grows next) (valid : memo.Valid) (later : next.Valid)
include grows valid later

/-- **A join is regrouped in the same way.** -/
theorem Grows.regrouping_eq {predicate condition stay moved other : GroupId}
    (inPredicate : predicate < memo.groups.size) (inCondition : condition < memo.groups.size)
    (inMoved : moved < memo.groups.size) (inOther : other < memo.groups.size) :
    Rule.regrouping? next predicate condition stay moved other =
      Rule.regrouping? memo predicate condition stay moved other := by
  have conjuncts : (memo.conjuncts predicate).map
        (fun conjunct => (conjunct, (next.scope conjunct).free)) =
      (memo.conjuncts predicate).map fun conjunct => (conjunct, (memo.scope conjunct).free) := by
    refine List.map_congr_left fun conjunct member => ?_
    rw [grows.scope_eq valid later (valid.conjuncts_inside inPredicate conjunct member)]
  unfold Rule.regrouping?
  rw [grows.conjuncts_eq valid inPredicate, grows.conjuncts_eq valid inCondition, conjuncts,
    grows.scope_eq valid later inMoved, grows.scope_eq valid later inOther]

variable (inside : ∀ relation ∈ relations, memo.Relational relation)
include inside

theorem Apart.of_grows (apart : memo.Apart relations) : next.Apart relations := by
  intro first here second there column inFirst inSecond
  rw [grows.scope_eq valid later (inside first here).inside] at inFirst
  rw [grows.scope_eq valid later (inside second there).inside] at inSecond
  exact apart first here second there column inFirst inSecond

theorem LinkedBy.of_grows (each : ∀ conjunct ∈ conjuncts, memo.Scalar conjunct) {other : Nesting}
    (among : other.whole ⊆ relations) (crossless : other.Crossless (memo.LinkedBy (· ∈ conjuncts))) :
    other.Crossless (next.LinkedBy (· ∈ conjuncts)) := by
  induction other with
  | relation => trivial
  | join left right low high =>
    obtain ⟨first, second, one, here, two, there, conjunct, known, links⟩ := crossless
    rw [Nesting.whole_join] at among
    have inLeft := Finset.union_subset_left among
    have inRight := Finset.union_subset_right among
    exact ⟨low inLeft first, high inRight second, one, here, two, there, conjunct, known,
      links.of_grows grows valid later (each conjunct known).inside (inside one (inLeft here)).inside
        (inside two (inRight there)).inside⟩

omit inside in
/-- **A tree stays** in a memo that grows. -/
theorem Nests.of_grows (laid : memo.Laid) (nests : memo.Nests id nesting conjuncts) :
    next.Nests id nesting conjuncts := by
  induction nests with
  | relation relational => exact .relation (relational.mono grows)
  | @join id left right predicate low high below beside has first second each across lower upper =>
    obtain ⟨_, _, scalar⟩ := has.families valid laid
    obtain ⟨number, expr, stored, operator, children, is⟩ := has
    have same : next.conjuncts predicate = memo.conjuncts predicate :=
      grows.conjuncts_eq valid scalar.inside
    have among : ∀ relation ∈ (Nesting.join low high).whole, memo.Relational relation := by
      intro relation member
      rw [Nesting.whole_join] at member
      exact (Finset.mem_union.1 member).elim ((first.families valid laid).2.1 relation)
        ((second.families valid laid).2.1 relation)
    have links : ∀ {conjunct one two : GroupId}, conjunct ∈ memo.conjuncts predicate →
        one ∈ (Nesting.join low high).whole → two ∈ (Nesting.join low high).whole →
          memo.Links conjunct one two → next.Links conjunct one two := fun listed inOne inTwo links =>
      links.of_grows grows valid later (laid.conjuncts scalar _ listed).inside (among _ inOne).inside
        (among _ inTwo).inside
    rw [← same]
    refine .join ⟨number, expr, grows.exprs stored, operator, children, is⟩ lower upper ?_ ?_
    · intro conjunct listed
      rw [same] at listed
      obtain ⟨one, here, two, there, different, between⟩ := each conjunct listed
      exact ⟨one, here, two, there, different, links listed here there between⟩
    · obtain ⟨conjunct, listed, one, here, two, there, between⟩ := across
      refine ⟨conjunct, same.symm ▸ listed, one, here, two, there, links listed ?_ ?_ between⟩
      · exact Nesting.whole_join ▸ Finset.mem_union_left _ here
      · exact Nesting.whole_join ▸ Finset.mem_union_right _ there

end Grows

/-! ### Proposals that are there -/

section Offers

variable {same : GroupId → GroupId → Prop}

theorem Offers.of_same (merging : memo.Merging same) {proposal : Proposal} {twin : GroupId}
    (is : same twin id) (offers : memo.Offers same proposal id) : memo.Offers same proposal twin := by
  cases proposal with
  | group => exact merging.trans is offers
  | node =>
    obtain ⟨number, expr, stored, here, rest⟩ := offers
    exact ⟨number, expr, stored, merging.trans is here, rest⟩

/-- A proposal that adds nothing has a group, which offers it. -/
theorem Resolved.exists_group (valid : memo.Valid) (self : ∀ id, same id id) {target : GroupId}
    {proposal : Proposal} (resolved : memo.Resolved target proposal) :
    ∃ elsewhere, memo.materialize proposal = .ok (elsewhere, memo) ∧
      memo.Offers same proposal elsewhere := by
  obtain ⟨elsewhere, done⟩ : ∃ elsewhere, memo.materialize proposal = .ok (elsewhere, memo) := by
    cases proposal with
    | group other => exact ⟨other, rfl⟩
    | node operator children =>
      obtain ⟨_, _, expr, _, _, _, _, done⟩ := resolved.exists_expr valid
      exact ⟨expr.group, done⟩
  exact ⟨elsewhere, done, materialize_offers valid self proposal done (.refl _)⟩

end Offers

end Memo

/-! ### What the rules read and propose -/

/-- **What the rules for joins propose** for a binding, they propose for it when the memo has grown. -/
theorem proposes_again {rule : Rule} (joins : rule ∈ [Rule.joinCommutativity, Rule.joinAssociativity])
    {context later : Context} {breadth : GroupId → Breadth} (formed : context.memo.Formed breadth)
    (after : later.memo.Valid) (exactly : context.Exact) (still : later.Exact)
    (grows : context.memo.Grows later.memo) {binding : Binding}
    (drawn : binding.Drawn context.memo rule.pattern) {alternatives : List Proposal}
    {proposal : Proposal} (done : rule.transform later binding = .ok alternatives)
    (member : proposal ∈ alternatives) :
    rule.transform context binding = .ok alternatives := by
  rcases List.mem_pair.1 joins with rfl | rfl
  · exact done
  have valid := formed.toValid
  have laid : context.memo.Laid := formed.laid
  obtain ⟨below, _, _, _, _, _, _, _, _, _, belowGiven, operator, operatorBelow, _⟩ :=
    Rule.joinAssociativity_cases done member
  obtain ⟨place, _⟩ := Rule.childBinding_cases belowGiven
  obtain ⟨left, right, other, predicate, condition, _, _, _, _, _, spans, spansBelow⟩ :=
    Rule.exists_nested formed drawn belowGiven operator operatorBelow
  have leftIs := spansBelow.leftIs.relational formed
  have rightIs := spansBelow.rightIs.relational formed
  have otherIs := spans.rightIs.relational formed
  have scalar := laid.conjuncts spans.predicateIs
  have same : later.memo.conjuncts predicate = context.memo.conjuncts predicate :=
    grows.conjuncts_eq valid spans.predicateIs.inside
  rw [Rule.joinAssociativity_transform still operator spans.groups place operatorBelow spansBelow.groups
    (leftIs.mono grows) (rightIs.mono grows) (otherIs.mono grows)
    fun conjunct listed => (scalar conjunct (same ▸ listed)).mono grows] at done
  rw [Rule.joinAssociativity_transform exactly operator spans.groups place operatorBelow
    spansBelow.groups leftIs rightIs otherIs scalar]
  rw [grows.regrouping_eq valid after spans.predicateIs.inside spansBelow.predicateIs.inside
      rightIs.inside otherIs.inside,
    grows.regrouping_eq valid after spans.predicateIs.inside spansBelow.predicateIs.inside
      leftIs.inside otherIs.inside] at done
  exact done

namespace Search

variable {start search derived final : Search} {first : Memo} {kind : RuleKind} {root : GroupId}

/-- **When a round begins**, all properties are known. -/
theorem Starts.ready (starts : Starts kind root search derived) (reshaped : Reshaped first search) :
    Reshaped first derived ∧ ∃ breadth, derived.context.Ready breadth := by
  induction starts with
  | first derives => exact ⟨reshaped.derive derives, reshaped.ready derives⟩
  | later done _ ih => exact ih (round_reshaped reshaped done)

theorem Starts.exact (starts : Starts kind root search derived) (reshaped : Reshaped first search) :
    derived.context.Exact := by
  obtain ⟨later, _, ready⟩ := starts.ready reshaped
  exact later.fresh.exact ready.complete

/-- **After a last round** all properties are known still. -/
theorem Finished.exact (finished : Finished kind root derived final) {breadth : GroupId → Breadth}
    (ready : derived.context.Ready breadth) (reshaped : Reshaped first final) : final.context.Exact := by
  refine reshaped.fresh.exact fun id inside => ?_
  rw [finished.groups] at inside
  obtain ⟨scalar, relational⟩ := ready.complete id inside
  unfold Scalar at scalar
  unfold Relational at relational
  refine ⟨fun is => ?_, fun is => ?_⟩
  · rw [finished.scalar_eq]
    exact scalar (finished.groups ▸ is)
  · rw [finished.facts]
    exact relational (finished.groups ▸ is)

/-! ### Missing proposals -/

variable {same : GroupId → GroupId → Prop} {rule : Rule} {binding : Binding} {proposal : Proposal}

/-- **Why the group of a join does not have a proposal** when an exploration has ended. -/
inductive Cause (start final : Search) (same : GroupId → GroupId → Prop) (root : GroupId) (rule : Rule)
    (binding : Binding) (proposal : Proposal) : Prop
  /-- The group is not below the root, it only counts as one with a group there. -/
  | unreached (away : ¬ final.context.memo.Reaches root binding.group)
  /-- The proposal is in the memo, but in a group that does not count as one with that of the join. -/
  | elsewhere {other : GroupId}
      (there : final.context.memo.materialize proposal = .ok (other, final.context.memo))
      (different : ¬ same other binding.group)
  /-- The rule was applied to the join before the exploration. -/
  | before (marked : start.context.memo.isMarked binding.expr rule.mark = true)
  /-- The rule was applied to the join in a round in which this binding was not there yet. -/
  | late {derived : Search} (starts : Starts .exploration root start derived)
      (applied : Applied .exploration root derived final binding.expr rule)
      (unlisted : binding ∉ (Listing.ofExpr derived.context.memo derived.context.guard binding.expr
        rule.pattern).found)

/-- **A missing proposal** of a rule for a join below a root, where some groups count as one: the group
of the join does not have it when an exploration has ended. -/
structure Missing (start final : Search) (same : GroupId → GroupId → Prop) (root : GroupId) (rule : Rule)
    (binding : Binding) (proposal : Proposal) : Prop where
  leads : final.context.memo.LeadsTo same root binding.group
  fits : binding.Fits final.context.memo same rule.pattern
  proposed : ∃ alternatives, rule.transform final.context binding = .ok alternatives ∧
    proposal ∈ alternatives
  absent : ¬ final.context.memo.Offers same proposal binding.group
  cause : Cause start final same root rule binding proposal

/-- What an applied rule proposes for a binding that was there adds nothing to the final memo. -/
theorem Applied.exists_resolved {id : ExprId} (applied : Applied kind root derived final id rule)
    (there : binding ∈
      (Listing.ofExpr derived.context.memo derived.context.guard id rule.pattern).found)
    {alternatives : List Proposal} (done : rule.transform derived.context binding = .ok alternatives)
    (member : proposal ∈ alternatives) : ∃ target, final.context.memo.Resolved target proposal := by
  obtain ⟨expr, proposals, _, all, resolved⟩ := applied.resolved
  obtain ⟨_, transformed, inside⟩ := (proposals_eq_ok all).2 binding there
  obtain rfl := Except.ok.inj (transformed.symm.trans done)
  exact ⟨expr.group, resolved proposal (inside proposal member)⟩

theorem standard_of_joins (joins : rule ∈ [Rule.joinCommutativity, Rule.joinAssociativity]) :
    rule ∈ Rule.standard ∧ rule.kind = .exploration ∧ rule.pattern.isLeaf = false := by
  rcases List.mem_pair.1 joins with rfl | rfl
  · exact ⟨by simp [Rule.standard], rfl, rfl⟩
  · exact ⟨by simp [Rule.standard], rfl, rfl⟩

/-- What a rule for joins has a proposal for is a join that is worth trying. -/
theorem promise_of_proposes (joins : rule ∈ [Rule.joinCommutativity, Rule.joinAssociativity])
    {context later : Context} {id : ExprId} {expr : Expr} (stored : context.memo.exprs[id]? = some expr)
    (shown : binding.operator = expr.operator) {alternatives : List Proposal}
    (done : rule.transform later binding = .ok alternatives) (member : proposal ∈ alternatives) :
    ∃ type, expr.operator = .logical (.join type) ∧ rule.promise context id = .ok .high := by
  have there := Memo.expr_ok_iff.2 stored
  rcases List.mem_pair.1 joins with rfl | rfl
  · obtain ⟨type, _, _, _, operator, inner, _⟩ := Rule.joinCommutativity_cases done member
    refine ⟨type, shown.symm.trans operator, bind_eq_ok_iff.2 ⟨expr, there, ?_⟩⟩
    rw [← shown, operator]
    cases type with
    | inner | cross => rfl
    | left | right | full | semi | anti => cases inner
  · obtain ⟨_, _, _, _, _, _, _, _, _, _, _, operator, _⟩ := Rule.joinAssociativity_cases done member
    refine ⟨.inner, shown.symm.trans operator, bind_eq_ok_iff.2 ⟨expr, there, ?_⟩⟩
    rw [← shown, operator]
    rfl

/-- **Every missing proposal has a cause**, if the exploration has reached no limit. -/
theorem exists_cause (joins : rule ∈ [Rule.joinCommutativity, Rule.joinAssociativity])
    (reshaped : Reshaped first start) (standard : start.rules = Rule.standard)
    (done : explore root start = .ok (.ok ⟨⟩, final))
    (few : final.iterations < final.config.maxIterations) (room : final.isFull = false)
    (enabled : final.config.isDisabled rule.name = false) (merging : final.context.memo.Merging same)
    (fits : binding.Fits final.context.memo same rule.pattern) {alternatives : List Proposal}
    (proposed : rule.transform final.context binding = .ok alternatives)
    (member : proposal ∈ alternatives)
    (absent : ¬ final.context.memo.Offers same proposal binding.group) :
    Cause start final same root rule binding proposal := by
  by_cases reaches : final.context.memo.Reaches root binding.group
  swap
  · exact .unreached reaches
  have run : rounds .exploration root (start.config.maxIterations - start.iterations + 1) start =
      .ok (.ok ⟨⟩, final) := done
  have later := rounds_reshaped reshaped run
  have after := later.fresh.valid
  have accounts := rounds_accounts (standard ▸ standard_distinct) reshaped.fresh.valid run
  obtain ⟨last, begins, finished⟩ := rounds_finish (Nat.lt_succ_self _) run few room
  obtain ⟨_, _, ready⟩ := begins.ready reshaped
  obtain ⟨listed, explores, inner⟩ := standard_of_joins joins
  obtain ⟨expr, stored, shown, named, matching⟩ := fits.inner inner
  obtain ⟨type, operator, judgement⟩ := promise_of_proposes joins stored shown proposed member
  have below : final.context.memo.Below _ binding.expr :=
    (named ▸ reaches : final.context.memo.Reaches _ expr.group).below after.toLinked stored operator
  have marked := finished.exhausted below (accounts.rules ▸ standard ▸ listed) explores
    (standard_stable rule listed explores) enabled stored matching judgement (by decide)
  rcases accounts.marked binding.expr rule (standard ▸ listed) marked with
    before | ⟨derived, starts, applied⟩
  · exact .before before
  by_cases there : binding ∈ (Listing.ofExpr derived.context.memo derived.context.guard binding.expr
    rule.pattern).found
  swap
  · exact .late starts applied there
  -- The binding was there: what is proposed for it now was proposed then, and has its group.
  obtain ⟨early, breadth, known⟩ := starts.ready reshaped
  have again := proposes_again joins known.formed after (starts.exact reshaped)
    (finished.exact ready later) applied.grows (Listing.drawn_ofExpr early.fresh.valid there).1 proposed
    member
  obtain ⟨target, resolved⟩ := applied.exists_resolved there again member
  obtain ⟨other, found, offers⟩ := resolved.exists_group after merging.refl
  exact .elsewhere found fun is => absent (offers.of_same merging (merging.symm is))

/-- The rules of a search stay the same. -/
theorem Reached.rules_eq (reached : Reached start final) (distinct : Distinct start.rules)
    (reshaped : Reshaped first start) : final.rules = start.rules := by
  induction reached with
  | start => rfl
  | rounds before done ih =>
    have valid := (before.reshaped reshaped).fresh.valid
    exact (rounds_accounts (ih ▸ distinct) valid done).rules.trans ih
  | limits _ _ _ ih => exact ih

/-! ### Join orders -/

/-- **Every join order is explored, or a proposal is missing.** Logical expressions are inserted into an
empty memo, and phases run with the standard rules. In any state that is reached, a root begins a tree
of inner joins over different relations without common columns, under conjuncts that are each on two of
them, and no join is a cross product. If the root is explored to the end, below all limits and with both
rules for joins, then every nesting of these relations without a cross product can be chosen from the
root, one inner join for each group, or the group of some join does not have what one of the two rules
proposes for it. The same holds where groups with the same contents are counted as one. -/
theorem explore_provides {memo : Memo} {catalog : Catalog} {config : Config} {nesting other : Nesting}
    {conjuncts : List GroupId} (built : memo.Built)
    (reached : (ofMemo memo catalog Rule.standard config).Reached start)
    (done : explore root start = .ok (.ok ⟨⟩, final))
    (few : final.iterations < final.config.maxIterations) (room : final.isFull = false)
    (enabled : ∀ rule ∈ [Rule.joinCommutativity, Rule.joinAssociativity],
      final.config.isDisabled rule.name = false)
    (nests : start.context.memo.Nests root nesting conjuncts) (nodup : nesting.relations.Nodup)
    (apart : start.context.memo.Apart nesting.whole)
    (rearranged : other.relations.Perm nesting.relations)
    (crossless : other.Crossless (start.context.memo.LinkedBy (· ∈ conjuncts)))
    (merging : final.context.memo.Merging same) :
    final.context.memo.Provides same root other ∨
      ∃ rule ∈ [Rule.joinCommutativity, Rule.joinAssociativity], ∃ binding proposal,
        Missing start final same root rule binding proposal := by
  have run : rounds .exploration root (start.config.maxIterations - start.iterations + 1) start =
      .ok (.ok ⟨⟩, final) := done
  have initial : Reshaped memo (ofMemo memo catalog Rule.standard config) := .ofMemo built fun _ => id
  have reshaped := reached.reshaped initial
  have standard : start.rules = Rule.standard := reached.rules_eq standard_distinct initial
  have later := rounds_reshaped reshaped run
  have grows := (rounds_accounts (standard ▸ standard_distinct) reshaped.fresh.valid run).grows
  obtain ⟨last, begins, finished⟩ := rounds_finish (Nat.lt_succ_self _) run few room
  obtain ⟨_, _, ready⟩ := begins.ready reshaped
  refine or_iff_not_imp_right.2 fun complete => ?_
  have saturated : ∀ rule ∈ [Rule.joinCommutativity, Rule.joinAssociativity],
      final.context.Saturated same root rule := by
    refine fun rule joins => ⟨fun {binding alternatives proposal} leads fits proposed member => ?_⟩
    by_contra absent
    have cause := exists_cause joins reshaped standard done few room (enabled rule joins) merging fits
      proposed member absent
    exact complete ⟨rule, joins, binding, proposal, leads, fits, ⟨alternatives, proposed, member⟩,
      absent, cause⟩
  have closed : final.context.Closed same root := {
    formed := later.formed
    holds := later.rearranged.holds
    exact := finished.exact ready later
    merging
    exchanges := saturated _ (by simp)
    regroups := saturated _ (by simp) }
  obtain ⟨breadth, formed⟩ := reshaped.formed
  have valid := formed.toValid
  have after := later.fresh.valid
  have laid : start.context.memo.Laid := formed.laid
  obtain ⟨_, relational, scalar⟩ := nests.families valid laid
  have whole : other.whole = nesting.whole := List.toFinset_eq_of_perm _ _ rearranged
  exact (nests.of_grows grows valid after laid).provides closed (.root (merging.refl root)) nodup
    (apart.of_grows grows valid after relational) rearranged
    (LinkedBy.of_grows grows valid after relational scalar whole.subset crossless)

/-- An exploration after some insertions, from what it shows. -/
theorem exists_explored {requests : List (Operator × List GroupId)} {shows : Search → Bool}
    (shown : (Memo.empty.build? requests).bind (fun memo =>
      (explore root (ofMemo memo {} Rule.standard {})).toOption.bind fun ended =>
        ended.1.toOption.map fun _ => shows ended.2) = some true) :
    ∃ memo final, Memo.empty.build? requests = some memo ∧
      explore root (ofMemo memo {} Rule.standard {}) = .ok (.ok ⟨⟩, final) ∧ shows final = true := by
  obtain ⟨memo, made, shown⟩ := Option.bind_eq_some_iff.1 shown
  obtain ⟨⟨outcome, final⟩, ran, shown⟩ := Option.bind_eq_some_iff.1 shown
  obtain ⟨_, well, shown⟩ := Option.map_eq_some_iff.1 shown
  obtain rfl : outcome = .ok ⟨⟩ := toOption_eq_some_iff.1 well
  exact ⟨memo, final, made, toOption_eq_some_iff.1 ran, shown⟩

/-- Three tables joined in turn, each of which has an equality with the next one. -/
def joinedInChain : List (Operator × List GroupId) :=
  [(.logical (.get ⟨"shop", "orders"⟩ [⟨1, none, "order"⟩]), []),
    (.logical (.get ⟨"shop", "items"⟩ [⟨2, none, "item"⟩]), []),
    (.logical (.get ⟨"shop", "parts"⟩ [⟨3, none, "part"⟩]), []),
    (.scalar (.column ⟨1, none, "order"⟩), []), (.scalar (.column ⟨2, none, "item"⟩), []),
    (.scalar (.column ⟨3, none, "part"⟩), []), (.scalar (.binary .eq), [3, 4]),
    (.scalar (.binary .eq), [4, 5]), (.logical (.join .inner), [0, 1, 6]),
    (.logical (.join .inner), [8, 2, 7])]

/-- The three tables are joined from left to right. -/
theorem nests_joinedInChain {memo : Memo} (made : Memo.empty.build? joinedInChain = some memo) :
    memo.Nests 9 (.join (.join (.relation 0) (.relation 1)) (.relation 2)) [6, 7] ∧
      memo.Apart (Nesting.join (.join (.relation 0) (.relation 1)) (.relation 2)).whole ∧
      (Nesting.join (.relation 0) (.join (.relation 1) (.relation 2))).Crossless
        (memo.LinkedBy (· ∈ [6, 7])) := by
  have shown : (Memo.empty.build? joinedInChain).map (fun memo =>
      decide ((memo.Relational 0 ∧ memo.Relational 1 ∧ memo.Relational 2) ∧
        (memo.HasJoin (· = ·) 8 0 1 6 ∧ memo.HasJoin (· = ·) 9 8 2 7) ∧
        (memo.conjuncts 6 = [6] ∧ memo.conjuncts 7 = [7]) ∧ (memo.Links 6 0 1 ∧ memo.Links 7 1 2) ∧
        memo.Apart {0, 1, 2})) = some true := by
    decide +kernel
  rw [made] at shown
  obtain ⟨⟨first, second, third⟩, ⟨lower, upper⟩, ⟨low, high⟩, ⟨near, far⟩, apart⟩ :=
    of_decide_eq_true (Option.some.inj shown)
  have inner : memo.Nests 8 (.join (.relation 0) (.relation 1)) [6] :=
    .of_links lower (.relation first) (.relation second) low (by decide) (by decide) (by decide) near
  refine ⟨.of_links upper inner (.relation third) high (by decide) (by decide) (by decide) far, apart,
    trivial, ⟨trivial, trivial, 1, by decide, 2, by decide, 7, by decide, far⟩, 0, by decide, 1,
    by decide, 6, by decide, near⟩

/-- The last two tables can be joined first, so of the two the first holds. -/
theorem explore_provides_joinedInChain :
    ∃ memo final, Memo.empty.build? joinedInChain = some memo ∧
      explore 9 (ofMemo memo {} Rule.standard {}) = .ok (.ok ⟨⟩, final) ∧
      final.context.memo.Provides (· = ·) 9
        (.join (.relation 0) (.join (.relation 1) (.relation 2))) ∧
      (final.context.memo.Provides (· = ·) 9
          (.join (.relation 0) (.join (.relation 1) (.relation 2))) ∨
        ∃ rule ∈ [Rule.joinCommutativity, Rule.joinAssociativity], ∃ binding proposal,
          Missing (ofMemo memo {} Rule.standard {}) final (· = ·) 9 rule binding proposal) := by
  obtain ⟨memo, final, made, run, shown⟩ := @exists_explored 9 joinedInChain (fun final =>
    decide (final.iterations < final.config.maxIterations ∧ final.isFull = false ∧
      (∀ rule ∈ [Rule.joinCommutativity, Rule.joinAssociativity],
        final.config.isDisabled rule.name = false) ∧
      final.context.memo.Provides (· = ·) 9
        (.join (.relation 0) (.join (.relation 1) (.relation 2))))) (by decide +kernel)
  obtain ⟨few, room, enabled, provides⟩ := of_decide_eq_true shown
  obtain ⟨nests, apart, crossless⟩ := nests_joinedInChain made
  exact ⟨memo, final, made, run, provides, explore_provides (.build? .empty made) .start run few room
    enabled nests (by decide) apart (by decide) crossless .equal⟩

/-- Two tables, joined in either order, each join in a group of its own. -/
def joinedBothWays : List (Operator × List GroupId) :=
  [(.logical (.get ⟨"shop", "orders"⟩ [⟨1, none, "order"⟩]), []),
    (.logical (.get ⟨"shop", "items"⟩ [⟨2, none, "item"⟩]), []),
    (.scalar (.column ⟨1, none, "order"⟩), []), (.scalar (.column ⟨2, none, "item"⟩), []),
    (.scalar (.binary .eq), [2, 3]), (.logical (.join .inner), [0, 1, 4]),
    (.logical (.join .inner), [1, 0, 4])]

/-- The first join is a tree of both tables. -/
theorem nests_joinedBothWays {memo : Memo} (made : Memo.empty.build? joinedBothWays = some memo) :
    memo.Nests 5 (.join (.relation 0) (.relation 1)) [4] ∧
      memo.Apart (Nesting.join (.relation 0) (.relation 1)).whole ∧
      (Nesting.join (.relation 1) (.relation 0)).Crossless (memo.LinkedBy (· ∈ [4])) := by
  have shown : (Memo.empty.build? joinedBothWays).map (fun memo =>
      decide ((memo.Relational 0 ∧ memo.Relational 1) ∧ memo.HasJoin (· = ·) 5 0 1 4 ∧
        memo.conjuncts 4 = [4] ∧ memo.Links 4 0 1 ∧ memo.Apart {0, 1})) = some true := by
    decide +kernel
  rw [made] at shown
  obtain ⟨⟨first, second⟩, has, alone, links, apart⟩ := of_decide_eq_true (Option.some.inj shown)
  exact ⟨.of_links has (.relation first) (.relation second) alone (by decide) (by decide) (by decide)
    links, apart, trivial, trivial, 1, by decide, 0, by decide, 4, by decide, links.symm⟩

/-- **Exploration misses a join order.** Two tables are joined, and the same join with its inputs
exchanged is in another group. The exchanged join is not added to the group of the first one, and the
groups are not merged, so that after an exploration below all limits, with nothing left to try, the group
of the first join has one order only. -/
theorem explore_misses_order :
    ∃ memo final, Memo.empty.build? joinedBothWays = some memo ∧
      memo.Nests 5 (.join (.relation 0) (.relation 1)) [4] ∧
      memo.Apart (Nesting.join (.relation 0) (.relation 1)).whole ∧
      (Nesting.join (.relation 1) (.relation 0)).Crossless (memo.LinkedBy (· ∈ [4])) ∧
      explore 5 (ofMemo memo {} Rule.standard {}) = .ok (.ok ⟨⟩, final) ∧
      final.iterations < final.config.maxIterations ∧ final.isFull = false ∧
      final.trials .exploration 5 = .ok [] ∧
      ¬ final.context.memo.Provides (· = ·) 5 (.join (.relation 1) (.relation 0)) := by
  obtain ⟨memo, final, made, run, shown⟩ := @exists_explored 5 joinedBothWays (fun final =>
    decide (final.iterations < final.config.maxIterations ∧ final.isFull = false ∧
      (final.trials .exploration 5).toOption.map List.length = some 0 ∧
      ¬ final.context.memo.Provides (· = ·) 5 (.join (.relation 1) (.relation 0)))) (by decide +kernel)
  obtain ⟨few, room, none, missing⟩ := of_decide_eq_true shown
  obtain ⟨trials, tried, nothing⟩ := Option.map_eq_some_iff.1 none
  rw [List.length_eq_zero_iff.1 nothing] at tried
  obtain ⟨nests, apart, crossless⟩ := nests_joinedBothWays made
  exact ⟨memo, final, made, nests, apart, crossless, run, few, room, toOption_eq_some_iff.1 tried,
    missing⟩

end Search

end Cascades
