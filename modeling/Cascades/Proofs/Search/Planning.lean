/-
**When a plan is found.**

A search that reaches no limit leaves nothing to try. So every logical expression below the root gets
a physical form in its own group, a join of many inputs aside: it has none. It is expanded into binary
joins, and they go to its group unless the memo holds them already, in whatever group. Then the
expansion stays where it is, and the group of the join may be left without anything to implement.

* `GoesThrough`: a search that goes through both phases; `Completes`: one that reaches no limit;
* `Completes.planned_iff`: what it finds plans for;
* `Displaced`: a join of many inputs that is left alone, its expansion in another group;
* `Completes.exists_displaced`: there is one if the root cannot be implemented;
* `optimize_finds`: the whole search; `optimize_misses_plan`: a root that is left without a plan.
-/

import Cascades.Proofs.Binding.Presence
import Cascades.Proofs.Plan.Implementable
import Cascades.Proofs.Search.Exhaustion
import Cascades.Proofs.Search.Reach
import Cascades.Proofs.Search.Safety

namespace Cascades.Search

open Cascades.Action Memo

variable {kind : RuleKind} {root : GroupId} {id : ExprId} {rule : Rule} {expr : Expr}
  {start search derived final explored implemented : Search} {breadth later : GroupId → Breadth}

/-! ### Rounds of standard rules -/

section Standard

variable (standard : start.rules = Rule.standard)
  (inside : root < start.context.memo.groups.size) (continues : Continues start breadth search)
include standard inside continues

/-- A phase goes on from where a search started. -/
theorem phase_continues (done : phase kind root search = .ok (.ok ⟨⟩, final)) :
    Continues start breadth final := by
  let anyFault (_ : Fault) : Prop := True
  have sure : ∀ rule ∈ start.rules, rule.Sure anyFault := standard ▸ Rule.standard_sure
  exact (phase_leads sure trivial inside).of_ok continues done

/-- All properties are derived where a round works. -/
theorem Starts.exists_derived (starts : Starts kind root search derived) :
    ∃ later, Derived start breadth derived later := by
  let anyFault (_ : Fault) : Prop := True
  have sure : ∀ rule ∈ start.rules, rule.Sure anyFault := standard ▸ Rule.standard_sure
  have overflow : anyFault .sumTooGreat := trivial
  induction starts with
  | first derives => exact (derive_leads overflow continues).of_ok rfl derives
  | later one _ ih => exact ih ((round_leads sure overflow inside).of_ok continues one)

end Standard

/-! ### Applied rules over leaves -/

theorem isLeaf_of_replicate {arity : Nat} :
    ∀ part ∈ List.replicate arity Pattern.leaf, part.isLeaf = true := by
  intro part member
  rw [List.eq_of_mem_replicate member]
  rfl

/-- A rule that proposes for an expression has a binding there whose alternatives it proposes, where the
pattern has leaves below its root. -/
theorem exists_drawn {context : Context} (valid : context.memo.Valid)
    (headed : context.memo.LogicalFirst) {matcher : Matcher} {children : List Pattern} (pattern : rule.pattern = .node matcher children)
    (leaves : ∀ part ∈ children, part.isLeaf = true) (stored : context.memo.exprs[id]? = some expr)
    (matching : rule.pattern.matchesRoot expr.operator expr.arity = true) {proposals : List Proposal}
    (proposed : rule.proposals context id = .ok proposals) :
    ∃ binding alternatives,
      binding ∈ (Listing.ofExpr context.memo context.guard id rule.pattern).found ∧
      binding.Drawn context.memo rule.pattern ∧ binding.operator = expr.operator ∧
      binding.group = expr.group ∧ binding.childGroups = expr.children ∧
      rule.transform context binding = .ok alternatives ∧
      ∀ alternative ∈ alternatives, alternative ∈ proposals := by
  obtain ⟨complete, all⟩ := proposals_eq_ok proposed
  obtain ⟨binding, found⟩ : ∃ binding, binding ∈
      (Listing.ofExpr context.memo context.guard id rule.pattern).found := by
    rw [pattern] at matching complete ⊢
    exact Listing.exists_binding valid headed leaves stored matching complete
  obtain ⟨alternatives, transformed, inside⟩ := all binding found
  have inner : rule.pattern.isLeaf = false := by
    rw [pattern]
    rfl
  obtain ⟨drawn, operator, group, groups⟩ := Listing.shows_ofExpr valid stored inner found
  exact ⟨binding, alternatives, found, drawn, operator, group, groups, transformed, inside⟩

/-- **A rule over leaves** that was applied to an expression had a binding there, and what it proposed
for the binding is in the memo. -/
theorem Applied.exists_binding (applied : Applied kind root derived final id rule)
    (valid : derived.context.memo.Valid) (headed : derived.context.memo.LogicalFirst)
    {matcher : Matcher} {children : List Pattern} (pattern : rule.pattern = .node matcher children)
    (leaves : ∀ part ∈ children, part.isLeaf = true)
    (stored : final.context.memo.exprs[id]? = some expr) :
    ∃ binding alternatives,
      binding ∈ (Listing.ofExpr derived.context.memo derived.context.guard id rule.pattern).found ∧
      binding.Drawn derived.context.memo rule.pattern ∧ binding.operator = expr.operator ∧
      binding.group = expr.group ∧ binding.childGroups = expr.children ∧
      rule.transform derived.context binding = .ok alternatives ∧
      ∀ alternative ∈ alternatives, final.context.memo.Resolved expr.group alternative := by
  obtain ⟨first, proposals, there, proposed, resolved⟩ := applied.resolved
  rw [applied.grows.exprs there] at stored
  cases stored
  obtain ⟨other, again, matching⟩ := applied.tried.eligible.root
  rw [there] at again
  cases again
  obtain ⟨binding, alternatives, found, drawn, operator, group, groups, transformed, inside⟩ :=
    exists_drawn valid headed pattern leaves there matching proposed
  exact ⟨binding, alternatives, found, drawn, operator, group, groups, transformed,
    fun alternative member => resolved alternative (inside alternative member)⟩

/-- A physical form of an expression stands beside it. -/
def HasForm (memo : Memo) (expr : Expr) : Prop :=
  ∃ (number : ExprId) (form : Expr) (operator : PhysicalOp), memo.exprs[number]? = some form ∧
    form.operator = .physical operator ∧ form.children = expr.children ∧ form.group = expr.group

/-- A physical form of an expression that has its place in the group of the expression stands beside
it. -/
theorem exists_form {memo : Memo} (formed : memo.Formed breadth) (stored : memo.exprs[id]? = some expr)
    {operator : PhysicalOp} (implemented : expr.operator = .logical operator.logical)
    (resolved : memo.Resolved expr.group (.overGroups (.physical operator) expr.children)) :
    ∃ (number : ExprId) (form : Expr), memo.exprs[number]? = some form ∧
      form.operator = .physical operator ∧ form.children = expr.children ∧
      form.group = expr.group := by
  obtain ⟨ids, number, form, below, there, equal, children, _⟩ := resolved.exists_expr formed.toValid
  rw [materializeAll_groups] at below
  cases below
  have physical : form.operator = .physical operator := Operator.eq_of_beq equal rfl
  exact ⟨number, form, there, physical, children,
    formed.group_of_physical stored implemented there physical children⟩

/-- **A rule that realizes an operator** leaves a physical form beside an expression with the
operator. -/
theorem Applied.hasForm (applied : Applied kind root derived final id rule)
    (made : Derived start breadth derived later) {after : GroupId → Breadth}
    (formed : final.context.memo.Formed after) {operator : LogicalOp}
    (realizes : rule.Realizes operator) (stored : final.context.memo.exprs[id]? = some expr)
    (logical : expr.operator = .logical operator) : HasForm final.context.memo expr := by
  obtain ⟨kind, arity, pattern⟩ := realizes.overLeaves
  have before := made.develops.formed
  obtain ⟨binding, alternatives, _, drawn, shown, _, groups, transformed, resolved⟩ :=
    applied.exists_binding before.toValid before.logicalFirst pattern isLeaf_of_replicate stored
  obtain ⟨alternative, member⟩ := List.exists_mem_of_ne_nil alternatives
    (realizes.proposes (shown.trans logical) transformed)
  obtain ⟨physical, implemented, rfl⟩ :=
    realizes.implements drawn transformed alternative member
  obtain ⟨number, form, there, same, beside⟩ :=
    exists_form formed stored (shown.symm.trans implemented) (groups ▸ resolved _ member)
  exact ⟨number, form, physical, there, same, beside⟩

/-! ### Searches that go through both phases -/

/-- **A search that goes through both phases** with all standard rules, from a memo of logical
expressions with which nothing was done yet. -/
structure GoesThrough (root : GroupId) (breadth : GroupId → Breadth)
    (search explored implemented : Search) : Prop where
  formed : search.context.memo.Formed breadth
  fresh : ∀ id mark, search.context.memo.isMarked id mark = false
  standard : search.rules = Rule.standard
  relational : search.context.memo.Relational root
  explores : explore root search = .ok (.ok ⟨⟩, explored)
  implements : implement root explored = .ok (.ok ⟨⟩, implemented)

namespace GoesThrough

variable (through : GoesThrough root breadth search explored implemented)
include through

theorem explored_accounts :
    Accounts .exploration root (Starts .exploration root search) search explored :=
  rounds_accounts (through.standard ▸ standard_distinct) through.formed.toValid
    through.explores

theorem explored_continues : Continues search breadth explored :=
  phase_continues through.standard through.relational.inside (.refl through.formed)
    through.explores

theorem implemented_accounts :
    Accounts .implementation root (Starts .implementation root explored) explored implemented := by
  have before := through.explored_accounts
  refine rounds_accounts ?_ before.valid through.implements
  rw [before.rules, through.standard]
  exact standard_distinct

theorem implemented_continues : Continues search breadth implemented :=
  phase_continues through.standard through.relational.inside through.explored_continues
    through.implements

theorem implemented_config : implemented.config = search.config :=
  through.implemented_accounts.config.trans through.explored_accounts.config

/-- An implementing rule that is marked was applied in a round of the second phase. -/
theorem exists_applied (listed : rule ∈ Rule.standard) (implementing : rule.kind = .implementation)
    (marked : implemented.context.memo.isMarked id rule.mark = true) :
    ∃ derived later, Derived search breadth derived later ∧
      Applied .implementation root derived implemented id rule := by
  have rules := through.explored_continues.rules
  rcases through.implemented_accounts.marked id rule (rules ▸ through.standard ▸ listed) marked
    with before | ⟨derived, starts, applied⟩
  · -- Nothing was marked before the search, and exploration marks exploring rules only.
    rcases through.explored_accounts.marked id rule (through.standard ▸ listed) before
      with first | ⟨_, _, applied⟩
    · rw [through.fresh] at first
      cases first
    · rw [applied.tried.eligible.sameKind] at implementing
      cases implementing
  · obtain ⟨later, made⟩ := starts.exists_derived through.standard through.relational.inside
      through.explored_continues
    exact ⟨derived, later, made, applied⟩

end GoesThrough

/-! ### Searches that reach no limit -/

/-- **A search that reaches no limit** and may use all standard rules. -/
structure Completes (root : GroupId) (breadth : GroupId → Breadth)
    (search explored implemented : Search) : Prop
    extends GoesThrough root breadth search explored implemented where
  enabled : ∀ rule ∈ Rule.standard, search.config.isDisabled rule.name = false
  few : implemented.iterations < implemented.config.maxIterations
  room : implemented.isFull = false

namespace Completes

variable (completes : Completes root breadth search explored implemented)
include completes

theorem explored_exhausted : explored.Exhausted .exploration root := by
  have after := completes.implemented_accounts
  refine rounds_exhaust (Nat.lt_succ_self _) completes.explores ?_ ?_
  · rw [← after.config]
    exact Nat.lt_of_le_of_lt after.iterations completes.few
  · have room := completes.room
    unfold isFull at room ⊢
    rw [after.config, decide_eq_false_iff_not] at room
    exact decide_eq_false fun full => room (Nat.le_trans full after.grows.size_groups)

theorem implemented_exhausted : implemented.Exhausted .implementation root :=
  rounds_exhaust (Nat.lt_succ_self _) completes.implements completes.few completes.room

/-- **Every expression below the root** that is no join of many inputs has a physical form beside
it. -/
theorem hasForm (reaches : implemented.context.memo.Reaches root expr.group)
    (stored : implemented.context.memo.exprs[id]? = some expr) {operator : LogicalOp}
    (logical : expr.operator = .logical operator) (plain : operator ≠ .naryJoin) :
    HasForm implemented.context.memo expr := by
  obtain ⟨later, develops⟩ := completes.implemented_continues.develops
  have formed := develops.formed
  obtain ⟨rule, realizes⟩ := Rule.exists_realizes plain
  have takes := (formed.seated stored).takes
  rw [logical] at takes
  have matching : rule.pattern.matchesRoot expr.operator expr.arity = true := by
    generalize later expr.group = result at takes
    cases takes with
    | logical takes =>
      have matching := realizes.matching takes
      rwa [List.length_map, ← logical] at matching
  have stable : rule.Stable := by
    intro context other _
    funext number
    rw [realizes.promise, realizes.promise]
  have known : rule ∈ implemented.rules := by
    rw [completes.implemented_continues.rules, completes.standard]
    exact realizes.listed
  have marked := completes.implemented_exhausted (reaches.below formed.toLinked stored logical)
    known realizes.kind stable
    (completes.implemented_config ▸ completes.enabled rule realizes.listed) stored matching
    (realizes.promise _ _) (by decide)
  obtain ⟨derived, later, made, applied⟩ :=
    completes.exists_applied realizes.listed realizes.kind marked
  exact applied.hasForm made formed realizes stored logical

/-- **What can be implemented is implemented.** -/
theorem planned_iff :
    implemented.context.memo.Planned root ↔ implemented.context.memo.Implementable root := by
  obtain ⟨later, develops⟩ := completes.implemented_continues.develops
  have formed := develops.formed
  have linked := formed.toLinked
  have relational : implemented.context.memo.Relational root :=
    completes.relational.mono develops.grows
  refine ⟨formed.implementable_of_planned, fun implementable => ?_⟩
  have below : ∀ {group : GroupId}, implemented.context.memo.Implementable group →
      implemented.context.memo.Reaches root group → implemented.context.memo.Planned group := by
    intro group implementable
    induction implementable with
    | @member number expr operator stored logical plain _ ih =>
      intro reaches
      obtain ⟨_, form, _, there, physical, children, beside⟩ :=
        completes.hasForm reaches stored logical plain
      rw [← beside]
      refine .member there physical fun child inside => ?_
      have inside : child ∈ implemented.context.memo.relationalChildren expr := by
        unfold Memo.relationalChildren at inside ⊢
        rwa [children] at inside
      exact ih child inside (reaches.child linked stored relational inside)
  exact below implementable (linked.reaches_closed relational).1

end Completes

/-! ### Joins of many inputs -/

/-- The binary joins that a join of many inputs was expanded into in some round are in another group
at last. -/
def ExpandedElsewhere (derived last : Search) (number : ExprId) (expr : Expr) : Prop :=
  ∃ binding expansion group,
    binding ∈ (Listing.ofExpr derived.context.memo derived.context.guard number
      Rule.expandNaryJoin.pattern).found ∧
    Rule.expandNaryJoin.transform derived.context binding = .ok [expansion] ∧
    last.context.memo.materialize expansion = .ok (group, last.context.memo) ∧ group ≠ expr.group

/-- **A displaced join of many inputs**: it was there before the search. After exploration its group is
below the root and holds nothing but such joins, and its expansion in some round is elsewhere. -/
structure Displaced (root : GroupId) (search explored : Search) (number : ExprId) (expr : Expr) :
    Prop where
  stored : search.context.memo.exprs[number]? = some expr
  nary : expr.operator = .logical .naryJoin
  below : explored.context.memo.Reaches root expr.group
  alone : ∀ (other : ExprId) (member : Expr), explored.context.memo.exprs[other]? = some member →
    member.group = expr.group → member.operator = .logical .naryJoin
  elsewhere : ∃ derived, Starts .exploration root search derived ∧
    ExpandedElsewhere derived explored number expr

/-- A join of many inputs has an input besides its predicate. -/
theorem two_le_arity {memo : Memo} (formed : memo.Formed breadth) {number : ExprId}
    (stored : memo.exprs[number]? = some expr) (nary : expr.operator = .logical .naryJoin) :
    2 ≤ expr.arity := by
  have takes := (formed.seated stored).takes
  rw [nary] at takes
  obtain ⟨sources, predicate, shape, some, _⟩ :=
    formed.of_naryJoin (fun child => formed.childExists stored) takes
  unfold Expr.arity
  rw [shape, List.length_append]
  exact Nat.succ_le_succ (List.length_pos_iff.2 some)

/-- A proposal that belongs into a group is an expression, and no join of many inputs. -/
theorem Suits.exists_node {memo : Memo} {target : GroupId} {proposal : Proposal}
    (suits : memo.Suits breadth target proposal) :
    ∃ operator children, proposal = .node operator children ∧ operator ≠ .logical .naryJoin := by
  cases suits with
  | join _ _ => exact ⟨_, _, rfl, nofun⟩
  | groups _ _ _ _ plain => exact ⟨_, _, rfl, plain⟩

/-- **An expansion is elsewhere** if it was applied and nothing but joins of many inputs is in the group
of the join: an expansion in that group would be a member of another kind. -/
theorem Applied.expandedElsewhere
    (applied : Applied kind root derived final id Rule.expandNaryJoin)
    (made : Derived start breadth derived later) {after : GroupId → Breadth}
    (formed : final.context.memo.Formed after) (stored : final.context.memo.exprs[id]? = some expr)
    (nary : expr.operator = .logical .naryJoin)
    (alone : ∀ (other : ExprId) (member : Expr), final.context.memo.exprs[other]? = some member →
      member.group = expr.group → member.operator = .logical .naryJoin) :
    ExpandedElsewhere derived final id expr := by
  have leaves : ∀ part ∈ [Pattern.leaves, .leaf], part.isLeaf = true := by decide
  have before := made.develops.formed
  obtain ⟨binding, alternatives, found, drawn, operator, same, groups, transformed, resolved⟩ :=
    applied.exists_binding before.toValid before.logicalFirst rfl leaves stored
  have several : 2 ≤ binding.childGroups.length := by
    rw [groups]
    exact two_le_arity formed stored nary
  obtain ⟨expansion, rfl⟩ :=
    Rule.expandNaryJoin_transform (operator.trans nary) several transformed
  let anyFault (_ : Fault) : Prop := True
  have suits : Ends (Failure.Allowed anyFault) _ _ :=
    Rule.expandNaryJoin_sure.proposes made.ready drawn
  rw [transformed] at suits
  obtain ⟨top, parts, rfl, plain⟩ :=
    Suits.exists_node (suits expansion List.mem_cons_self)
  obtain ⟨_, number, form, _, there, equal, _, materialized⟩ :=
    (resolved _ List.mem_cons_self).exists_expr formed.toValid
  refine ⟨binding, _, form.group, found, transformed, materialized, fun beside => plain ?_⟩
  rw [alone number form there beside] at equal
  exact Operator.eq_of_beq (PartialEquivBEq.symm equal) rfl

namespace Completes

variable (completes : Completes root breadth search explored implemented)
include completes

/-- **A root that cannot be implemented** has a join of many inputs below it whose expansion is
elsewhere. -/
theorem exists_displaced (missing : ¬ explored.context.memo.Implementable root) :
    ∃ number expr, Displaced root search explored number expr := by
  obtain ⟨later, develops⟩ := completes.explored_continues.develops
  have formed := develops.formed
  have linked := formed.toLinked
  have relational : explored.context.memo.Relational root :=
    completes.relational.mono develops.grows
  obtain ⟨group, reaches, ⟨owner, there, family⟩, alone⟩ :=
    formed.exists_alone (fun stored inside child below => inside.child linked stored relational below)
      (linked.reaches_closed relational).1 relational missing
  obtain ⟨number, expr, operator, place, stored, logical⟩ := formed.logicalFirst there family
  obtain ⟨again, same, rfl, _⟩ := formed.listed there place
  rw [stored] at same
  cases same
  have nary : expr.operator = .logical .naryJoin := alone number expr stored rfl
  have several := two_le_arity formed stored nary
  have matching : Rule.expandNaryJoin.pattern.matchesRoot expr.operator expr.arity = true := by
    rw [nary]
    exact decide_eq_true (Nat.le_succ_of_le several)
  have listed : Rule.expandNaryJoin ∈ Rule.standard := by simp [Rule.standard]
  have accounts := completes.explored_accounts
  have marked := completes.explored_exhausted (reaches.below linked stored logical)
    (accounts.rules ▸ completes.standard ▸ listed) rfl (standard_stable _ listed rfl)
    (accounts.config ▸ completes.enabled _ listed) stored matching
    (Rule.expandNaryJoin_promise stored several) (by decide)
  rcases accounts.marked number _ (completes.standard ▸ listed) marked with before | ⟨_, starts, applied⟩
  · rw [completes.fresh] at before
    cases before
  obtain ⟨_, made⟩ := starts.exists_derived completes.standard completes.relational.inside
    (.refl completes.formed)
  exact ⟨number, expr, develops.naryJoins stored nary, nary, reaches, alone, _, starts,
    applied.expandedElsewhere made formed stored nary alone⟩

end Completes

/-! ### The whole search -/

variable {model : CostModel}

/-- **A whole search** aborts, or goes through both phases, takes the cheapest plan, and closes the
memo. -/
theorem optimize_cases {outcome : Except Abort (Option Plan)}
    (done : optimize model root search = .ok (outcome, final)) :
    (∃ abort, outcome = .error abort) ∨
      ∃ explored implemented found, explore root search = .ok (.ok ⟨⟩, explored) ∧
        implement root explored = .ok (.ok ⟨⟩, implemented) ∧
        implemented.cheapest? model root = .ok found ∧ outcome = .ok found ∧
        final = { implemented with
          context := { implemented.context with memo := implemented.context.memo.close } } := by
  unfold optimize at done
  rcases Action.bind_eq_ok_iff.1 done with ⟨_, explored, explores, second⟩ | ⟨abort, _, same⟩
  swap
  · exact Or.inl ⟨abort, same⟩
  rcases Action.bind_eq_ok_iff.1 second with ⟨_, implemented, implements, third⟩ | ⟨abort, _, same⟩
  swap
  · exact Or.inl ⟨abort, same⟩
  rcases Action.bind_eq_ok_iff.1 (Action.get_bind_eq_ok_iff.1 third) with
    ⟨found, _, plans, fourth⟩ | ⟨abort, _, same⟩
  swap
  · exact Or.inl ⟨abort, same⟩
  obtain ⟨rfl, ⟨_, given, same⟩ | ⟨_, _, same⟩⟩ := Action.lift_failure_eq_ok_iff.1 plans
  swap
  · cases same
  cases same
  cases fourth
  exact Or.inr ⟨explored, _, found, explores, implements, given, rfl, rfl⟩

/-- Closing the memo makes it no fuller. -/
theorem isFull_close :
    ({ search with context := { search.context with memo := search.context.memo.close } } :
      Search).isFull = search.isFull := by
  unfold isFull
  show decide (_ ≤ (search.context.memo.groups.map _).size) = _
  rw [Array.size_map]

/-- What the search for plans looks at in the memo of a search. -/
def setting (search : Search) (model : CostModel) : Plan.Setting :=
  .ofMemo search.context.memo search.context.catalog search.context.guard model

section Cheapest

variable (continues : Continues start breadth search)
  (relational : start.context.memo.Relational root) {found : Option Plan}
  (done : search.cheapest? model root = .ok found)
include continues relational done

/-- The cheapest plan is that of the plain recursion, and a tree. -/
theorem right_of_cheapest : Plan.Right (search.setting model) root found ∧
    Plan.Chosen (search.setting model) root found := by
  obtain ⟨later, develops⟩ := continues.develops
  have right : Ends _ (search.cheapest? model root) (Plan.Right (search.setting model) root) :=
    Plan.cheapest?_right develops.formed.toLinked (relational.mono develops.grows)
  rw [done] at right
  exact ⟨right, right.chosen fun below _ => develops.formed.acyclic below⟩

/-- A plan is found if and only if the root has a tree. -/
theorem isSome_iff_planned : found.isSome = true ↔ search.context.memo.Planned root := by
  obtain ⟨later, develops⟩ := continues.develops
  exact (right_of_cheapest continues relational done).2.isSome_iff develops.formed.toLinked

end Cheapest

/-- **A plan is found** after a search that reaches no limit if and only if the root can be
implemented. -/
theorem Completes.isSome_iff (completes : Completes root breadth search explored implemented)
    {found : Option Plan} (done : implemented.cheapest? model root = .ok found) :
    found.isSome = true ↔ implemented.context.memo.Implementable root :=
  (isSome_iff_planned completes.implemented_continues completes.relational done).trans
    completes.planned_iff

/-- **When a plan is found.** A search with all standard rules, from a memo into which well-formed
logical expressions were inserted, is not stopped and reaches no limit. Then it finds a plan if and
only if the root can be implemented in the end. If it finds none, some join of many inputs that was
there before is left alone in its group, because its expansion was in another group already. The only
other end is that joined tables are too many to be counted. -/
theorem optimize_finds (built : search.context.memo.Built)
    (standard : search.rules = Rule.standard)
    (enabled : ∀ rule ∈ Rule.standard, search.config.isDisabled rule.name = false)
    (relational : search.context.memo.Relational root)
    (unstopped : ∀ abort final, abort.stopsSearch = true →
      optimize model root search ≠ .ok (.error abort, final))
    (unhit : ∀ outcome final, optimize model root search = .ok (outcome, final) →
      final.iterations < final.config.maxIterations ∧ final.isFull = false) :
    (∃ found final, optimize model root search = .ok (.ok found, final) ∧
      (found.isSome = true ↔ final.context.memo.Implementable root) ∧
      (found = none → ∃ explored number expr, explore root search = .ok (.ok ⟨⟩, explored) ∧
        Displaced root search explored number expr)) ∨
    optimize model root search = .error .sumTooGreat := by
  let uncounted (cause : Fault) : Prop := cause = .sumTooGreat
  have overflow : uncounted .sumTooGreat := rfl
  obtain ⟨breadth, formed⟩ := built.formed
  have ends := optimize_leads (standard ▸ Rule.standard_sure) overflow relational model search
    (.refl formed)
  cases done : optimize model root search with
  | error cause =>
    rw [done] at ends
    exact Or.inr (congrArg Except.error ends)
  | ok ended =>
    rw [done] at ends
    obtain ⟨outcome, final⟩ := ended
    obtain ⟨few, room⟩ := unhit outcome final done
    rcases optimize_cases done with ⟨abort, rfl⟩ | ⟨explored, implemented, found, explores, implements,
      plans, rfl, rfl⟩
    · exact absurd done (unstopped abort final ends)
    have completes : Completes root breadth search explored implemented :=
      { formed, fresh := built.isMarked_eq, standard, enabled, relational, explores, implements, few
        room := isFull_close.symm.trans room }
    have valid := completes.implemented_accounts.valid
    have iff := completes.isSome_iff plans
    refine Or.inl ⟨found, _, rfl, iff.trans (implementable_close_iff valid).symm, fun none => ?_⟩
    have missing : ¬ explored.context.memo.Implementable root := by
      intro implementable
      have some := iff.2 (implementable.mono completes.explored_accounts.valid.toLinked
        completes.implemented_accounts.grows)
      rw [none] at some
      cases some
    obtain ⟨number, expr, displaced⟩ := completes.exists_displaced missing
    exact ⟨explored, number, expr, explores, displaced⟩

/-- What the end of a search shows: whether the root is scalar, whether a plan was found, and whether
no limit was reached. -/
def endingAt (root : GroupId) (memo : Memo) : Option Bool × Option (Bool × Bool) :=
  (memo.groups[root]?.map Group.isScalar,
    (optimize (CardinalityModel.cost {}) root (ofMemo memo {} Rule.standard {})).toOption.bind
      fun ended => ended.1.toOption.map fun found =>
        (found.isSome, ended.2.iterations < ended.2.config.maxIterations && !ended.2.isFull))

theorem exists_ending {expressions : List (Operator × List GroupId)} {planned : Bool}
    (shown : (Memo.empty.build? expressions).map (endingAt root) =
      some (some false, some (planned, true))) :
    ∃ memo found final, Memo.empty.build? expressions = some memo ∧ memo.Relational root ∧
      optimize (CardinalityModel.cost {}) root (ofMemo memo {} Rule.standard {}) =
        .ok (.ok found, final) ∧
      found.isSome = planned ∧ final.iterations < final.config.maxIterations ∧
      final.isFull = false := by
  obtain ⟨memo, made, shown⟩ := Option.map_eq_some_iff.1 shown
  obtain ⟨family, ran⟩ := Prod.mk.inj shown
  obtain ⟨⟨outcome, final⟩, done, ended⟩ := Option.bind_eq_some_iff.1 ran
  obtain ⟨found, given, shown⟩ := Option.map_eq_some_iff.1 ended
  obtain ⟨planned, unhit⟩ := Prod.mk.inj shown
  obtain rfl : outcome = .ok found := toOption_eq_some_iff.1 given
  obtain ⟨few, room⟩ := Bool.and_eq_true_iff.1 unhit
  exact ⟨memo, found, final, made, Option.map_eq_some_iff.1 family, toOption_eq_some_iff.1 done,
    planned, of_decide_eq_true few, by simpa using room⟩

/-- A join of many inputs, which are two tables. -/
def joinOfMany : List (Operator × List GroupId) :=
  [(.logical (.get ⟨"shop", "orders"⟩ []), []), (.logical (.get ⟨"shop", "items"⟩ []), []),
    (.truth, []), (.logical .naryJoin, [0, 1, 2])]

theorem optimize_finds_joinOfMany :
    ∃ memo found final, Memo.empty.build? joinOfMany = some memo ∧
      optimize (CardinalityModel.cost {}) 3 (ofMemo memo {} Rule.standard {}) =
        .ok (.ok found, final) ∧
      found.isSome = true ∧ final.context.memo.Implementable 3 := by
  have shown : (Memo.empty.build? joinOfMany).map (endingAt 3) =
      some (some false, some (true, true)) := by decide +kernel
  obtain ⟨memo, found, final, made, relational, done, planned, unhit⟩ := exists_ending shown
  have finds : (∃ other last, optimize (CardinalityModel.cost {}) 3
      (ofMemo memo {} Rule.standard {}) = .ok (.ok other, last) ∧ _ ∧ _) ∨ _ :=
    optimize_finds (Built.empty.build? made) rfl (fun _ _ => rfl) relational
      (fun abort last _ stopped => by
        rw [done] at stopped
        cases stopped)
      fun outcome last same => by
        rw [done] at same
        cases same
        exact unhit
  rcases finds with ⟨_, _, again, iff, _⟩ | failed
  · rw [done] at again
    cases again
    exact ⟨memo, found, final, made, done, planned, iff.1 planned⟩
  · rw [done] at failed
    cases failed

/-- The same join of many inputs, and a join of the two tables that is inserted before it. -/
def joinBesideMany : List (Operator × List GroupId) :=
  [(.logical (.get ⟨"shop", "orders"⟩ []), []), (.logical (.get ⟨"shop", "items"⟩ []), []),
    (.truth, []), (.logical (.join .inner), [0, 1, 2]), (.logical .naryJoin, [0, 1, 2])]

/-- **A search misses a plan.** The expansion of the join of many inputs is the other join, which stays
in its own group. The search is not stopped, reaches no limit, and gives no plan. -/
theorem optimize_misses_plan :
    ∃ memo final, Memo.empty.build? joinBesideMany = some memo ∧ memo.Built ∧
      memo.Relational 4 ∧ (∀ rule ∈ Rule.standard, Config.isDisabled {} rule.name = false) ∧
      optimize (CardinalityModel.cost {}) 4 (ofMemo memo {} Rule.standard {}) =
        .ok (.ok none, final) ∧
      final.iterations < final.config.maxIterations ∧ final.isFull = false := by
  have shown : (Memo.empty.build? joinBesideMany).map (endingAt 4) =
      some (some false, some (false, true)) := by decide +kernel
  obtain ⟨memo, found, final, made, relational, done, unplanned, unhit⟩ := exists_ending shown
  obtain rfl : found = none := by simpa using unplanned
  exact ⟨memo, final, made, Built.empty.build? made, relational, fun _ _ => rfl, done, unhit⟩

end Cascades.Search
