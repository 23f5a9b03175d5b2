/-
**What is left when exploration ends.**

A rule is applied to an expression once, in some round, with the bindings that are there when the
round begins. A phase that reaches no limit ends when nothing is left to try, so every rule that may
be applied to an expression below the root has been applied, and what it proposed is in the memo.
What a rule would propose for bindings that came later need not be: a selection is pushed into the
joins that its input has in one round only.

* `Starts`: the searches on which the rounds of a phase work; `Tries`: what such a round tries;
* `rounds_accounts`: every mark that a phase leaves comes from one of its rounds;
* `rounds_finish`, `rounds_exhaust`: without a limit nothing is left to try;
* `explore_exhausts`: both, for exploration.
-/

import Cascades.Proofs.Search.Round
import Mathlib.Data.List.Nodup

namespace Cascades.Search

variable {kind : RuleKind} {root : GroupId} {search next final derived : Search}

/-! ### Applied rules -/

/-- The searches on which the rounds of a phase work, the properties of all groups derived. -/
inductive Starts (kind : RuleKind) (root : GroupId) : Search → Search → Prop
  | first {search derived : Search} :
      onContext Context.deriveAll search = .ok (.ok ⟨⟩, derived) → Starts kind root search derived
  | later {search next derived : Search} :
      round kind root search = .ok (.ok true, next) → Starts kind root next derived →
        Starts kind root search derived

/-- **A round that works on a search tries a rule on an expression**: it is one of the trials, as many as
the limit on applications allows. -/
def Tries (kind : RuleKind) (root : GroupId) (derived : Search) (id : ExprId) (rule : Rule) : Prop :=
  ∃ trials, derived.trials kind root = .ok trials ∧
    (id, rule) ∈ trials.take (derived.config.maxIterations - derived.iterations)

/-- What is tried may be tried, so it was not tried before. -/
theorem Tries.eligible {id : ExprId} {rule : Rule} (tries : Tries kind root derived id rule) :
    rule.Eligible derived.context derived.config kind id := by
  obtain ⟨trials, listed, taken⟩ := tries
  obtain ⟨_, _, eligible, _⟩ := (mem_trials_iff listed).1 (List.mem_of_mem_take taken)
  exact eligible

/-- A rule was applied to an expression in the round that worked on a search: it was tried there, and
what it proposed there adds nothing to the final memo. -/
structure Applied (kind : RuleKind) (root : GroupId) (derived final : Search) (id : ExprId)
    (rule : Rule) : Prop where
  tried : Tries kind root derived id rule
  grows : derived.context.memo.Grows final.context.memo
  resolved : ∃ expr proposals, derived.context.memo.exprs[id]? = some expr ∧
    rule.proposals derived.context id = .ok proposals ∧
    ∀ proposal ∈ proposals, final.context.memo.Resolved expr.group proposal

theorem Applied.mono {id : ExprId} {rule : Rule} (applied : Applied kind root derived next id rule)
    (valid : next.context.memo.Valid) (after : final.context.memo.Valid)
    (grows : next.context.memo.Grows final.context.memo) :
    Applied kind root derived final id rule := by
  obtain ⟨expr, proposals, stored, proposed, resolved⟩ := applied.resolved
  refine ⟨applied.tried, applied.grows.trans grows, expr, proposals, stored, proposed, ?_⟩
  intro proposal member
  exact (resolved proposal member).mono valid after grows

/-- A search that went on from another one, kept its marks, and left others only for rules that it
applied in rounds on some given searches. -/
structure Accounts (kind : RuleKind) (root : GroupId) (starts : Search → Prop)
    (before after : Search) : Prop where
  valid : after.context.memo.Valid
  grows : before.context.memo.Grows after.context.memo
  rules : after.rules = before.rules
  config : after.config = before.config
  iterations : before.iterations ≤ after.iterations
  kept : ∀ id mark, before.context.memo.isMarked id mark = true →
    after.context.memo.isMarked id mark = true
  marked : ∀ id rule, rule ∈ before.rules → after.context.memo.isMarked id rule.mark = true →
    before.context.memo.isMarked id rule.mark = true ∨
      ∃ derived, starts derived ∧ Applied kind root derived after id rule

namespace Accounts

variable {starts : Search → Prop}

theorem refl (valid : search.context.memo.Valid) : Accounts kind root starts search search where
  valid
  grows := .refl _
  rules := rfl
  config := rfl
  iterations := Nat.le_refl _
  kept _ _ before := before
  marked _ _ _ marked := Or.inl marked

theorem trans (one : Accounts kind root starts search next)
    (two : Accounts kind root starts next final) : Accounts kind root starts search final where
  valid := two.valid
  grows := one.grows.trans two.grows
  rules := two.rules.trans one.rules
  config := two.config.trans one.config
  iterations := Nat.le_trans one.iterations two.iterations
  kept id mark before := two.kept id mark (one.kept id mark before)
  marked id rule listed marked := by
    rcases two.marked id rule (one.rules ▸ listed) marked with before | applied
    · rcases one.marked id rule listed before with first | ⟨derived, start, applied⟩
      · exact Or.inl first
      · exact Or.inr ⟨derived, start, applied.mono one.valid two.valid two.grows⟩
    · exact Or.inr applied

theorem mono {others : Search → Prop} (accounts : Accounts kind root starts search final)
    (more : ∀ derived, starts derived → others derived) :
    Accounts kind root others search final where
  valid := accounts.valid
  grows := accounts.grows
  rules := accounts.rules
  config := accounts.config
  iterations := accounts.iterations
  kept := accounts.kept
  marked id rule listed marked := by
    rcases accounts.marked id rule listed marked with before | ⟨derived, start, applied⟩
    · exact Or.inl before
    · exact Or.inr ⟨derived, more derived start, applied⟩

end Accounts

/-! ### Every mark has its round -/

/-- Rules are told apart by their marks. -/
def Distinct (rules : List Rule) : Prop :=
  ∀ first ∈ rules, ∀ second ∈ rules, first.mark = second.mark → first = second

theorem mem_results {context : Context} {tried : List Trial}
    {results : List (Trial × Except Abort (List Proposal))}
    (done : tried.mapM (proposalsOf context) = .ok results) {trial : Trial}
    {proposals : List Proposal} (member : (trial, .ok proposals) ∈ results) :
    trial ∈ tried ∧ trial.2.proposals context trial.1 = .ok proposals := by
  obtain ⟨other, listed, given⟩ := (mem_mapM_iff done).1 member
  unfold proposalsOf at given
  split at given
  · rename_i found proposed
    obtain ⟨rfl, same⟩ := Prod.mk.inj (Except.ok.inj given)
    cases same
    exact ⟨listed, proposed⟩
  · obtain ⟨_, same⟩ := Prod.mk.inj (Except.ok.inj given)
    cases same
  · cases given

theorem map_fst_results {context : Context} {tried : List Trial}
    {results : List (Trial × Except Abort (List Proposal))}
    (done : tried.mapM (proposalsOf context) = .ok results) : results.map Prod.fst = tried := by
  have each := mapM_eq_ok_iff.1 done
  clear done
  induction each with
  | nil => rfl
  | cons one _ ih =>
    rw [List.map_cons, ih]
    unfold proposalsOf at one
    split at one
    · rw [← Except.ok.inj one]
    · rw [← Except.ok.inj one]
    · cases one

/-- A step of a round starts from a memo that grew out of the one the proposals were found on. -/
def Onward (kind : RuleKind) (root : GroupId) (derived before after : Search) : Prop :=
  before.rules = derived.rules → before.context.memo.Valid →
    derived.context.memo.Grows before.context.memo →
      Accounts kind root (· = derived) before after

theorem Onward.refl (before : Search) : Onward kind root derived before before :=
  fun _ valid _ => .refl valid

theorem Onward.trans (one two three : Search) (first : Onward kind root derived one two)
    (second : Onward kind root derived two three) : Onward kind root derived one three := by
  intro rules valid grows
  have started := first rules valid grows
  exact started.trans
    (second (started.rules.trans rules) started.valid (grows.trans started.grows))

/-- One trial leaves the mark of its rule, whose proposals are in the memo from then on. -/
theorem Committed.onward (distinct : Distinct derived.rules) {trials : List Trial}
    (listed : derived.trials kind root = .ok trials) {trial : Trial}
    (taken : trial ∈ trials.take (derived.config.maxIterations - derived.iterations))
    {proposals : List Proposal} (proposed : trial.2.proposals derived.context trial.1 = .ok proposals)
    {added : Nat} (committed : search.Committed trial proposals added next) :
    Onward kind root derived search next := by
  intro rules valid grows
  obtain ⟨after, more⟩ := committed.keeps valid
  refine ⟨after, more, committed.rules_eq, committed.config_eq,
    committed.iterations_eq ▸ Nat.le_succ _,
    fun id mark before => committed.isMarked_iff.2 (Or.inr before), ?_⟩
  intro id rule inRules marked
  rcases committed.isMarked_iff.1 marked with ⟨rfl, sameMark⟩ | before
  · obtain ⟨below, known, _⟩ := (mem_trials_iff listed).1 (List.mem_of_mem_take taken)
    have same : rule = trial.2 := distinct rule (rules ▸ inRules) trial.2 known sameMark
    obtain ⟨first, _, stored, _⟩ := below.exists_logical
    obtain ⟨expr, again, resolved⟩ := committed.resolves valid
    rw [grows.exprs stored] at again
    cases again
    refine Or.inr ⟨derived, rfl, ⟨trials, listed, same ▸ taken⟩, grows.trans more, first, proposals,
      stored, same ▸ proposed, resolved⟩
  · exact Or.inl before

/-- **The trials of a round** leave marks only for what they applied. -/
theorem commitAll_accounts (distinct : Distinct derived.rules)
    (valid : derived.context.memo.Valid) {trials tried : List Trial}
    (listed : derived.trials kind root = .ok trials)
    (taken : tried = trials.take (derived.config.maxIterations - derived.iterations))
    {results : List (Trial × Except Abort (List Proposal))}
    (done : tried.mapM (proposalsOf derived.context) = .ok results) {added : Nat}
    {outcome : Except Abort Nat}
    (commits : commitAll added results derived = .ok (outcome, final)) :
    Accounts kind root (· = derived) derived final := by
  refine commitAll_relates Onward.refl Onward.trans ?_ commits rfl valid (.refl _)
  intro trial proposals before count after member committed
  obtain ⟨inside, proposed⟩ := mem_results done member
  exact committed.onward distinct listed (taken ▸ inside) proposed

theorem deriveAll_accounts {starts : Search → Prop} {outcome : Except Abort PUnit}
    (valid : search.context.memo.Valid)
    (done : onContext Context.deriveAll search = .ok (outcome, derived)) :
    Accounts kind root starts search derived := by
  obtain ⟨context, same, rfl⟩ := onContext_deriveAll done
  refine ⟨same.memo ▸ valid, same.memo ▸ .refl _, rfl, rfl, Nat.le_refl _, fun id mark before => ?_,
    fun id rule _ marked => Or.inl ?_⟩
  · show context.memo.isMarked id mark = true
    rw [same.memo]
    exact before
  · rw [← same.memo]
    exact marked

/-- **A round** leaves marks only for what it applied. -/
theorem round_accounts (distinct : Distinct search.rules) (valid : search.context.memo.Valid)
    {outcome : Except Abort Bool} (done : round kind root search = .ok (outcome, final)) :
    Accounts kind root (Starts kind root search) search final := by
  rcases round_cases done with ⟨_, _, rfl | derives⟩ | ⟨derived, trials, derives, listed, ends⟩
  · exact .refl valid
  · exact deriveAll_accounts valid derives
  · have started : Accounts kind root (Starts kind root search) search derived :=
      deriveAll_accounts valid derives
    rcases ends with ⟨_, _, rfl⟩ | ⟨results, count, _, proposed, commits, _⟩
    · exact started
    · have rest := commitAll_accounts (started.rules.symm ▸ distinct) started.valid listed rfl
        proposed commits
      refine started.trans (rest.mono ?_)
      rintro _ rfl
      exact .first derives

/-- **Every mark that rounds leave** comes from one of them. -/
theorem rounds_accounts {fuel : Nat} (distinct : Distinct search.rules)
    (valid : search.context.memo.Valid) {outcome : Except Abort Unit}
    (done : rounds kind root fuel search = .ok (outcome, final)) :
    Accounts kind root (Starts kind root search) search final := by
  induction fuel generalizing search with
  | zero =>
    cases done
    exact .refl valid
  | succ fuel ih =>
    rw [rounds] at done
    rcases Action.bind_eq_ok_iff.1 done with ⟨more, next, one, others⟩ | ⟨abort, failed, _⟩
    · have started := round_accounts distinct valid one
      cases more with
      | false =>
        cases others
        exact started
      | true =>
        have rest := ih (started.rules.symm ▸ distinct) started.valid others
        exact started.trans (rest.mono fun derived start => .later one start)
    · exact round_accounts distinct valid failed

/-- A mark stays where later rounds work. -/
theorem Starts.isMarked (starts : Starts kind root search derived) (distinct : Distinct search.rules)
    (valid : search.context.memo.Valid) {id : ExprId} {mark : Mark}
    (marked : search.context.memo.isMarked id mark = true) :
    derived.context.memo.isMarked id mark = true := by
  induction starts with
  | @first search derived derives =>
    have accounts : Accounts kind root (Starts kind root search) search derived :=
      deriveAll_accounts valid derives
    exact accounts.kept id mark marked
  | later one _ ih =>
    have accounts := round_accounts distinct valid one
    exact ih (accounts.rules.symm ▸ distinct) accounts.valid (accounts.kept id mark marked)

/-! ### Nothing is left to try -/

/-- A round is a last one if all its trials are committed and none of them added anything. -/
theorem CommitsAll.finished {results : List (Trial × Except Abort (List Proposal))}
    (committed : CommitsAll search results 0 final) {trials : List Trial}
    (listed : search.trials kind root = .ok trials) (all : results.map Prod.fst = trials) :
    Finished kind root search final := by
  obtain ⟨groups, exprs⟩ := committed.same_of_nothing rfl
  refine ⟨⟨trials, listed, fun trial member => committed.isMarked (all.symm ▸ member)⟩, groups, exprs,
    committed.facts_eq, committed.rules_eq, committed.config_eq, ?_⟩
  exact fun id mark before => committed.isMarked_of_isMarked before

/-- A round that another one may follow leaves room in the memo. -/
theorem isFull_of_more (done : round kind root search = .ok (.ok true, next)) :
    next.isFull = false := by
  rcases round_cases done with ⟨_, same, _⟩ | ⟨derived, trials, derives, _, ends⟩
  · cases same
  obtain ⟨context, _, rfl⟩ := onContext_deriveAll derives
  rcases ends with ⟨_, same, _⟩ | ⟨results, count, some, proposed, _, outcome⟩
  · cases same
  cases count with
  | error abort => cases outcome
  | ok added =>
    have outcome := Except.ok.inj outcome
    simp only [Bool.true_eq, Bool.and_eq_true, Bool.not_eq_true', Bool.and_eq_false_iff,
      Bool.not_eq_false', List.isEmpty_iff, decide_eq_true_eq] at outcome
    obtain ⟨⟨empty | room, fewer⟩, _⟩ := outcome
    · have length : results.length =
          min (search.config.maxIterations - search.iterations) trials.length := by
        rw [← List.length_map Prod.fst, map_fst_results proposed, List.length_take]
      have fewer : trials.length < search.config.maxIterations - search.iterations := fewer
      rw [empty, List.length_nil] at length
      have positive : 0 < trials.length := List.length_pos_iff.2 some
      omega
    · exact room

/-- A round that leaves room in the memo carries out all trials that the limit on applications allows.
Another one may follow if that limit was not reached and something was added. -/
theorem round_committed {more : Bool} (done : round kind root search = .ok (.ok more, next))
    (room : next.isFull = false) :
    ∃ derived trials results count, onContext Context.deriveAll search = .ok (.ok ⟨⟩, derived) ∧
      derived.trials kind root = .ok trials ∧
      results.map Prod.fst = trials.take (search.config.maxIterations - search.iterations) ∧
      CommitsAll derived results count next ∧
      more = (decide (trials.length < search.config.maxIterations - search.iterations) &&
        count != 0) := by
  rcases round_cases done with ⟨_, same, _⟩ | ⟨derived, trials, derives, listed, ends⟩
  · cases same
  refine ⟨derived, trials, ?_⟩
  obtain ⟨context, _, rfl⟩ := onContext_deriveAll derives
  rcases ends with ⟨rfl, same, rfl⟩ | ⟨results, count, _, proposed, commits, outcome⟩
  · cases same
    exact ⟨[], 0, derives, listed, List.take_nil.symm, .nil, (Bool.and_false _).symm⟩
  cases count with
  | error abort => cases outcome
  | ok added =>
    have outcome := Except.ok.inj outcome
    obtain ⟨count, rfl, committed⟩ := commitAll_complete commits room
    rw [room, Bool.and_false, Bool.not_false, Bool.true_and, Nat.zero_add] at outcome
    exact ⟨results, count, derives, listed, map_fst_results proposed, committed, outcome⟩

/-- A round that stays below the limits carries out all its trials. If it added nothing, it is a last
one; otherwise there were trials, so that the next round is closer to the limit. -/
theorem round_below_limits {more : Bool} (done : round kind root search = .ok (.ok more, next))
    (below : more = true ∨ next.iterations < next.config.maxIterations ∧ next.isFull = false) :
    next.rules = search.rules ∧ next.config = search.config ∧
      ((more = false ∧ ∃ derived, onContext Context.deriveAll search = .ok (.ok ⟨⟩, derived) ∧
          Finished kind root derived next) ∨
        (more = true ∧ search.iterations < next.iterations ∧
          search.iterations < search.config.maxIterations)) := by
  have room : next.isFull = false := by
    rcases below with rfl | ⟨_, room⟩
    · exact isFull_of_more done
    · exact room
  obtain ⟨derived, trials, results, count, derives, listed, taken, committed, outcome⟩ :=
    round_committed done room
  obtain ⟨context, _, rfl⟩ := onContext_deriveAll derives
  have length := congrArg List.length taken
  rw [List.length_map, List.length_take] at length
  have iterations : next.iterations = search.iterations + results.length := committed.iterations_eq
  have config : next.config = search.config := committed.config_eq
  refine ⟨committed.rules_eq, config, ?_⟩
  cases more with
  | true =>
    obtain ⟨fewer, some⟩ := Bool.and_eq_true_iff.1 outcome.symm
    have fewer := of_decide_eq_true fewer
    have positive : 0 < results.length := by
      refine List.length_pos_iff.2 fun empty => ?_
      subst empty
      cases committed
      cases some
    refine Or.inr ⟨rfl, ?_, ?_⟩ <;> omega
  | false =>
    have few : next.iterations < next.config.maxIterations := (below.resolve_left nofun).1
    rw [config] at few
    have fewer : trials.length < search.config.maxIterations - search.iterations := by omega
    rw [decide_eq_true fewer, Bool.true_and] at outcome
    obtain rfl : count = 0 := by simpa using outcome
    refine Or.inl ⟨rfl, _, derives, committed.finished listed ?_⟩
    rw [taken, List.take_of_length_le (Nat.le_of_lt fewer)]

/-- **Rounds that end below the limits** end with a last round. -/
theorem rounds_finish {fuel : Nat} (enough : search.config.maxIterations - search.iterations < fuel)
    (done : rounds kind root fuel search = .ok (.ok ⟨⟩, final))
    (few : final.iterations < final.config.maxIterations) (room : final.isFull = false) :
    ∃ derived, Starts kind root search derived ∧ Finished kind root derived final := by
  induction fuel generalizing search with
  | zero => exact absurd enough (Nat.not_lt_zero _)
  | succ fuel ih =>
    rcases rounds_cases done with one | ⟨next, one, others⟩
    · obtain ⟨_, _, ⟨_, derived, derives, finished⟩ | ⟨same, _⟩⟩ :=
        round_below_limits one (Or.inr ⟨few, room⟩)
      · exact ⟨derived, .first derives, finished⟩
      · cases same
    · obtain ⟨_, config, ⟨same, _⟩ | ⟨_, closer, below⟩⟩ := round_below_limits one (Or.inl rfl)
      · cases same
      · obtain ⟨derived, starts, finished⟩ := ih (by rw [config]; omega) others
        exact ⟨derived, .later one starts, finished⟩

/-- **Rounds that end below the limits** leave nothing to try. -/
theorem rounds_exhaust {fuel : Nat} (enough : search.config.maxIterations - search.iterations < fuel)
    (done : rounds kind root fuel search = .ok (.ok ⟨⟩, final))
    (few : final.iterations < final.config.maxIterations) (room : final.isFull = false) :
    final.Exhausted kind root := by
  obtain ⟨_, _, finished⟩ := rounds_finish enough done few room
  exact finished.exhausted

/-! ### Proposals of all bindings -/

/-- Proposals that were found for an expression are those of all its bindings. -/
theorem proposals_eq_ok {rule : Rule} {context : Context} {id : ExprId} {proposals : List Proposal}
    (done : rule.proposals context id = .ok proposals) :
    (Listing.ofExpr context.memo context.guard id rule.pattern).failure = none ∧
      ∀ binding ∈ (Listing.ofExpr context.memo context.guard id rule.pattern).found,
        ∃ alternatives, rule.transform context binding = .ok alternatives ∧
          ∀ alternative ∈ alternatives, alternative ∈ proposals := by
  unfold Rule.proposals Rule.proposalsOf at done
  obtain ⟨proposed, each, ended⟩ := bind_eq_ok_iff.1 done
  cases failed : (Listing.ofExpr context.memo context.guard id rule.pattern).failure with
  | some failure =>
    rw [failed] at ended
    cases ended
  | none =>
    rw [failed] at ended
    cases pure_eq_ok_iff.1 ended
    refine ⟨rfl, fun binding member => ?_⟩
    obtain ⟨alternatives, inside, given⟩ := exists_mem_of_mapM each member
    obtain ⟨_, _, given⟩ := bind_eq_ok_iff.1 given
    exact ⟨alternatives, given, fun _ there => List.mem_flatten.2 ⟨alternatives, inside, there⟩⟩

/-! ### The standard rules -/

theorem standard_distinct : Distinct Rule.standard := by
  have different : (Rule.standard.map Rule.mark).Nodup := by decide
  exact fun first one second two same => List.inj_on_of_nodup_map different one two same

theorem standard_stable :
    ∀ rule ∈ Rule.standard, rule.kind = .exploration → rule.Stable := by
  intro rule listed sameKind context other exprs
  have same : other.memo.expr = context.memo.expr := by
    funext id
    unfold Memo.expr
    rw [exprs]
  simp only [Rule.standard, List.mem_cons, List.not_mem_nil, or_false] at listed
  rcases listed with rfl | rfl | rfl | rfl | implements
  · funext id
    show (other.memo.expr id >>= _) = (context.memo.expr id >>= _)
    rw [same]
  · funext id
    show (other.memo.expr id >>= _) = (context.memo.expr id >>= _)
    rw [same]
  · funext id
    show (other.memo.expr id >>= _) = (context.memo.expr id >>= _)
    rw [same]
  · rfl
  · rcases implements with rfl | rfl | rfl | rfl | rfl | rfl | rfl <;> cases sameKind

/-! ### Exploration -/

/-- **What exploration leaves.** It ends below its limits, or with nothing left to try. Then a rule
that may be applied to a logical expression below the root has been applied to it. Unless it had been
before, it was tried on the expression in a round of this exploration: whatever it proposed for the
bindings that were there when that round began adds nothing to the final memo. -/
theorem explore_exhausts (valid : search.context.memo.Valid) (standard : search.rules = Rule.standard)
    (done : explore root search = .ok (.ok ⟨⟩, final))
    (unhit : (final.iterations < final.config.maxIterations ∧ final.isFull = false) ∨
      final.trials .exploration root = .ok [])
    {id : ExprId} (below : final.context.memo.Below root id) {rule : Rule}
    (listed : rule ∈ Rule.standard) (explores : rule.kind = .exploration)
    (enabled : final.config.isDisabled rule.name = false) {expr : Expr}
    (stored : final.context.memo.exprs[id]? = some expr)
    (matching : rule.pattern.matchesRoot expr.operator expr.arity = true) {promise : Promise}
    (judgement : rule.promise final.context id = .ok promise) (worth : promise ≠ .skip) :
    final.context.memo.isMarked id rule.mark = true ∧
      (search.context.memo.isMarked id rule.mark = true ∨
        ∃ derived, Starts .exploration root search derived ∧
          Tries .exploration root derived id rule ∧
          derived.context.memo.isMarked id rule.mark = false ∧
          derived.context.memo.Grows final.context.memo ∧
          (Listing.ofExpr derived.context.memo derived.context.guard id rule.pattern).failure =
            none ∧
          ∀ binding ∈
              (Listing.ofExpr derived.context.memo derived.context.guard id rule.pattern).found,
            ∃ alternatives, rule.transform derived.context binding = .ok alternatives ∧
              final.context.memo.insertProposals expr.group alternatives =
                .ok (0, final.context.memo)) := by
  have run : rounds .exploration root (search.config.maxIterations - search.iterations + 1) search =
      .ok (.ok ⟨⟩, final) := done
  have accounts := rounds_accounts (standard ▸ standard_distinct) valid run
  have exhausted : final.Exhausted .exploration root := by
    rcases unhit with ⟨few, room⟩ | none
    · exact rounds_exhaust (Nat.lt_succ_self _) run few room
    · exact (Finished.of_no_trials none).exhausted
  have known : rule ∈ final.rules := by
    rw [accounts.rules, standard]
    exact listed
  have marked := exhausted below known explores (standard_stable rule listed explores) enabled stored
    matching judgement worth
  refine ⟨marked, ?_⟩
  rcases accounts.marked id rule (standard ▸ listed) marked with before | ⟨derived, start, applied⟩
  · exact Or.inl before
  obtain ⟨first, proposals, there, proposed, resolved⟩ := applied.resolved
  rw [applied.grows.exprs there] at stored
  cases stored
  obtain ⟨complete, all⟩ := proposals_eq_ok proposed
  refine Or.inr ⟨derived, start, applied.tried, applied.tried.eligible.fresh, applied.grows, complete,
    fun binding member => ?_⟩
  obtain ⟨alternatives, given, inside⟩ := all binding member
  refine ⟨alternatives, given, Memo.insertProposals_of_resolved fun alternative there => ?_⟩
  exact resolved alternative (inside alternative there)

/-! ### A binding that comes too late -/

/-- A selection above a selection above a join. The lower one becomes a join in the first round, in
which the upper one has no binding yet. -/
def stackedSelections : List Memo.Request :=
  [.insert (.logical (.get ⟨"shop", "orders"⟩ [])) [],
    .insert (.logical (.get ⟨"shop", "items"⟩ [])) [],
    .insert .truth [],
    .insert (.scalar (.column ⟨1, none, "paid"⟩)) [],
    .insert (.scalar (.column ⟨2, none, "sent"⟩)) [],
    .insert (.logical (.join .inner)) [0, 1, 2],
    .insert (.logical .select) [5, 3],
    .insert (.logical .select) [6, 4]]

/-- What the end of an exploration shows: whether it stayed below the limits, the groups below the
root, the logical members of some groups, and how many expressions a rule would still add to the
root's group for each binding of an expression. -/
structure Ending where
  unhit : Bool
  reached : Option (List GroupId)
  members : List (Option (List ExprId))
  missing : List (Option (Option Nat))
  deriving DecidableEq

/-- The end of an exploration of stacked selections, seen from the upper selection. -/
def endingOf (final : Search) : Ending :=
  let memo := final.context.memo
  { unhit := final.iterations < final.config.maxIterations && !final.isFull
    reached := (memo.reachable 7).toOption
    members := [6, 7].map fun id => (memo.groups[id]?).map memo.logicalMembers
    missing :=
      (Listing.ofExpr memo final.context.guard 7 Rule.pushSelectIntoJoin.pattern).found.map
        fun binding => (Rule.pushSelectIntoJoin.transform final.context binding).toOption.map
          fun alternatives => (memo.insertProposals 7 alternatives).toOption.map (·.1) }

/-- The end of the exploration of the stacked selections. -/
def stackedEnding : Ending where
  unhit := true
  reached := some [0, 1, 5, 6, 7]
  members := [some [6, 9, 10], some [7]]
  missing := [some (some 2), some (some 2)]

theorem explore_stackedSelections :
    ∃ memo final, Memo.empty.performAll stackedSelections = .ok memo ∧
      explore 7 (ofMemo memo {} Rule.standard {}) = .ok (.ok ⟨⟩, final) ∧
      endingOf final = stackedEnding := by
  have results : ((Memo.empty.performAll stackedSelections).toOption.bind fun memo =>
      (explore 7 (ofMemo memo {} Rule.standard {})).toOption.bind fun ended =>
        ended.1.toOption.map fun _ => endingOf ended.2) = some stackedEnding := by
    decide +kernel
  obtain ⟨memo, history, explored⟩ := Option.bind_eq_some_iff.1 results
  obtain ⟨⟨outcome, final⟩, run, ended⟩ := Option.bind_eq_some_iff.1 explored
  obtain ⟨_, done, shown⟩ := Option.map_eq_some_iff.1 ended
  have well : outcome = .ok ⟨⟩ := toOption_eq_some_iff.1 done
  subst well
  exact ⟨memo, final, toOption_eq_some_iff.1 history, toOption_eq_some_iff.1 run, shown⟩

section Stacked

variable (shown : endingOf final = stackedEnding)
include shown

theorem unhit_of_shown : final.iterations < final.config.maxIterations ∧ final.isFull = false := by
  have unhit : (decide (final.iterations < final.config.maxIterations) && !final.isFull) = true :=
    congrArg Ending.unhit shown
  rw [Bool.and_eq_true, decide_eq_true_eq, Bool.not_eq_true'] at unhit
  exact unhit

/-- Both selections are logical expressions below the root. -/
theorem below_of_shown : final.context.memo.Below 7 6 ∧ final.context.memo.Below 7 7 := by
  have reached : (final.context.memo.reachable 7).toOption = some [0, 1, 5, 6, 7] :=
    congrArg Ending.reached shown
  have members : ([6, 7].map fun id => (final.context.memo.groups[id]?).map
      final.context.memo.logicalMembers) = [some [6, 9, 10], some [7]] :=
    congrArg Ending.members shown
  cases done : final.context.memo.reachable 7 with
  | error cause =>
    rw [done] at reached
    cases reached
  | ok ids =>
    rw [done] at reached
    cases reached
    obtain ⟨lower, upper⟩ := List.cons.inj members
    obtain ⟨group, there, inside⟩ := Option.map_eq_some_iff.1 lower
    obtain ⟨other, found, within⟩ := Option.map_eq_some_iff.1 (List.cons.inj upper).1
    exact ⟨⟨_, 6, group, done, by decide, there, inside ▸ List.mem_cons_self⟩,
      ⟨_, 7, other, done, by decide, found, within ▸ List.mem_cons_self⟩⟩

end Stacked

/-- **Exploration leaves a rule with more to propose.** After the stacked selections were explored,
below every limit, the upper selection has a binding for which pushing it into a join would add
expressions. -/
theorem explore_misses_binding :
    ∃ memo final, Memo.empty.performAll stackedSelections = .ok memo ∧
      explore 7 (ofMemo memo {} Rule.standard {}) = .ok (.ok ⟨⟩, final) ∧
      final.iterations < final.config.maxIterations ∧ final.isFull = false ∧
      final.context.memo.Below 7 7 ∧
      Rule.pushSelectIntoJoin.promise final.context 7 = .ok .high ∧
      ∃ binding ∈ (Listing.ofExpr final.context.memo final.context.guard 7
          Rule.pushSelectIntoJoin.pattern).found,
        ∃ alternatives later, Rule.pushSelectIntoJoin.transform final.context binding =
            .ok alternatives ∧
          final.context.memo.insertProposals 7 alternatives = .ok (2, later) := by
  obtain ⟨memo, final, history, done, shown⟩ := explore_stackedSelections
  obtain ⟨few, room⟩ := unhit_of_shown shown
  refine ⟨memo, final, history, done, few, room, (below_of_shown shown).2, rfl, ?_⟩
  have missing : ((Listing.ofExpr final.context.memo final.context.guard 7
      Rule.pushSelectIntoJoin.pattern).found.map fun binding =>
        (Rule.pushSelectIntoJoin.transform final.context binding).toOption.map
          fun alternatives => (final.context.memo.insertProposals 7 alternatives).toOption.map
            (·.1)) = [some (some 2), some (some 2)] :=
    congrArg Ending.missing shown
  obtain ⟨binding, rest, found, first, _⟩ := List.map_eq_cons_iff.1 missing
  obtain ⟨alternatives, proposed, inserted⟩ := Option.map_eq_some_iff.1 first
  obtain ⟨⟨added, later⟩, done, two⟩ := Option.map_eq_some_iff.1 inserted
  refine ⟨binding, found ▸ List.mem_cons_self, alternatives, later, ?_, ?_⟩
  · exact toOption_eq_some_iff.1 proposed
  · rw [toOption_eq_some_iff.1 done, show added = 2 from two]

/-- A round in which the lower selection is not marked is the first one, where it has one binding. -/
theorem length_found_of_fresh {memo : Memo}
    (history : Memo.empty.performAll stackedSelections = .ok memo)
    (starts : Starts .exploration 7 (ofMemo memo {} Rule.standard {}) derived)
    (fresh : derived.context.memo.isMarked 6 Rule.pushSelectIntoJoin.mark = false) :
    (Listing.ofExpr derived.context.memo derived.context.guard 6
      Rule.pushSelectIntoJoin.pattern).found.length = 1 := by
  cases starts with
  | first derives =>
    have one : (Memo.empty.performAll stackedSelections).toOption.bind (fun memo =>
        (onContext Context.deriveAll (ofMemo memo {} Rule.standard {})).toOption.map fun ended =>
          (Listing.ofExpr ended.2.context.memo ended.2.context.guard 6
            Rule.pushSelectIntoJoin.pattern).found.length) = some 1 := by decide +kernel
    rw [history, show Except.toOption (.ok memo) = some memo from rfl, Option.bind_some, derives] at one
    exact Option.some.inj one
  | later round rest =>
    have tried : (Memo.empty.performAll stackedSelections).toOption.bind (fun memo =>
        (Search.round .exploration 7 (ofMemo memo {} Rule.standard {})).toOption.map fun ended =>
          ended.2.context.memo.isMarked 6 Rule.pushSelectIntoJoin.mark) = some true := by
      decide +kernel
    rw [history, show Except.toOption (.ok memo) = some memo from rfl, Option.bind_some, round] at tried
    have valid : memo.Valid := (Memo.performAll_keeps history Memo.empty_valid).1
    have accounts := round_accounts standard_distinct valid round
    have again := rest.isMarked (accounts.rules.symm ▸ standard_distinct) accounts.valid
      (Option.some.inj tried)
    cases fresh.symm.trans again

/-- The lower selection was pushed into the join below it. -/
theorem explore_exhausts_stackedSelections :
    ∃ memo final derived, Memo.empty.performAll stackedSelections = .ok memo ∧
      explore 7 (ofMemo memo {} Rule.standard {}) = .ok (.ok ⟨⟩, final) ∧
      memo.isMarked 6 Rule.pushSelectIntoJoin.mark = false ∧
      final.context.memo.isMarked 6 Rule.pushSelectIntoJoin.mark = true ∧
      Starts .exploration 7 (ofMemo memo {} Rule.standard {}) derived ∧
      Tries .exploration 7 derived 6 Rule.pushSelectIntoJoin ∧
      derived.context.memo.Grows final.context.memo ∧
      (Listing.ofExpr derived.context.memo derived.context.guard 6
        Rule.pushSelectIntoJoin.pattern).failure = none ∧
      (Listing.ofExpr derived.context.memo derived.context.guard 6
        Rule.pushSelectIntoJoin.pattern).found.length = 1 ∧
      ∀ binding ∈ (Listing.ofExpr derived.context.memo derived.context.guard 6
          Rule.pushSelectIntoJoin.pattern).found,
        ∃ alternatives, Rule.pushSelectIntoJoin.transform derived.context binding = .ok alternatives ∧
          final.context.memo.insertProposals 6 alternatives = .ok (0, final.context.memo) := by
  obtain ⟨memo, final, history, done, shown⟩ := explore_stackedSelections
  have valid : memo.Valid := (Memo.performAll_keeps history Memo.empty_valid).1
  have begins : (Memo.empty.performAll stackedSelections).toOption.map (fun memo =>
      (memo.exprs[6]?, memo.isMarked 6 Rule.pushSelectIntoJoin.mark)) = some
        (some { operator := .logical .select, children := [5, 3], group := 6, position := 0 }, false) := by
    rfl
  rw [history] at begins
  obtain ⟨select, unmarked⟩ := Prod.mk.inj (Option.some.inj begins)
  have accounts := rounds_accounts standard_distinct valid done
  have listed : Rule.pushSelectIntoJoin ∈ Rule.standard := by simp [Rule.standard]
  have enabled : final.config.isDisabled Rule.pushSelectIntoJoin.name = false := by
    rw [accounts.config]
    rfl
  obtain ⟨marked, explained⟩ := explore_exhausts valid rfl done (Or.inl (unhit_of_shown shown))
    (below_of_shown shown).1 listed rfl enabled (accounts.grows.exprs select) (by decide) rfl
    (by decide)
  rcases explained with before | ⟨derived, start, tries, fresh, more, complete, each⟩
  · cases unmarked.symm.trans before
  exact ⟨memo, final, derived, history, done, unmarked, marked, start, tries, more, complete,
    length_found_of_fresh history start fresh, each⟩

end Cascades.Search
