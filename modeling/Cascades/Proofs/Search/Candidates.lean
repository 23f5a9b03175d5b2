/-
**What a round tries.**

A rule is tried on an expression if it is of the kind of the phase, switched on, was not applied to
the expression before, has a pattern for its root, and promises something. A round tries all such
rules on all logical expressions below the root.

* `mem_candidates_iff`, `mem_trials_iff`: what is tried, without the order;
* `Exhausted`: nothing is left to try of the rules that look at what is stored only;
* `Finished`: a last round, whose trials were carried out while nothing else has changed;
  `Finished.exhausted`: it leaves nothing to try.
-/

import Cascades.Proofs.Memo.Valid
import Cascades.Proofs.Outcome
import Cascades.Search

namespace Cascades

/-! ### Rules for an expression -/

namespace Rule

variable {rules : List Rule} {context : Context} {config : Config} {kind : RuleKind} {id : ExprId}

/-- A rule that has not been applied to an expression and may be. -/
structure Eligible (rule : Rule) (context : Context) (config : Config) (kind : RuleKind)
    (id : ExprId) : Prop where
  sameKind : rule.kind = kind
  root : ∃ expr, context.memo.exprs[id]? = some expr ∧
    rule.pattern.matchesRoot expr.operator expr.arity = true
  enabled : config.isDisabled rule.name = false
  fresh : context.memo.isMarked id rule.mark = false

theorem mem_insertByPromise {first other : Rule × Promise} {sorted : List (Rule × Promise)} :
    other ∈ insertByPromise first sorted ↔ other = first ∨ other ∈ sorted := by
  induction sorted with
  | nil => exact List.mem_singleton.trans (or_iff_left List.not_mem_nil).symm
  | cons head tail ih =>
    unfold insertByPromise
    by_cases before : precedes first head = true
    · rw [if_pos before, List.mem_cons]
    · rw [if_neg before, List.mem_cons, ih, List.mem_cons]
      exact or_left_comm

theorem mem_foldl_insertByPromise {wanted sorted : List (Rule × Promise)}
    {other : Rule × Promise} :
    other ∈ wanted.foldl (fun sorted candidate => insertByPromise candidate sorted) sorted ↔
      other ∈ wanted ∨ other ∈ sorted := by
  induction wanted generalizing sorted with
  | nil => exact (or_iff_right List.not_mem_nil).symm
  | cons head tail ih =>
    rw [List.foldl_cons, ih, mem_insertByPromise, List.mem_cons]
    exact or_left_comm.trans or_assoc.symm

theorem candidates_eq {expr : Expr} (stored : context.memo.exprs[id]? = some expr) :
    candidates rules context config kind id =
      (do
        let judged ← (rules.filter fun rule =>
          rule.kind = kind && rule.pattern.matchesRoot expr.operator expr.arity
            && !config.isDisabled rule.name && !context.memo.isMarked id rule.mark).mapM
          fun rule => do return (rule, ← rule.promise context id)
        return (judged.filter fun candidate => candidate.2 != .skip).foldl
          (fun sorted candidate => insertByPromise candidate sorted) []) := by
  unfold candidates
  rw [Memo.expr_ok_iff.2 stored]
  rfl

theorem mem_filter_eligible_iff {expr : Expr} (stored : context.memo.exprs[id]? = some expr)
    {rule : Rule} :
    (rule ∈ rules.filter fun rule =>
      rule.kind = kind && rule.pattern.matchesRoot expr.operator expr.arity
        && !config.isDisabled rule.name && !context.memo.isMarked id rule.mark) ↔
      rule ∈ rules ∧ rule.Eligible context config kind id := by
  rw [List.mem_filter]
  refine and_congr_right fun _ => ?_
  simp only [Bool.and_eq_true, decide_eq_true_eq, Bool.not_eq_true']
  constructor
  · rintro ⟨⟨⟨sameKind, root⟩, enabled⟩, fresh⟩
    exact ⟨sameKind, ⟨expr, stored, root⟩, enabled, fresh⟩
  · rintro ⟨sameKind, ⟨other, again, root⟩, enabled, fresh⟩
    rw [stored] at again
    cases again
    exact ⟨⟨⟨sameKind, root⟩, enabled⟩, fresh⟩

/-- **A rule is tried** if it is eligible and promises something. -/
theorem mem_candidates_iff {found : List (Rule × Promise)}
    (done : candidates rules context config kind id = .ok found) {rule : Rule}
    {promise : Promise} :
    (rule, promise) ∈ found ↔ rule ∈ rules ∧ rule.Eligible context config kind id ∧
      rule.promise context id = .ok promise ∧ promise ≠ .skip := by
  have stored : ∃ expr, context.memo.exprs[id]? = some expr := by
    unfold candidates at done
    obtain ⟨expr, stored, _⟩ := bind_eq_ok_iff.1 done
    exact ⟨expr, Memo.expr_ok_iff.1 stored⟩
  obtain ⟨expr, stored⟩ := stored
  rw [candidates_eq stored] at done
  obtain ⟨judged, promises, done⟩ := bind_eq_ok_iff.1 done
  cases pure_eq_ok_iff.1 done
  rw [mem_foldl_insertByPromise, List.mem_filter, mem_mapM_iff promises]
  simp only [List.not_mem_nil, or_false, bne_iff_ne]
  constructor
  · rintro ⟨⟨other, member, given⟩, worth⟩
    obtain ⟨value, judgement, given⟩ := bind_eq_ok_iff.1 given
    cases pure_eq_ok_iff.1 given
    obtain ⟨listed, eligible⟩ := (mem_filter_eligible_iff stored).1 member
    exact ⟨listed, eligible, judgement, worth⟩
  · rintro ⟨listed, eligible, judgement, worth⟩
    refine ⟨⟨rule, (mem_filter_eligible_iff stored).2 ⟨listed, eligible⟩, ?_⟩, worth⟩
    rw [judgement]
    rfl

/-- Every eligible rule was judged. -/
theorem exists_promise_of_candidates {found : List (Rule × Promise)}
    (done : candidates rules context config kind id = .ok found) {rule : Rule}
    (listed : rule ∈ rules) (eligible : rule.Eligible context config kind id) :
    ∃ promise, rule.promise context id = .ok promise := by
  obtain ⟨expr, stored, _⟩ := eligible.root
  rw [candidates_eq stored] at done
  obtain ⟨judged, promises, _⟩ := bind_eq_ok_iff.1 done
  obtain ⟨_, _, given⟩ :=
    exists_mem_of_mapM promises ((mem_filter_eligible_iff stored).2 ⟨listed, eligible⟩)
  obtain ⟨promise, judgement, _⟩ := bind_eq_ok_iff.1 given
  exact ⟨promise, judgement⟩

/-- A rule that judges an expression by what is stored of it. -/
def Stable (rule : Rule) : Prop :=
  ∀ context other : Context, other.memo.exprs = context.memo.exprs →
    rule.promise other = rule.promise context

end Rule

/-! ### Trials of a round -/

/-- A logical expression in a group that can be reached from a root. -/
def Memo.Below (memo : Memo) (root : GroupId) (id : ExprId) : Prop :=
  ∃ groups place group, memo.reachable root = .ok groups ∧ place ∈ groups ∧
    memo.groups[place]? = some group ∧ id ∈ memo.logicalMembers group

theorem Memo.Below.exists_logical {memo : Memo} {root : GroupId} {id : ExprId}
    (below : memo.Below root id) :
    ∃ expr operator, memo.exprs[id]? = some expr ∧ expr.operator = .logical operator := by
  obtain ⟨_, _, _, _, _, _, listed⟩ := below
  obtain ⟨expr, stored, family⟩ := hasOperator_iff.1 (List.mem_filter.1 listed).2
  cases kind : expr.operator with
  | logical operator => exact ⟨expr, operator, stored, kind⟩
  | physical | scalar =>
    rw [kind] at family
    cases family

section Reachable

variable {memo next : Memo} (groups : next.groups = memo.groups) (exprs : next.exprs = memo.exprs)

include exprs in
theorem Memo.logicalMembers_congr : next.logicalMembers = memo.logicalMembers := by
  have same : next.hasOperator Operator.isLogical = memo.hasOperator Operator.isLogical := by
    funext id
    unfold Memo.hasOperator
    rw [exprs]
  funext group
  unfold Memo.logicalMembers
  rw [same]

include groups exprs

theorem Memo.groupsBelow_congr : next.groupsBelow = memo.groupsBelow := by
  funext id
  unfold Memo.groupsBelow Memo.relationalChildren Memo.isScalarGroup
  rw [groups, exprs]

theorem Memo.reachFrom_congr (levels : Nat) (frontier : List GroupId) (seen : Array Bool) :
    next.reachFrom levels frontier seen = memo.reachFrom levels frontier seen := by
  induction levels generalizing frontier seen with
  | zero => rfl
  | succ levels ih =>
    unfold Memo.reachFrom
    rw [Memo.groupsBelow_congr groups exprs]
    split
    split
    · rfl
    · exact ih _ _

/-- Marks do not change what can be reached. -/
theorem Memo.reachable_congr (root : GroupId) : next.reachable root = memo.reachable root := by
  unfold Memo.reachable Memo.group
  rw [groups]
  simp only [Memo.reachFrom_congr groups exprs]

end Reachable

namespace Search

variable {search : Search} {kind : RuleKind} {root : GroupId} {trials : List Trial}

/-- What is tried on one expression. -/
def tries (search : Search) (kind : RuleKind) (id : ExprId) : Except Fault (List Trial) := do
  let candidates ← Rule.candidates search.rules search.context search.config kind id
  return candidates.map fun candidate => (id, candidate.1)

theorem trials_eq : search.trials kind root = (do
    let ids ← search.context.memo.reachable root
    let groups ← ids.mapM search.context.memo.group
    let tried ← (groups.flatMap search.context.memo.logicalMembers).mapM (search.tries kind)
    return tried.flatten) := rfl

/-- What is tried are all expressions below the root. -/
theorem exists_tries (done : search.trials kind root = .ok trials) :
    ∃ (ids : List ExprId) (tried : List (List Trial)),
      (∀ id, search.context.memo.Below root id ↔ id ∈ ids) ∧
        ids.mapM (search.tries kind) = .ok tried ∧ trials = tried.flatten := by
  rw [trials_eq] at done
  obtain ⟨ids, reached, done⟩ := bind_eq_ok_iff.1 done
  obtain ⟨groups, found, done⟩ := bind_eq_ok_iff.1 done
  obtain ⟨tried, each, done⟩ := bind_eq_ok_iff.1 done
  refine ⟨_, tried, fun id => ?_, each, (pure_eq_ok_iff.1 done).symm⟩
  rw [List.mem_flatMap]
  constructor
  · rintro ⟨others, place, group, again, inside, there, member⟩
    rw [reached] at again
    cases again
    exact ⟨group, (mem_mapM_iff found).2 ⟨place, inside, Memo.group_ok_iff.2 there⟩, member⟩
  · rintro ⟨group, inside, member⟩
    obtain ⟨place, there, given⟩ := (mem_mapM_iff found).1 inside
    exact ⟨ids, place, group, reached, there, Memo.group_ok_iff.1 given, member⟩

/-- **A rule is tried on an expression** below the root if it is one of its candidates. -/
theorem mem_trials_iff (done : search.trials kind root = .ok trials) {id : ExprId} {rule : Rule} :
    (id, rule) ∈ trials ↔ search.context.memo.Below root id ∧ rule ∈ search.rules ∧
      rule.Eligible search.context search.config kind id ∧
      ∃ promise, rule.promise search.context id = .ok promise ∧ promise ≠ .skip := by
  obtain ⟨ids, tried, below, each, rfl⟩ := exists_tries done
  rw [below, List.mem_flatten]
  constructor
  · rintro ⟨part, inside, member⟩
    obtain ⟨other, there, given⟩ := (mem_mapM_iff each).1 inside
    obtain ⟨candidates, judged, given⟩ := bind_eq_ok_iff.1 given
    cases pure_eq_ok_iff.1 given
    obtain ⟨⟨first, promise⟩, candidate, same⟩ := List.mem_map.1 member
    obtain ⟨rfl, rfl⟩ := Prod.mk.inj same
    obtain ⟨listed, eligible, judgement, worth⟩ := (Rule.mem_candidates_iff judged).1 candidate
    exact ⟨there, listed, eligible, promise, judgement, worth⟩
  · rintro ⟨there, listed, eligible, promise, judgement, worth⟩
    obtain ⟨part, inside, given⟩ := exists_mem_of_mapM each there
    obtain ⟨candidates, judged, given⟩ := bind_eq_ok_iff.1 given
    cases pure_eq_ok_iff.1 given
    refine ⟨_, inside, List.mem_map.2 ⟨(rule, promise), ?_, rfl⟩⟩
    exact (Rule.mem_candidates_iff judged).2 ⟨listed, eligible, judgement, worth⟩

/-- Where all trials are listed, every eligible rule was judged below the root. -/
theorem exists_promise_of_trials (done : search.trials kind root = .ok trials) {id : ExprId}
    {rule : Rule} (below : search.context.memo.Below root id) (listed : rule ∈ search.rules)
    (eligible : rule.Eligible search.context search.config kind id) :
    ∃ promise, rule.promise search.context id = .ok promise := by
  obtain ⟨ids, tried, among, each, rfl⟩ := exists_tries done
  obtain ⟨_, _, given⟩ := exists_mem_of_mapM each ((among id).1 below)
  obtain ⟨candidates, judged, _⟩ := bind_eq_ok_iff.1 given
  exact Rule.exists_promise_of_candidates judged listed eligible

/-- **Nothing is left to try**: every stable rule of a kind that may be applied to an expression below
a root was applied to it. -/
def Exhausted (kind : RuleKind) (root : GroupId) (search : Search) : Prop :=
  ∀ ⦃id : ExprId⦄ ⦃rule : Rule⦄ ⦃expr : Expr⦄ ⦃promise : Promise⦄,
    search.context.memo.Below root id → rule ∈ search.rules → rule.kind = kind → rule.Stable →
    search.config.isDisabled rule.name = false → search.context.memo.exprs[id]? = some expr →
    rule.pattern.matchesRoot expr.operator expr.arity = true →
    rule.promise search.context id = .ok promise → promise ≠ .skip →
      search.context.memo.isMarked id rule.mark = true

/-- **A last round**: all trials that it listed were carried out, and nothing was added. -/
structure Finished (kind : RuleKind) (root : GroupId) (derived final : Search) : Prop where
  listed : ∃ trials, derived.trials kind root = .ok trials ∧
    ∀ trial ∈ trials, final.context.memo.isMarked trial.1 trial.2.mark = true
  groups : final.context.memo.groups = derived.context.memo.groups
  exprs : final.context.memo.exprs = derived.context.memo.exprs
  facts : final.context.facts = derived.context.facts
  rules : final.rules = derived.rules
  config : final.config = derived.config
  marks : ∀ id mark, derived.context.memo.isMarked id mark = true →
    final.context.memo.isMarked id mark = true

namespace Finished

variable {final : Search}

theorem of_no_trials (none : search.trials kind root = .ok []) : Finished kind root search search :=
  ⟨⟨[], none, nofun⟩, rfl, rfl, rfl, rfl, rfl, fun _ _ marked => marked⟩

variable (finished : Finished kind root search final)
include finished

theorem below {id : ExprId} (below : final.context.memo.Below root id) :
    search.context.memo.Below root id := by
  obtain ⟨ids, place, group, reached, inside, there, logical⟩ := below
  rw [Memo.reachable_congr finished.groups finished.exprs] at reached
  rw [finished.groups] at there
  rw [Memo.logicalMembers_congr finished.exprs] at logical
  exact ⟨ids, place, group, reached, inside, there, logical⟩

/-- What is known of scalar groups is known still. -/
theorem scalar_eq (id : GroupId) : final.context.scalar id = search.context.scalar id := by
  unfold Context.scalar Memo.sheet?
  rw [finished.groups, finished.exprs, finished.facts]

section Rules

variable {id : ExprId} {rule : Rule} {expr : Expr} (below : final.context.memo.Below root id)
  (known : rule ∈ final.rules) (sameKind : rule.kind = kind)
  (enabled : final.config.isDisabled rule.name = false)
  (stored : final.context.memo.exprs[id]? = some expr)
  (matching : rule.pattern.matchesRoot expr.operator expr.arity = true)
include below known sameKind enabled stored matching

/-- A rule that may be applied was applied in the last round or before, or the last round skipped
it. -/
theorem isMarked_or_skips : final.context.memo.isMarked id rule.mark = true ∨
    rule.promise search.context id = .ok .skip := by
  by_cases fresh : final.context.memo.isMarked id rule.mark = true
  · exact Or.inl fresh
  obtain ⟨trials, done, marked⟩ := finished.listed
  have eligible : rule.Eligible search.context search.config kind id :=
    ⟨sameKind, ⟨expr, finished.exprs ▸ stored, matching⟩, finished.config ▸ enabled,
      Bool.eq_false_iff.2 fun before => fresh (finished.marks id rule.mark before)⟩
  have listed : rule ∈ search.rules := finished.rules ▸ known
  have before := finished.below below
  obtain ⟨promise, judged⟩ := exists_promise_of_trials done before listed eligible
  by_cases worth : promise = .skip
  · exact Or.inr (worth ▸ judged)
  · have tried := (mem_trials_iff done).2 ⟨before, listed, eligible, promise, judged, worth⟩
    exact absurd (marked (id, rule) tried) fresh

/-- **A rule that was worth trying** in the last round was applied in that round or before. -/
theorem isMarked {promise : Promise} (judgement : rule.promise search.context id = .ok promise)
    (worth : promise ≠ .skip) : final.context.memo.isMarked id rule.mark = true := by
  refine (finished.isMarked_or_skips below known sameKind enabled stored matching).resolve_right
    fun skips => worth ?_
  exact Except.ok.inj (judgement.symm.trans skips)

end Rules

/-- **Nothing is left to try** after a last round. -/
theorem exhausted : final.Exhausted kind root := by
  intro id rule expr promise below known sameKind stable enabled stored matching judgement worth
  refine finished.isMarked below known sameKind enabled stored matching ?_ worth
  rw [← stable search.context final.context finished.exprs]
  exact judgement

end Finished

end Search

end Cascades
