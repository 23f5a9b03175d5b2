/-
**A search does not go wrong.**

A search starts on a formed memo. A round derives all properties, so that rules find what they look
at; what they propose is over the same tables as its group, so that insertions succeed and the memo
stays formed; and on a formed memo every relation has statistics, so that plans can be costed. The only
fault left is a number of joined tables that is too great to be counted. Rules that rearrange the memo
make none greater than those that there were, so it comes up at once or not at all.

* `Follows`: a search that went on from another one, its numbers of tables followed where they are known;
* `round_follows`, `phase_follows`: so do rounds and phases;
* `Continues`, `round_leads`, `phase_leads`: the same without the numbers of tables;
* `optimize_follows`: the whole search; `optimize_safe`: it gives a result or is stopped;
* `optimize_faults`: a join of no inputs ends it in a fault.
-/

import Cascades.Proofs.Gathering.Counting
import Cascades.Proofs.Gathering.Rearranging
import Cascades.Proofs.Plan.Cheapest
import Cascades.Proofs.Rule.Implementation
import Cascades.Proofs.Search.Round

namespace Cascades

open Cascades.Action Memo

variable {exact forms : Prop} {faulty : Fault → Prop} {breadth later : GroupId → Breadth} {memo : Memo}

/-! ### Marks -/

/-- A mark changes nothing about groups and expressions. -/
theorem Memo.Formed.mark (formed : memo.Formed breadth) {id : ExprId} {mark : Mark} :
    memo.Develops breadth (memo.mark id mark) breadth := by
  obtain ⟨valid, grows⟩ := mark_keeps formed.toValid
  have isOpen : (memo.mark id mark).isOpen = memo.isOpen := by
    unfold Memo.mark
    split <;> rfl
  have same : (memo.mark id mark).exprs = memo.exprs := exprs_mark
  refine ⟨?_, grows, fun _ => rfl, fun stored _ => same ▸ stored⟩
  refine formed.of_grows grows valid (fun _ => rfl) (fun {number expr} stored => ?_)
    (fun {other tables} new inside => ?_) (isOpen.trans formed.isOpen) fun {other group} there => ?_
  · rw [exprs_mark] at stored
    exact Or.inl stored
  · rw [groups_mark] at inside
    exact absurd inside (Nat.not_lt.2 new)
  · rw [groups_mark] at there
    exact formed.groupsOpen there

namespace Search

variable {search start : Search} {kind : RuleKind} {root : GroupId}

/-! ### Trials -/

/-- The groups below a group are there. -/
theorem reachable_ends (inside : root < memo.groups.size) :
    Ends faulty (memo.reachable root) fun ids => ∀ id ∈ ids, id < memo.groups.size := by
  obtain ⟨group, there⟩ := group_of_lt inside
  unfold Memo.reachable
  refine Ends.bind_ok (group_ok_iff.2 there) (Ends.ite (Ends.pure nofun) ?_)
  exact Ends.pure fun id member => List.mem_range.1 (List.mem_filter.1 member).1

/-- Sure rules judge every expression. -/
theorem tries_ends (ready : search.context.Ready breadth)
    (sure : ∀ rule ∈ search.rules, rule.Sure faulty) {id : ExprId} {expr : Expr}
    (stored : search.context.memo.exprs[id]? = some expr) :
    Ends faulty (search.tries kind id) fun _ => True := by
  unfold tries
  rw [Rule.candidates_eq stored]
  have each : ∀ rule ∈ search.rules.filter fun rule =>
      rule.kind = kind && rule.pattern.matchesRoot expr.operator expr.arity
        && !search.config.isDisabled rule.name && !search.context.memo.isMarked id rule.mark,
      Ends faulty (do return (rule, ← rule.promise search.context id)) fun _ => True := by
    intro rule member
    obtain ⟨listed, eligible⟩ := (Rule.mem_filter_eligible_iff stored).1 member
    obtain ⟨other, again, root⟩ := eligible.root
    rw [stored] at again
    cases again
    exact ((sure rule listed).judges ready stored root).returns
  exact (Ends.mapM_all each).returns.returns

/-- The trials of a round are rules of its kind for stored expressions. -/
theorem known_of_trials {trials : List Trial} (done : search.trials kind root = .ok trials) :
    ∀ trial ∈ trials, trial.2 ∈ search.rules ∧ trial.2.kind = kind ∧
      ∃ expr, search.context.memo.exprs[trial.1]? = some expr := by
  intro trial member
  obtain ⟨_, rule, eligible, _⟩ := (mem_trials_iff done).1 member
  obtain ⟨expr, stored, _⟩ := eligible.root
  exact ⟨rule, eligible.sameKind, expr, stored⟩

/-- **The trials of a round** are found. -/
theorem trials_ends (ready : search.context.Ready breadth)
    (sure : ∀ rule ∈ search.rules, rule.Sure faulty)
    (inside : root < search.context.memo.groups.size) :
    Ends faulty (search.trials kind root) fun trials => ∀ trial ∈ trials,
      trial.2 ∈ search.rules ∧ trial.2.kind = kind ∧
        ∃ expr, search.context.memo.exprs[trial.1]? = some expr := by
  have total : Ends faulty (search.trials kind root) fun _ => True := by
    rw [trials_eq]
    refine Ends.bind (reachable_ends inside) fun ids inside => ?_
    have each : ∀ id ∈ ids, Ends faulty (search.context.memo.group id) fun _ => True := by
      intro id member
      obtain ⟨group, there⟩ := group_of_lt (inside id member)
      exact Ends.of_ok (group_ok_iff.2 there) trivial
    refine Ends.bind (Ends.mapM_all each) fun groups _ => ?_
    have tried : ∀ id ∈ groups.flatMap search.context.memo.logicalMembers,
        Ends faulty (search.tries kind id) fun _ => True := by
      intro id member
      obtain ⟨group, _, listed⟩ := List.mem_flatMap.1 member
      obtain ⟨expr, stored, _⟩ := hasOperator_iff.1 (List.mem_filter.1 listed).2
      exact tries_ends ready sure stored
    exact (Ends.mapM_all tried).returns
  exact total.of_all fun trials done => known_of_trials done

/-- The proposals of a trial belong into the group of its expression, and redistribute what it holds
where that is followed, unless a guard stopped them. -/
def Prepared (exact forms : Prop) (memo : Memo) (breadth : GroupId → Breadth)
    (result : Trial × Except Abort (List Proposal)) : Prop :=
  ∃ expr, memo.exprs[result.1.1]? = some expr ∧
    Ends Abort.Stops result.2 fun proposals => ∀ proposal ∈ proposals,
      memo.Suits breadth expr.group proposal ∧
        (exact → memo.Redistributes forms expr.group proposal)

theorem proposalsOf_ends {context : Context} (ready : context.Ready breadth) {trial : Trial}
    (sure : trial.2.Sure faulty)
    (rearranges : exact → trial.2.Rearranging ∧ context.memo.Holds)
    (allowed : trial.2.kind = .implementation → forms) {expr : Expr}
    (stored : context.memo.exprs[trial.1]? = some expr) :
    Ends faulty (proposalsOf context trial) (Prepared exact forms context.memo breadth) := by
  have ends := sure.proposals ready stored
  unfold proposalsOf
  cases done : trial.2.proposals context trial.1 with
  | ok proposals =>
    rw [done] at ends
    refine Ends.pure ⟨expr, stored, fun proposal member => ⟨ends proposal member, fun known => ?_⟩⟩
    obtain ⟨rearranging, holds⟩ := rearranges known
    exact (rearranging.proposals ready.formed holds stored done proposal member).allow allowed
  | error failure =>
    rw [done] at ends
    cases failure with
    | abort abort => exact Ends.pure ⟨expr, stored, ends⟩
    | fault cause => exact ends

/-! ### Commits -/

/-- A search that went on from another one while the memo developed. Where they are followed, the
numbers of tables are those of a memo that was rearranged. -/
structure Follows (exact forms : Prop) (first : Memo) (start : Search)
    (breadth : GroupId → Breadth) (search : Search) : Prop where
  rules : search.rules = start.rules
  develops : ∃ later, start.context.memo.Develops breadth search.context.memo later ∧
    (exact → search.context.Tracked forms first later)

variable {first : Memo}

theorem Follows.refl (formed : start.context.memo.Formed breadth)
    (tracked : exact → start.context.Tracked forms first breadth) :
    Follows exact forms first start breadth start :=
  ⟨rfl, breadth, formed.refl, tracked⟩

theorem Follows.fresh {catalog : Catalog} {rules : List Rule} {config : Config} (built : memo.Built)
    (formed : memo.Formed breadth) : Follows exact forms memo (ofMemo memo catalog rules config)
      breadth (ofMemo memo catalog rules config) :=
  .refl formed fun _ => ⟨built.holds.rearranged formed.toValid, Context.knowsTables_of_blank⟩

section Commit

variable (formed : start.context.memo.Formed breadth)
include formed

/-- **What is committed** belongs into the group of its expression. -/
theorem Follows.committed (follows : Follows exact forms first start breadth search) {trial : Trial}
    {expr : Expr} (stored : start.context.memo.exprs[trial.1]? = some expr)
    {proposals : List Proposal}
    (suits : ∀ proposal ∈ proposals, start.context.memo.Suits breadth expr.group proposal ∧
      (exact → start.context.memo.Redistributes forms expr.group proposal)) :
    (∃ added next, search.commit trial proposals = .ok (added, next)) ∧
      ∀ added next, search.Committed trial proposals added next →
        Follows exact forms first start breadth next := by
  obtain ⟨later, develops, tracked⟩ := follows.develops
  obtain ⟨group, place, _⟩ := formed.placed stored
  have marked : start.context.memo.Develops breadth
      (search.context.memo.mark trial.1 trial.2.mark) later := develops.trans develops.formed.mark
  have there := marked.grows.exprs stored
  obtain ⟨count, last, final, inserted, more⟩ :=
    insertProposals_develops (fun proposal member => (suits proposal member).1) (lt_of_group place)
      marked
  constructor
  · refine ⟨count, _, bind_eq_ok_iff.2 ⟨(count, last), ?_, rfl⟩⟩
    exact bind_eq_ok_iff.2 ⟨expr, expr_ok_iff.2 there, inserted⟩
  · rintro added _ ⟨other, memo, again, done, rfl⟩
    rw [exprs_mark, again] at there
    cases there
    rw [inserted] at done
    cases done
    refine ⟨follows.rules, final, marked.trans more, fun known => ?_⟩
    obtain ⟨rearranged, knows⟩ := tracked known
    exact ⟨insertProposals_rearranged rearranged.mark formed.toValid marked.grows
        (fun proposal member => (suits proposal member).2 known) (lt_of_group place) inserted,
      (knows.develops develops.formed.mark).develops more⟩

/-- **Proposals that belong into a group** are committed. -/
theorem commit_ends (follows : Follows exact forms first start breadth search) {trial : Trial}
    {expr : Expr} (stored : start.context.memo.exprs[trial.1]? = some expr)
    {proposals : List Proposal}
    (suits : ∀ proposal ∈ proposals, start.context.memo.Suits breadth expr.group proposal ∧
      (exact → start.context.memo.Redistributes forms expr.group proposal)) :
    Ends faulty (search.commit trial proposals) fun ended =>
      Follows exact forms first start breadth ended.2 := by
  obtain ⟨⟨added, next, done⟩, onward⟩ := follows.committed formed stored suits
  exact Ends.of_ok done (onward added next (commit_cases done))

/-- **The trials of a round** are committed. -/
theorem commitAll_leads {added : Nat} {results : List (Trial × Except Abort (List Proposal))}
    (prepared : ∀ result ∈ results, Prepared exact forms start.context.memo breadth result) :
    Leads faulty (Follows exact forms first start breadth) (commitAll added results)
      fun _ => Follows exact forms first start breadth := by
  induction results generalizing added with
  | nil => exact Leads.pure fun _ follows => follows
  | cons result rest ih =>
    obtain ⟨trial, result⟩ := result
    obtain ⟨expr, stored, ends⟩ := prepared _ List.mem_cons_self
    rw [commitAll]
    refine Leads.bind_abort ends fun proposals suits => ?_
    refine Leads.bind_get fun search follows => ?_
    refine Leads.bind_lift (commit_ends formed follows stored suits) fun ended onward => ?_
    refine Leads.bind (Leads.set onward) fun _ => ?_
    split
    · exact Leads.pure fun _ follows => follows
    · exact ih fun other member => prepared other (List.mem_cons_of_mem _ member)

end Commit

/-! ### Rounds -/

/-- A search that went on from another one, all of its properties derived. -/
structure Derived (start : Search) (breadth : GroupId → Breadth) (derived : Search)
    (later : GroupId → Breadth) : Prop where
  rules : derived.rules = start.rules
  develops : start.context.memo.Develops breadth derived.context.memo later
  complete : ∀ id < derived.context.memo.groups.size, derived.context.Complete id

theorem Derived.ready (derived : Derived start breadth search later) :
    search.context.Ready later := ⟨derived.develops.formed, derived.complete⟩

section Rounds

variable (countable : Countable exact faulty breadth start.context.memo)
include countable

/-- **All properties are derived** before a round looks for trials. Then the tables that are followed
are counted. -/
theorem derive_follows
    (follows : Follows exact forms start.context.memo start breadth search) :
    Leads faulty (· = search) (onContext Context.deriveAll) fun _ derived => ∃ later,
      Derived start breadth derived later ∧
        (exact → derived.context.Tracked forms start.context.memo later ∧
          ∀ id < derived.context.memo.groups.size, (later id).tables ≤ greatestCount) := by
  obtain ⟨later, develops, tracked⟩ := follows.develops
  have derives : Leads faulty (· = search.context) Context.deriveAll fun _ =>
      Context.Filled exact (fun id => (later id).tables) search.context.memo
        search.context.memo.groups.size :=
    (Context.deriveAll_leads develops.formed.toValid develops.formed.laid develops.formed.logicalFirst
      (countable.counting develops fun known => (tracked known).rearranged)).of_start
      fun _ same => ⟨same ▸ rfl, fun known => same ▸ (tracked known).knows⟩
  refine derives.onPart.mono fun _ derived made => ?_
  obtain ⟨context, rfl, filled⟩ := made
  have same := filled.memo_eq
  refine ⟨later, ⟨follows.rules, same ▸ develops, same ▸ filled.complete⟩, fun known =>
    ⟨⟨same ▸ (tracked known).rearranged, filled.counted known⟩, fun id inside => ?_⟩⟩
  have inside : id < search.context.memo.groups.size := same ▸ inside
  cases shown : later id with
  | scalar => exact Nat.zero_le _
  | relation tables =>
    rw [← shown]
    exact filled.tables_le known inside (develops.formed.relational_of_breadth inside shown)

variable (sure : ∀ rule ∈ start.rules, rule.Sure faulty)
  (rearranging : exact → ∀ rule ∈ start.rules, rule.Rearranging)
  (allowed : kind = .implementation → forms)
include sure rearranging allowed

omit countable in
/-- The proposals of the trials of a round are found. -/
theorem prepared_ends {derived : Search} (made : Derived start breadth derived later)
    (tracked : exact → derived.context.Tracked forms start.context.memo later) {trials : List Trial}
    (listed : ∀ trial ∈ trials, trial.2 ∈ derived.rules ∧ trial.2.kind = kind ∧
      ∃ expr, derived.context.memo.exprs[trial.1]? = some expr) (limit : Nat) :
    Ends faulty ((trials.take limit).mapM (proposalsOf derived.context)) fun results =>
      ∀ result ∈ results, Prepared exact forms derived.context.memo later result := by
  refine Ends.mapM_all fun trial member => ?_
  obtain ⟨rule, same, expr, stored⟩ := listed trial (List.mem_of_mem_take member)
  have rule := made.rules ▸ rule
  exact proposalsOf_ends made.ready (sure _ rule)
    (fun known => ⟨rearranging known _ rule, (tracked known).rearranged.holds⟩)
    (fun implements => allowed (same.symm.trans implements)) stored

variable (inside : root < start.context.memo.groups.size)
include inside

/-- **A round** goes on from where a search started. -/
theorem round_follows :
    Leads faulty (Follows exact forms start.context.memo start breadth) (round kind root)
      fun _ => Follows exact forms start.context.memo start breadth := by
  refine Leads.bind_get fun search follows => ?_
  refine Leads.bind_abort Guard.check_ends fun _ _ => ?_
  refine Leads.bind (derive_follows countable follows) fun _ => ?_
  refine Leads.bind_get fun derived made => ?_
  obtain ⟨later, made, tracked⟩ := made
  have ready := made.ready
  have within := Nat.lt_of_lt_of_le inside made.develops.grows.size_groups
  refine Leads.bind_lift (trials_ends ready (made.rules.symm ▸ sure) within) fun trials listed => ?_
  split
  · refine Leads.pure fun _ same => ?_
    subst same
    exact ⟨made.rules, later, made.develops, fun known => (tracked known).1⟩
  · refine Leads.bind_lift (prepared_ends sure rearranging allowed made
      (fun known => (tracked known).1) listed _) fun results prepared => ?_
    have commits : Leads faulty (· = derived) (commitAll 0 results)
        fun _ => Follows exact forms start.context.memo derived later :=
      (commitAll_leads ready.formed prepared).of_start
        (by rintro _ rfl; exact .refl ready.formed fun known => (tracked known).1)
    refine Leads.bind commits fun added => Leads.bind_get fun last more => ?_
    refine Leads.pure fun _ same => ?_
    subst same
    obtain ⟨final, further, onward⟩ := more.develops
    exact ⟨more.rules.trans made.rules, final, made.develops.trans further, onward⟩

/-- **Rounds** go on from where a search started. -/
theorem rounds_follows {fuel : Nat} :
    Leads faulty (Follows exact forms start.context.memo start breadth) (rounds kind root fuel)
      fun _ => Follows exact forms start.context.memo start breadth := by
  induction fuel with
  | zero => exact Leads.pure fun _ follows => follows
  | succ fuel ih =>
    rw [rounds]
    refine Leads.bind (round_follows countable sure rearranging allowed inside) fun more => ?_
    split
    · exact ih
    · exact Leads.pure fun _ follows => follows

/-- A phase goes on from where a search started. -/
theorem phase_follows :
    Leads faulty (Follows exact forms start.context.memo start breadth) (phase kind root)
      fun _ => Follows exact forms start.context.memo start breadth :=
  Leads.bind_get fun _ follows =>
    (rounds_follows countable sure rearranging allowed inside).of_start
      fun _ same => same ▸ follows

end Rounds

/-- **A whole search** gives a result, or a guard stops it, or it ends in a fault that is allowed. -/
theorem optimize_follows (countable : Countable exact faulty breadth start.context.memo)
    (sure : ∀ rule ∈ start.rules, rule.Sure faulty)
    (rearranging : exact → ∀ rule ∈ start.rules, rule.Rearranging)
    (relational : start.context.memo.Relational root) (model : CostModel) :
    Leads faulty (Follows exact True start.context.memo start breadth) (optimize model root)
      fun _ _ => True := by
  have phases : ∀ kind, Leads faulty (Follows exact True start.context.memo start breadth)
      (phase kind root) fun _ => Follows exact True start.context.memo start breadth := fun kind =>
    phase_follows countable sure rearranging (fun _ => trivial) relational.inside
  refine Leads.bind (phases .exploration) fun _ => ?_
  refine Leads.bind (phases .implementation) fun _ => ?_
  refine Leads.bind_get fun search follows => ?_
  obtain ⟨later, develops, _⟩ := follows.develops
  have complete : (Plan.Setting.ofMemo search.context.memo search.context.catalog
      search.context.guard model).Complete :=
    Plan.Setting.complete_ofMemo develops.formed.toLinked develops.formed.laid
      develops.formed.logicalFirst
  have plans : Ends (Failure.Allowed faulty) (search.cheapest? model root) fun _ => True := by
    refine ((Plan.cheapest?_right develops.formed.toLinked
      (relational.mono develops.grows)).allow ?_).mono fun _ _ => trivial
    exact fun failure may => may.mono fun _ missing => absurd complete missing
  refine Leads.bind_failure plans fun plan _ => ?_
  have closes : Leads faulty (· = search) (modify fun search : Search =>
      { search with context := { search.context with memo := search.context.memo.close } })
      fun _ _ => True := Leads.modify fun _ _ => trivial
  exact Leads.bind closes fun _ => Leads.pure fun _ _ => trivial

/-! ### Searches whose tables are not followed -/

/-- A search that went on from another one while the memo developed. -/
structure Continues (start : Search) (breadth : GroupId → Breadth) (search : Search) : Prop where
  rules : search.rules = start.rules
  develops : ∃ later, start.context.memo.Develops breadth search.context.memo later

theorem Continues.refl (formed : start.context.memo.Formed breadth) :
    Continues start breadth start :=
  ⟨rfl, breadth, formed.refl⟩

theorem Follows.continues (follows : Follows exact forms first start breadth search) :
    Continues start breadth search := by
  obtain ⟨rules, later, develops, _⟩ := follows
  exact ⟨rules, later, develops⟩

theorem Continues.follows (continues : Continues start breadth search) :
    Follows False True first start breadth search := by
  obtain ⟨rules, later, develops⟩ := continues
  exact ⟨rules, later, develops, False.elim⟩

theorem derive_leads (overflow : faulty .sumTooGreat) (continues : Continues start breadth search) :
    Leads faulty (· = search) (onContext Context.deriveAll)
      fun _ derived => ∃ later, Derived start breadth derived later :=
  (derive_follows (absurd overflow) continues.follows).mono fun _ _ made => by
    obtain ⟨later, derived, _⟩ := made
    exact ⟨later, derived⟩

section Uncounted

variable (sure : ∀ rule ∈ start.rules, rule.Sure faulty) (overflow : faulty .sumTooGreat)
include sure overflow

section Phases

variable (inside : root < start.context.memo.groups.size)
include inside

theorem round_leads :
    Leads faulty (Continues start breadth) (round kind root) fun _ => Continues start breadth :=
  fun _ continues => ((round_follows (absurd overflow) sure False.elim (fun _ => trivial)
    inside).mono fun _ _ => Follows.continues) _ continues.follows

theorem phase_leads :
    Leads faulty (Continues start breadth) (phase kind root) fun _ => Continues start breadth :=
  fun _ continues => ((phase_follows (absurd overflow) sure False.elim (fun _ => trivial)
    inside).mono fun _ _ => Follows.continues) _ continues.follows

end Phases

theorem optimize_leads (relational : start.context.memo.Relational root) (model : CostModel) :
    Leads faulty (Continues start breadth) (optimize model root) fun _ _ => True :=
  fun _ continues => optimize_follows (absurd overflow) sure False.elim relational model _
    continues.follows

end Uncounted

/-! ### From well-formed expressions -/

/-- **A search does not go wrong.** From a memo into which well-formed logical expressions were
inserted, a search below a relation, with any settings, catalog, cost model and knowledge, gives a
result or is stopped. The only other end is that joined tables are too many to be counted. -/
theorem optimize_safe {model : CostModel} (built : search.context.memo.Built)
    (standard : search.rules = Rule.standard) (relational : search.context.memo.Relational root) :
    (∃ outcome final, optimize model root search = .ok (outcome, final)) ∨
      optimize model root search = .error .sumTooGreat := by
  let uncounted (cause : Fault) : Prop := cause = .sumTooGreat
  have overflow : uncounted .sumTooGreat := rfl
  obtain ⟨breadth, formed⟩ := built.formed
  have ends := optimize_leads (standard ▸ Rule.standard_sure) overflow relational model search
    (.refl formed)
  cases done : optimize model root search with
  | ok ended => exact Or.inl ⟨ended.1, ended.2, rfl⟩
  | error cause =>
    rw [done] at ends
    exact Or.inr (congrArg Except.error ends)

/-- A join of two tables. -/
def joinOfTables : List (Operator × List GroupId) :=
  [(.logical (.get ⟨"shop", "orders"⟩ []), []), (.logical (.get ⟨"shop", "items"⟩ []), []),
    (.truth, []), (.logical (.join .inner), [0, 1, 2])]

theorem optimize_safe_joinOfTables :
    ∃ memo outcome final, Memo.empty.build? joinOfTables = some memo ∧ memo.Relational 3 ∧
      optimize (CardinalityModel.cost {}) 3 (ofMemo memo {} Rule.standard {}) =
        .ok (outcome, final) := by
  have shown : (Memo.empty.build? joinOfTables).map (fun memo =>
      (memo.groups[3]?.map Group.isScalar,
        (optimize (CardinalityModel.cost {}) 3 (ofMemo memo {} Rule.standard {})).toOption.isSome)) =
      some (some false, true) := by
    decide +kernel
  obtain ⟨memo, made, shown⟩ := Option.map_eq_some_iff.1 shown
  obtain ⟨family, succeeds⟩ := Prod.mk.inj shown
  have relational : memo.Relational 3 := Option.map_eq_some_iff.1 family
  have safe : (∃ outcome final, optimize (CardinalityModel.cost {}) 3 (ofMemo memo {} Rule.standard {}) =
      .ok (outcome, final)) ∨ _ := optimize_safe (Built.empty.build? made) rfl relational
  rcases safe with ⟨outcome, final, done⟩ | failed
  · exact ⟨memo, outcome, final, made, relational, done⟩
  · rw [failed] at succeeds
    cases succeeds

/-- A join of no inputs. -/
def emptyJoin : List Memo.Request :=
  [.insert .truth [], .insert (.logical .naryJoin) [0]]

/-- **A join of no inputs** ends a search in a fault: its statistics begin with those of its first
child, which is the predicate. -/
theorem optimize_faults :
    ∃ memo cause, Memo.empty.performAll emptyJoin = .ok memo ∧ memo.Relational 1 ∧
      optimize (CardinalityModel.cost {}) 1 (ofMemo memo {} Rule.standard {}) = .error cause ∧
      cause.message = "statistics requested for scalar group 0" := by
  have shown : (Memo.empty.performAll emptyJoin).toOption.map (fun memo =>
      (memo.groups[1]?.map Group.isScalar,
        match optimize (CardinalityModel.cost {}) 1 (ofMemo memo {} Rule.standard {}) with
        | .ok _ => none
        | .error cause => some cause.message)) =
      some (some false, some "statistics requested for scalar group 0") := by
    decide +kernel
  obtain ⟨memo, history, shown⟩ := Option.map_eq_some_iff.1 shown
  obtain ⟨family, message⟩ := Prod.mk.inj shown
  cases done : optimize (CardinalityModel.cost {}) 1 (ofMemo memo {} Rule.standard {}) with
  | ok ended =>
    rw [done] at message
    cases message
  | error cause =>
    rw [done] at message
    exact ⟨memo, cause, toOption_eq_some_iff.1 history, Option.map_eq_some_iff.1 family, done,
      Option.some.inj message⟩

end Search

end Cascades
