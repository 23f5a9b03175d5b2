/-
**What an aborted phase leaves behind.**

A guard may refuse a step anywhere in a phase: since it is too deep, or since the search was cancelled
meanwhile. The proposals of a round are all found before any of them is inserted, so a refusal stands
somewhere in the list of results, and the trials before it are carried out while it and all that
follow are not.

* `applyAll`: trials with their proposals, each applied completely, one after another;
* `commitAll_split`: the results of a round up to the first that was aborted;
* `PossibleRound`, `PossiblePhase`: a round and a phase that may be cancelled at any point;
* `Leaves`: the tasks of all finished rounds and some first ones of the last round;
* `abort_leaves_prefix`: the memo that an abort leaves is the one they make.
-/

import Cascades.Proofs.Search.Budget

namespace Cascades

/-! ### Tasks -/

/-- A trial with what its rule proposed. -/
abbrev Task := Trial × List Proposal

namespace Memo

open Search (imprint)

/-- Applies tasks completely, one after another: each leaves its mark and all its proposals. -/
def applyAll (memo : Memo) (tasks : List Task) : Except Fault Memo :=
  tasks.foldlM (fun memo task => Prod.snd <$> task.1.2.commit memo task.1.1 task.2) memo

variable {memo next final : Memo} {task : Task} {tasks rest : List Task}

theorem applyAll_cons : memo.applyAll (task :: rest) = .ok final ↔
    ∃ added next, task.1.2.commit memo task.1.1 task.2 = .ok (added, next) ∧
      next.applyAll rest = .ok final := by
  unfold applyAll
  rw [List.foldlM_cons, bind_eq_ok_iff]
  constructor
  · rintro ⟨next, one, others⟩
    obtain ⟨⟨added, _⟩, committed, same⟩ := bind_eq_ok_iff.1 one
    cases pure_eq_ok_iff.1 same
    exact ⟨added, _, committed, others⟩
  · rintro ⟨added, next, committed, others⟩
    exact ⟨next, bind_eq_ok_iff.2 ⟨_, committed, rfl⟩, others⟩

theorem applyAll_append (first : memo.applyAll tasks = .ok next)
    (second : next.applyAll rest = .ok final) : memo.applyAll (tasks ++ rest) = .ok final := by
  unfold applyAll at first second ⊢
  rw [List.foldlM_append, first]
  exact second

/-- A task is a step of a search on the memo. -/
theorem committed_of_commit {added : Nat}
    (done : task.1.2.commit memo task.1.1 task.2 = .ok (added, next)) :
    ∃ after : Search, after.context.memo = next ∧
      Search.Committed { context := { memo } } task.1 task.2 added after := by
  refine ⟨{ context := { memo := next }, iterations := 1 }, rfl, Search.commit_cases ?_⟩
  exact bind_eq_ok_iff.2 ⟨_, done, rfl⟩

theorem applyAll_keeps (done : memo.applyAll tasks = .ok next) : memo.Keeps next := by
  induction tasks generalizing memo with
  | nil =>
    cases done
    exact Keeps.refl _
  | cons task rest ih =>
    obtain ⟨added, middle, one, others⟩ := applyAll_cons.1 done
    obtain ⟨after, rfl, committed⟩ := committed_of_commit one
    exact committed.keeps.trans (ih others)

/-- Tasks leave their marks and no others. -/
theorem applyAll_isMarked_iff (done : memo.applyAll tasks = .ok next) {id : ExprId} {mark : Mark} :
    next.isMarked id mark = true ↔
      (id, mark) ∈ tasks.map (fun task => imprint task.1) ∨ memo.isMarked id mark = true := by
  induction tasks generalizing memo with
  | nil =>
    cases done
    exact (or_iff_right List.not_mem_nil).symm
  | cons task rest ih =>
    obtain ⟨added, middle, one, others⟩ := applyAll_cons.1 done
    obtain ⟨after, rfl, committed⟩ := committed_of_commit one
    rw [ih others, committed.isMarked_iff, List.map_cons, List.mem_cons, or_left_comm, or_assoc]
    exact or_congr_left (Prod.ext_iff (x := (id, mark)) (y := imprint task.1)).symm

/-- What tasks proposed adds nothing any more. -/
theorem applyAll_resolves (valid : memo.Valid) (done : memo.applyAll tasks = .ok next)
    (member : task ∈ tasks) :
    ∃ expr, next.exprs[task.1.1]? = some expr ∧
      ∀ proposal ∈ task.2, next.Resolved expr.group proposal := by
  induction tasks generalizing memo with
  | nil => cases member
  | cons head rest ih =>
    obtain ⟨added, middle, one, others⟩ := applyAll_cons.1 done
    obtain ⟨after, rfl, committed⟩ := committed_of_commit one
    obtain ⟨between, first⟩ := committed.keeps valid
    obtain ⟨last, more⟩ := applyAll_keeps others between
    rcases List.mem_cons.1 member with rfl | member
    · obtain ⟨expr, stored, resolved⟩ := committed.resolves valid
      refine ⟨expr, more.exprs (first.exprs stored), fun proposal inside => ?_⟩
      exact (resolved proposal inside).mono between last more
    · exact ih between others member

/-- Every mark stands for a rule whose proposals, found for the expression on a memo out of which this
one grew, add nothing any more. -/
def Fulfilled (rules : List Rule) (memo : Memo) : Prop :=
  ∀ id mark, memo.isMarked id mark = true → ∃ rule ∈ rules, rule.mark = mark ∧
    ∃ (context : Context) (proposals : List Proposal) (expr : Expr),
      rule.proposals context id = .ok proposals ∧ context.memo.Grows memo ∧
      memo.exprs[id]? = some expr ∧ ∀ proposal ∈ proposals, memo.Resolved expr.group proposal

theorem Fulfilled.applyAll {rules : List Rule} {context : Context}
    (fulfilled : context.memo.Fulfilled rules) (valid : context.memo.Valid)
    (known : ∀ task ∈ tasks, task.1.2 ∈ rules ∧ task.1.2.proposals context task.1.1 = .ok task.2)
    (done : context.memo.applyAll tasks = .ok next) : next.Fulfilled rules := by
  obtain ⟨after, grows⟩ := applyAll_keeps done valid
  intro id mark marked
  rcases (applyAll_isMarked_iff done).1 marked with fresh | before
  · obtain ⟨task, member, same⟩ := List.mem_map.1 fresh
    cases same
    obtain ⟨expr, stored, resolved⟩ := applyAll_resolves valid done member
    obtain ⟨listed, proposed⟩ := known task member
    exact ⟨task.1.2, listed, rfl, context, task.2, expr, proposed, grows, stored, resolved⟩
  · obtain ⟨rule, listed, same, other, proposals, expr, proposed, earlier, stored, resolved⟩ :=
      fulfilled id mark before
    refine ⟨rule, listed, same, other, proposals, expr, proposed, earlier.trans grows,
      grows.exprs stored, fun proposal inside => ?_⟩
    exact (resolved proposal inside).mono valid after grows

end Memo

namespace Search

variable {kind : RuleKind} {root : GroupId} {search next final derived : Search} {abort : Abort}

/-! ### The results of a round -/

/-- A search that carried out tasks and is otherwise as it was. -/
structure CarriesOut (search : Search) (tasks : List Task) (next : Search) : Prop where
  memo_eq : search.context.memo.applyAll tasks = .ok next.context.memo
  rules_eq : next.rules = search.rules
  config_eq : next.config = search.config
  iterations_eq : next.iterations = search.iterations + tasks.length

theorem CarriesOut.refl : CarriesOut search [] search := ⟨rfl, rfl, rfl, rfl⟩

theorem CarriesOut.cons {trial : Trial} {proposals : List Proposal} {added : Nat} {tasks : List Task}
    (committed : search.Committed trial proposals added next) (rest : CarriesOut next tasks final) :
    CarriesOut search ((trial, proposals) :: tasks) final where
  memo_eq := by
    refine Memo.applyAll_cons.2 ⟨added, next.context.memo, ?_, rest.memo_eq⟩
    obtain ⟨expr, memo, stored, inserted, rfl⟩ := committed
    refine bind_eq_ok_iff.2 ⟨expr, Memo.expr_ok_iff.2 ?_, inserted⟩
    rw [Memo.exprs_mark]
    exact stored
  rules_eq := rest.rules_eq.trans committed.rules_eq
  config_eq := rest.config_eq.trans committed.config_eq
  iterations_eq := by
    rw [rest.iterations_eq, committed.iterations_eq, List.length_cons]
    omega

/-- What a round does with its results: it carries out all of them, or those up to one that fills
the memo, or those before the first that was aborted. -/
theorem commitAll_split {results : List (Trial × Except Abort (List Proposal))} {added : Nat}
    {outcome : Except Abort Nat} (done : commitAll added results search = .ok (outcome, final)) :
    ∃ (tasks : List Task) (rest : List (Trial × Except Abort (List Proposal))),
      results = tasks.map (fun task => (task.1, .ok task.2)) ++ rest ∧
      CarriesOut search tasks final ∧
      (((∃ total, outcome = .ok total) ∧ (rest = [] ∨ final.isFull = true)) ∨
        ∃ abort trial later, outcome = .error abort ∧ rest = (trial, .error abort) :: later) := by
  induction results generalizing added search with
  | nil =>
    cases done
    exact ⟨[], [], rfl, .refl, Or.inl ⟨⟨added, rfl⟩, Or.inl rfl⟩⟩
  | cons head rest ih =>
    obtain ⟨trial, result⟩ := head
    rcases commitAll_cons done with
      ⟨abort, rfl, rfl, rfl⟩ | ⟨proposals, more, next, rfl, committed, ends⟩
    · exact ⟨[], _, rfl, .refl, Or.inr ⟨abort, trial, rest, rfl, rfl⟩⟩
    · rcases ends with ⟨full, rfl, rfl⟩ | ⟨_, done⟩
      · exact ⟨[(trial, proposals)], rest, rfl, .cons committed .refl,
          Or.inl ⟨⟨_, rfl⟩, Or.inr full⟩⟩
      · obtain ⟨tasks, left, rfl, carried, ends⟩ := ih done
        exact ⟨(trial, proposals) :: tasks, left, rfl, .cons committed carried, ends⟩

/-! ### Cancelling at any point -/

/-- The search with its flag raised. -/
def cancel (search : Search) : Search :=
  { search with context := { search.context with guard := search.context.guard.cancel } }

/-- What a trial may give while the search may be cancelled: what its rule proposes, or the abort of
a cancelled search. -/
def MayGive (context : Context) (trial : Trial) (result : Trial × Except Abort (List Proposal)) :
    Prop :=
  proposalsOf context trial = .ok result ∨ result = (trial, .error .cancelled)

/-- A round that may be cancelled at any point: not at all, before it has its trials, or while it
looks for their proposals. From then on it asks no guard. -/
inductive PossibleRound (kind : RuleKind) (root : GroupId) :
    Search → Except Abort Bool → Search → Prop
  | undisturbed {search final : Search} {outcome : Except Abort Bool} :
      round kind root search = .ok (outcome, final) → PossibleRound kind root search outcome final
  | early {search : Search} {context : Context} : search.context.SameMemo context →
      PossibleRound kind root search (.error .cancelled) (cancel { search with context })
  | late {search derived final : Search} {listed : List Trial}
      {results : List (Trial × Except Abort (List Proposal))} {count : Except Abort Nat} :
      onContext Context.deriveAll search = .ok (.ok ⟨⟩, derived) →
        derived.trials kind root = .ok listed → listed ≠ [] →
        List.Forall₂ (MayGive derived.context)
          (listed.take (derived.config.maxIterations - derived.iterations)) results →
        commitAll 0 results derived.cancel = .ok (count, final) →
        PossibleRound kind root search
          (count.map fun added => !(!results.isEmpty && final.isFull) &&
            listed.length < derived.config.maxIterations - derived.iterations && added != 0) final

/-- A phase that may be cancelled at any point of any round. -/
inductive PossiblePhase (kind : RuleKind) (root : GroupId) :
    Search → Except Abort Unit → Search → Prop
  | stopped {search final : Search} {abort : Abort} :
      PossibleRound kind root search (.error abort) final →
        PossiblePhase kind root search (.error abort) final
  | last {search final : Search} : PossibleRound kind root search (.ok false) final →
      PossiblePhase kind root search (.ok ⟨⟩) final
  | again {search next final : Search} {outcome : Except Abort Unit} :
      PossibleRound kind root search (.ok true) next → PossiblePhase kind root next outcome final →
        PossiblePhase kind root search outcome final

/-- A phase may run as it does when nobody cancels it. -/
theorem phase_possible {outcome : Except Abort Unit}
    (done : phase kind root search = .ok (outcome, final)) :
    PossiblePhase kind root search outcome final := by
  obtain ⟨count, log, -, loop⟩ : ∃ count log, _ ∧ Loop kind root search count log _ := phase_loop
  rw [done] at loop
  clear done
  generalize ended : (Except.ok (outcome, final) : Except Fault _) = result at loop
  induction loop with
  | fault => cases ended
  | abort ran =>
    cases ended
    exact .stopped (.undisturbed ran)
  | last ran =>
    cases ended
    exact .last (.undisturbed ran)
  | again ran _ _ ih => exact .again (.undisturbed ran) (ih ended)

/-! ### Rounds that may be cancelled -/

/-- The tasks are the first trials of a round, each with what its rule proposes when the round
begins. -/
structure Begins (kind : RuleKind) (root : GroupId) (search derived : Search) (listed : List Trial)
    (tasks : List Task) : Prop where
  derives : onContext Context.deriveAll search = .ok (.ok ⟨⟩, derived)
  listed_eq : derived.trials kind root = .ok listed
  first : tasks.map Prod.fst <+: listed
  proposed : ∀ task ∈ tasks, task.1.2.proposals derived.context task.1.1 = .ok task.2

theorem mem_of_mayGive {context : Context} {trial : Trial}
    {result : Trial × Except Abort (List Proposal)} (may : MayGive context trial result) :
    result.1 = trial ∧
      (∀ proposals, result.2 = .ok proposals → trial.2.proposals context trial.1 = .ok proposals) ∧
      ∀ abort, result.2 = .error abort → proposalsOf context trial = .ok (trial, .error abort) ∨
        abort = .cancelled := by
  rcases may with given | rfl
  · have alone : [trial].mapM (proposalsOf context) = .ok [result] :=
      mapM_eq_ok_iff.2 (.cons given .nil)
    obtain rfl := (List.cons.inj (map_fst_results alone)).1
    obtain ⟨trial, outcome⟩ := result
    refine ⟨rfl, ?_, ?_⟩
    · rintro proposals rfl
      exact (mem_results alone List.mem_cons_self).2
    · rintro abort rfl
      exact Or.inl given
  · refine ⟨rfl, nofun, ?_⟩
    rintro _ ⟨⟩
    exact Or.inr rfl

/-- What is known of the results of a round, split behind the tasks that were carried out. -/
theorem forall₂_mayGive_split {context : Context} {tried : List Trial} {tasks : List Task}
    {rest : List (Trial × Except Abort (List Proposal))}
    (each : List.Forall₂ (MayGive context) tried
      (tasks.map (fun task => (task.1, .ok task.2)) ++ rest)) :
    tried = tasks.map Prod.fst ++ rest.map Prod.fst ∧
      (∀ task ∈ tasks, task.1.2.proposals context task.1.1 = .ok task.2) ∧
      ∀ trial abort, (trial, .error abort) ∈ rest →
        proposalsOf context trial = .ok (trial, .error abort) ∨ abort = .cancelled := by
  induction tasks generalizing tried with
  | nil =>
    refine ⟨?_, nofun, fun trial abort member => ?_⟩
    · exact (List.forall₂_eq_eq_eq ▸ List.forall₂_map_right_iff.2
        (each.imp fun trial result may => (mem_of_mayGive may).1.symm))
    · obtain ⟨other, _, may⟩ := exists_of_forall₂ each member
      obtain ⟨rfl, _, aborted⟩ := mem_of_mayGive may
      exact aborted abort rfl
  | cons task tasks ih =>
    rw [List.map_cons, List.cons_append] at each
    obtain ⟨trial, others, may, behind, rfl⟩ := List.forall₂_cons_right_iff.1 each
    obtain ⟨rfl, proposed, aborted⟩ := ih behind
    obtain ⟨rfl, given, _⟩ := mem_of_mayGive may
    exact ⟨rfl, List.forall_mem_cons.2 ⟨given task.2 rfl, proposed⟩, aborted⟩

/-- A round that found its proposals ends as the last one, with all its tasks carried out, or with
those before one that was aborted. -/
def Splits (kind : RuleKind) (root : GroupId) (search : Search) (outcome : Except Abort Bool)
    (final : Search) : Prop :=
  outcome = .ok false ∨
    ∃ derived listed tasks, Begins kind root search derived listed tasks ∧
      CarriesOut derived tasks final ∧
      ((outcome = .ok true ∧ listed = tasks.map Prod.fst) ∨
        ∃ abort failing later, outcome = .error abort ∧
          listed = tasks.map Prod.fst ++ failing :: later ∧
          (proposalsOf derived.context failing = .ok (failing, .error abort) ∨ abort = .cancelled))

theorem splits_of_commitAll {listed : List Trial} {budget : Nat}
    {results : List (Trial × Except Abort (List Proposal))} {count : Except Abort Nat}
    (derives : onContext Context.deriveAll search = .ok (.ok ⟨⟩, derived))
    (tried : derived.trials kind root = .ok listed)
    (each : List.Forall₂ (MayGive derived.context) (listed.take budget) results) {start : Search}
    (start_eq : start = derived ∨ start = derived.cancel)
    (commits : commitAll 0 results start = .ok (count, final)) {outcome : Except Abort Bool}
    (outcome_eq : outcome = count.map fun added =>
      !(!results.isEmpty && final.isFull) && listed.length < budget && added != 0) :
    Splits kind root search outcome final := by
  obtain ⟨tasks, rest, rfl, carried, ends⟩ := commitAll_split commits
  obtain ⟨taken, proposed, aborted⟩ := forall₂_mayGive_split each
  have carried : CarriesOut derived tasks final := by
    rcases start_eq with rfl | rfl
    · exact carried
    · exact ⟨carried.memo_eq, carried.rules_eq, carried.config_eq, carried.iterations_eq⟩
  have first : tasks.map Prod.fst <+: listed :=
    (taken ▸ List.prefix_append ..).trans (List.take_prefix budget listed)
  rcases ends with ⟨⟨total, rfl⟩, done⟩ | ⟨abort, failing, later, rfl, rfl⟩
  · obtain ⟨goesOn, rfl, more⟩ : ∃ goesOn : Bool, outcome = .ok goesOn ∧ goesOn = _ :=
      ⟨_, outcome_eq, rfl⟩
    cases goesOn with
    | false => exact Or.inl rfl
    | true =>
      refine Or.inr ⟨derived, listed, tasks, ⟨derives, tried, first, proposed⟩, carried, Or.inl ⟨rfl, ?_⟩⟩
      simp only [Bool.true_eq, Bool.and_eq_true, Bool.not_eq_true', Bool.and_eq_false_iff,
        Bool.not_eq_false', List.isEmpty_iff, List.append_eq_nil_iff, decide_eq_true_eq] at more
      obtain ⟨⟨room, fewer⟩, _⟩ := more
      have none : rest = [] := by
        rcases done with none | full
        · exact none
        · exact (room.resolve_right (by simp [full])).2
      rw [none, List.take_of_length_le (Nat.le_of_lt fewer)] at taken
      exact taken.trans (List.append_nil _)
  · refine Or.inr ⟨derived, listed, tasks, ⟨derives, tried, first, proposed⟩, carried,
      Or.inr ⟨abort, failing, later.map Prod.fst ++ listed.drop budget, outcome_eq, ?_, ?_⟩⟩
    · calc listed = listed.take budget ++ listed.drop budget := (List.take_append_drop ..).symm
        _ = _ := by rw [taken, List.append_assoc, List.map_cons, List.cons_append]
    · exact aborted failing abort List.mem_cons_self

/-- **A round that may be cancelled** is aborted with nothing carried out, or it found its proposals. -/
theorem PossibleRound.cases {outcome : Except Abort Bool}
    (ran : PossibleRound kind root search outcome final) :
    (∃ abort, outcome = .error abort ∧ CarriesOut search [] final) ∨
      Splits kind root search outcome final := by
  have untouched : ∀ {context : Context}, search.context.SameMemo context →
      CarriesOut search [] { search with context } :=
    fun same => ⟨congrArg Except.ok same.memo.symm, rfl, rfl, rfl⟩
  cases ran with
  | undisturbed done =>
    rcases round_cases done with ⟨abort, rfl, rfl | derives⟩ | ⟨derived, listed, derives, tried, ends⟩
    · exact Or.inl ⟨abort, rfl, .refl⟩
    · obtain ⟨context, same, rfl⟩ := onContext_deriveAll derives
      exact Or.inl ⟨abort, rfl, untouched same⟩
    · rcases ends with ⟨_, rfl, _⟩ | ⟨results, count, _, proposed, commits, rfl⟩
      · exact Or.inr (Or.inl rfl)
      · have each : List.Forall₂ (MayGive derived.context) _ results :=
          (mapM_eq_ok_iff.1 proposed).imp fun _ _ given => Or.inl given
        exact Or.inr (splits_of_commitAll derives tried each (Or.inl rfl) commits rfl)
  | early same => exact Or.inl ⟨.cancelled, rfl, (untouched same).memo_eq, rfl, rfl, rfl⟩
  | late derives tried _ each commits =>
    exact Or.inr (splits_of_commitAll derives tried each (Or.inr rfl) commits rfl)

/-! ### What is left -/

/-- What an aborted phase leaves: the tasks of all rounds that were finished, and in the last round
those before the trial that was aborted. That trial and the ones behind it are left over. -/
inductive Leaves (kind : RuleKind) (root : GroupId) (abort : Abort) :
    Search → (tasks : List Task) → (left : List Trial) → Search → Prop
  | early {search final : Search} :
      CarriesOut search [] final → Leaves kind root abort search [] [] final
  | within {search derived final : Search} {listed later : List Trial} {failing : Trial}
      {tasks : List Task} :
      Begins kind root search derived listed tasks → CarriesOut derived tasks final →
        listed = tasks.map Prod.fst ++ failing :: later →
        (proposalsOf derived.context failing = .ok (failing, .error abort) ∨ abort = .cancelled) →
        Leaves kind root abort search tasks (failing :: later) final
  | after {search derived next final : Search} {listed left : List Trial} {tasks rest : List Task} :
      Begins kind root search derived listed tasks → CarriesOut derived tasks next →
        listed = tasks.map Prod.fst → Leaves kind root abort next rest left final →
        Leaves kind root abort search (tasks ++ rest) left final

/-- **A phase that is aborted** leaves the tasks of its finished rounds and a first part of the last
round's tasks. -/
theorem PossiblePhase.leaves (ran : PossiblePhase kind root search (.error abort) final) :
    ∃ tasks left, Leaves kind root abort search tasks left final := by
  generalize ended : (Except.error abort : Except Abort Unit) = outcome at ran
  induction ran with
  | stopped round =>
    cases ended
    rcases round.cases with ⟨_, _, nothing⟩ | ⟨⟨⟩⟩ | ⟨_, _, tasks, begins, carried, ends⟩
    · exact ⟨[], [], .early nothing⟩
    · rcases ends with ⟨⟨⟩, _⟩ | ⟨_, failing, later, ⟨⟩, listed_eq, fails⟩
      exact ⟨tasks, _, .within begins carried listed_eq fails⟩
  | last => cases ended
  | again round _ ih =>
    obtain ⟨rest, left, leaves⟩ := ih ended
    rcases round.cases with ⟨_, ⟨⟩, _⟩ | ⟨⟨⟩⟩ | ⟨_, _, tasks, begins, carried, ends⟩
    rcases ends with ⟨_, listed_eq⟩ | ⟨_, _, _, ⟨⟩, _⟩
    exact ⟨tasks ++ rest, left, .after begins carried listed_eq leaves⟩

theorem CarriesOut.append {tasks rest : List Task} (first : CarriesOut search tasks next)
    (second : CarriesOut next rest final) : CarriesOut search (tasks ++ rest) final where
  memo_eq := Memo.applyAll_append first.memo_eq second.memo_eq
  rules_eq := second.rules_eq.trans first.rules_eq
  config_eq := second.config_eq.trans first.config_eq
  iterations_eq := by
    rw [second.iterations_eq, first.iterations_eq, List.length_append, Nat.add_assoc]

namespace Begins

variable {listed : List Trial} {tasks : List Task}

/-- Deriving the properties of all groups leaves the memo, the rules and the count as they are. -/
theorem carriesOut (begins : Begins kind root search derived listed tasks)
    (carried : CarriesOut derived tasks final) : CarriesOut search tasks final := by
  obtain ⟨context, same, rfl⟩ := onContext_deriveAll begins.derives
  have memo_eq : context.memo.applyAll tasks = .ok final.context.memo := carried.memo_eq
  rw [same.memo] at memo_eq
  exact ⟨memo_eq, carried.rules_eq, carried.config_eq, carried.iterations_eq⟩

/-- Tasks of a round keep what marks stand for. -/
theorem fulfilled (begins : Begins kind root search derived listed tasks)
    (carried : CarriesOut derived tasks final) (valid : search.context.memo.Valid)
    (before : search.context.memo.Fulfilled search.rules) :
    final.context.memo.Fulfilled search.rules := by
  obtain ⟨context, same, rfl⟩ := onContext_deriveAll begins.derives
  rw [← same.memo] at valid before
  refine before.applyAll valid (fun task member => ⟨?_, begins.proposed task member⟩) carried.memo_eq
  obtain ⟨_, known, _⟩ :=
    (mem_trials_iff begins.listed_eq).1 (begins.first.subset (List.mem_map_of_mem member))
  exact known

/-- Trials of a round that are behind those that were carried out have no mark. -/
theorem unmarked {left : List Trial} (begins : Begins kind root search derived listed tasks)
    (carried : CarriesOut derived tasks final) (listed_eq : listed = tasks.map Prod.fst ++ left)
    (valid : search.context.memo.Valid) (distinct : (search.rules.map Rule.mark).Nodup)
    {trial : Trial} (member : trial ∈ left) :
    final.context.memo.isMarked trial.1 trial.2.mark = false := by
  obtain ⟨context, same, rfl⟩ := onContext_deriveAll begins.derives
  rw [← same.memo] at valid
  have once : (listed.map imprint).Nodup := by
    refine nodup_trials ?_ ?_ begins.listed_eq
    · exact valid
    · exact distinct
  have inside : trial ∈ listed := listed_eq ▸ List.mem_append_right _ member
  obtain ⟨_, _, eligible, _⟩ := (mem_trials_iff begins.listed_eq).1 inside
  rw [listed_eq, List.map_append, List.map_map] at once
  refine Bool.eq_false_iff.2 fun marked => ?_
  rcases (Memo.applyAll_isMarked_iff carried.memo_eq).1 marked with carried | before
  · exact (List.nodup_append'.1 once).2.2 carried (List.mem_map_of_mem member)
  · exact Bool.false_ne_true (eligible.fresh.symm.trans before)

end Begins

namespace Leaves

variable {tasks : List Task} {left : List Trial}

theorem carriesOut (leaves : Leaves kind root abort search tasks left final) :
    CarriesOut search tasks final := by
  induction leaves with
  | early nothing => exact nothing
  | within begins carried => exact begins.carriesOut carried
  | after begins carried _ _ ih => exact .append (begins.carriesOut carried) ih

/-- Marks go on standing for proposals that are all inserted. -/
theorem fulfilled (leaves : Leaves kind root abort search tasks left final)
    (valid : search.context.memo.Valid) (before : search.context.memo.Fulfilled search.rules) :
    final.context.memo.Fulfilled search.rules := by
  induction leaves with
  | early nothing =>
    rw [← Except.ok.inj nothing.memo_eq]
    exact before
  | within begins carried => exact begins.fulfilled carried valid before
  | after begins carried _ _ ih =>
    have whole := begins.carriesOut carried
    rw [← whole.rules_eq]
    refine ih (Memo.applyAll_keeps whole.memo_eq valid).1 ?_
    rw [whole.rules_eq]
    exact begins.fulfilled carried valid before

/-- The trial that was aborted and those behind it leave no mark. -/
theorem unmarked (leaves : Leaves kind root abort search tasks left final)
    (valid : search.context.memo.Valid) (distinct : (search.rules.map Rule.mark).Nodup) :
    ∀ trial ∈ left, final.context.memo.isMarked trial.1 trial.2.mark = false := by
  induction leaves with
  | early => exact nofun
  | within begins carried listed_eq =>
    exact fun _ member => begins.unmarked carried listed_eq valid distinct member
  | after begins carried _ _ ih =>
    have whole := begins.carriesOut carried
    exact ih (Memo.applyAll_keeps whole.memo_eq valid).1 (whole.rules_eq ▸ distinct)

end Leaves

/-! ### Aborts -/

/-- A rule that is aborted on one expression changes nothing. -/
theorem apply_aborted {rule : Rule} {id : ExprId} {context after : Context}
    (done : rule.apply id context = .ok (.error abort, after)) : after = context := by
  unfold Rule.apply at done
  rcases Action.bind_eq_ok_iff.1 (Action.get_bind_eq_ok_iff.1 done) with
    ⟨proposals, middle, _, rest⟩ | ⟨_, stopped, _⟩
  · obtain ⟨⟨added, memo⟩, _, last⟩ := Action.lift_bind_eq_ok_iff.1 rest
    cases last
  · exact (Action.lift_failure_eq_ok_iff.1 stopped).1

/-- **An abort leaves a committed prefix.** A phase that may be cancelled at any point, as every run of
a phase is one, is aborted with the memo that comes from applying completely, one after another, the
tasks of all finished rounds and some first ones of the last round. That memo is valid; the tasks and
no others left marks; all their proposals are inserted, and so are those of earlier marks if they were
before; the trial that was aborted and those behind it left no mark. A rule that is aborted on one
expression changes nothing at all. -/
theorem abort_leaves_prefix :
    (∀ {kind : RuleKind} {root : GroupId} {search final : Search} {outcome : Except Abort Unit},
      phase kind root search = .ok (outcome, final) →
        PossiblePhase kind root search outcome final) ∧
    (∀ {kind : RuleKind} {root : GroupId} {search final : Search} {abort : Abort},
      search.context.memo.Valid → PossiblePhase kind root search (.error abort) final →
        ∃ tasks left, Leaves kind root abort search tasks left final ∧
          search.context.memo.applyAll tasks = .ok final.context.memo ∧
          final.iterations = search.iterations + tasks.length ∧
          final.context.memo.Valid ∧
          (∀ id mark, final.context.memo.isMarked id mark = true ↔
            (id, mark) ∈ tasks.map (fun task => imprint task.1) ∨
              search.context.memo.isMarked id mark = true) ∧
          (∀ task ∈ tasks, ∃ expr, final.context.memo.exprs[task.1.1]? = some expr ∧
            ∀ proposal ∈ task.2, final.context.memo.Resolved expr.group proposal) ∧
          (search.context.memo.Fulfilled search.rules →
            final.context.memo.Fulfilled search.rules) ∧
          ((search.rules.map Rule.mark).Nodup → ∀ trial ∈ left,
            final.context.memo.isMarked trial.1 trial.2.mark = false)) ∧
    ∀ {rule : Rule} {id : ExprId} {abort : Abort} {context after : Context},
      rule.apply id context = .ok (.error abort, after) → after = context := by
  refine ⟨phase_possible, ?_, apply_aborted⟩
  intro kind root search final abort valid ran
  obtain ⟨tasks, left, leaves⟩ := ran.leaves
  have carried := leaves.carriesOut
  exact ⟨tasks, left, leaves, carried.memo_eq, carried.iterations_eq,
    (Memo.applyAll_keeps carried.memo_eq valid).1,
    fun _ _ => Memo.applyAll_isMarked_iff carried.memo_eq,
    fun _ member => Memo.applyAll_resolves valid carried.memo_eq member,
    leaves.fulfilled valid, leaves.unmarked valid⟩

/-- A join of a table with a join of two others. -/
def stackedJoins : List (Operator × List GroupId) :=
  [(.logical (.get ⟨"shop", "orders"⟩ []), []), (.logical (.get ⟨"shop", "items"⟩ []), []),
    (.logical (.get ⟨"shop", "shops"⟩ []), []), (.truth, []),
    (.logical (.join .inner), [0, 1, 3]), (.logical (.join .inner), [4, 2, 3])]

/-- A limit of two levels lets both joins be commuted and stops the round at the reassociation of the
upper one, which has a pattern of three levels. The same rule, applied by itself, changes nothing. -/
theorem abort_leaves_prefix_stackedJoins :
    ∃ (memo : Memo) (final : Search) (tasks : List Task) (left : List Trial),
      Memo.empty.build? stackedJoins = some memo ∧
      phase .exploration 5 (ofMemo memo {} Rule.standard { maxDepth := 2 }) =
        .ok (.error (.depthExceeded 2), final) ∧
      Leaves .exploration 5 (.depthExceeded 2) (ofMemo memo {} Rule.standard { maxDepth := 2 })
        tasks left final ∧
      memo.applyAll tasks = .ok final.context.memo ∧ tasks.length = 3 ∧
      memo.exprs.size = 6 ∧ final.context.memo.exprs.size = 8 ∧ final.context.memo.Valid ∧
      final.context.memo.Fulfilled Rule.standard ∧
      (∀ trial ∈ left, final.context.memo.isMarked trial.1 trial.2.mark = false) ∧
      ∃ after, Rule.joinAssociativity.apply 5 final.context =
        .ok (.error (.depthExceeded 2), after) ∧ after = final.context := by
  have shown : (Memo.empty.build? stackedJoins).bind (fun memo =>
      (phase .exploration 5 (ofMemo memo {} Rule.standard { maxDepth := 2 })).toOption.bind fun ended =>
        (Rule.joinAssociativity.apply 5 ended.2.context).toOption.map fun again =>
          (decide (ended.1 = .error (.depthExceeded 2)), decide (again.1 = .error (.depthExceeded 2)),
            ended.2.iterations, memo.exprs.size, ended.2.context.memo.exprs.size)) =
      some (true, true, 3, 6, 8) := by
    decide +kernel
  obtain ⟨memo, made, shown⟩ := Option.bind_eq_some_iff.1 shown
  obtain ⟨⟨result, final⟩, ran, shown⟩ := Option.bind_eq_some_iff.1 shown
  obtain ⟨⟨outcome, after⟩, again, shown⟩ := Option.map_eq_some_iff.1 shown
  obtain ⟨rfl, rfl, three, six, eight⟩ : result = .error (.depthExceeded 2) ∧
      outcome = .error (.depthExceeded 2) ∧ final.iterations = 3 ∧ memo.exprs.size = 6 ∧
        final.context.memo.exprs.size = 8 := by simpa using shown
  have ran := toOption_eq_some_iff.1 ran
  have again := toOption_eq_some_iff.1 again
  have built := Memo.Built.empty.build? made
  obtain ⟨_, formed⟩ := built.formed
  have distinct : (Rule.standard.map Rule.mark).Nodup := by decide
  obtain ⟨possible, leaves, unchanged⟩ := abort_leaves_prefix
  obtain ⟨tasks, left, leaves, applied, count, valid, _, _, fulfilled, unmarked⟩ :=
    leaves formed.toValid (possible ran)
  refine ⟨memo, final, tasks, left, made, ran, leaves, applied, ?_, six, eight, valid,
    fulfilled fun id mark marked => ?_, unmarked distinct, after, again, unchanged again⟩
  · exact (three.symm.trans (count.trans (Nat.zero_add _))).symm
  · exact absurd ((built.isMarked_eq id mark).symm.trans marked) Bool.false_ne_true

end Search

end Cascades
