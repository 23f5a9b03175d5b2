/-
**The limit on rule applications.**

A round lists what is still to be tried, every expression with every rule at most once and only where
the rule left no mark yet. It carries out some first trials of this list, no more than the limit still
allows, each of which leaves its mark. A round that another one may follow carries out at least one
trial and stays below the limit, so a phase ends by itself. None of this needs anything of the rules
but that their marks differ.

* `Loop`: the rounds of a phase, without a bound, and the trials that they carry out;
* `phase_loop`: a phase is such a loop, of no more rounds than the limit leaves applications, and one;
* `nodup_trials`: a round lists no pair of an expression and a mark twice;
* `Tally`: the applications so far are the marks so far, one for each; `Loop.tally` keeps it;
* `callAll_tallied`: so it is after any calls of the two phases on a fresh search.
-/

import Cascades.Proofs.Binding.Completeness
import Cascades.Proofs.Memo.Formed
import Cascades.Proofs.Search.Exhaustion

namespace Cascades.Search

variable {kind : RuleKind} {root : GroupId} {search next final derived : Search}

/-! ### The trials that are carried out -/

/-- The pair of an expression and a mark that a trial leaves behind. -/
def imprint (trial : Trial) : ExprId × Mark := (trial.1, trial.2.mark)

/-- Some first trials of a round were carried out one after another, each with its proposals. -/
inductive Carried : Search → List (Trial × Except Abort (List Proposal)) → List Trial → Search → Prop
  | stop {search : Search} {results : List (Trial × Except Abort (List Proposal))} :
      Carried search results [] search
  | go {search next final : Search} {trial : Trial} {proposals : List Proposal} {added : Nat}
      {rest : List (Trial × Except Abort (List Proposal))} {log : List Trial} :
      search.Committed trial proposals added next → Carried next rest log final →
        Carried search ((trial, .ok proposals) :: rest) (trial :: log) final

theorem commitAll_carried {results : List (Trial × Except Abort (List Proposal))} {added : Nat}
    {outcome : Except Abort Nat} (done : commitAll added results search = .ok (outcome, final)) :
    ∃ log, Carried search results log final := by
  induction results generalizing added search with
  | nil =>
    cases done
    exact ⟨[], .stop⟩
  | cons head rest ih =>
    obtain ⟨trial, result⟩ := head
    rcases commitAll_cons done with ⟨_, _, _, rfl⟩ | ⟨_, _, next, rfl, committed, ends⟩
    · exact ⟨[], .stop⟩
    · rcases ends with ⟨_, _, rfl⟩ | ⟨_, done⟩
      · exact ⟨[trial], .go committed .stop⟩
      · obtain ⟨log, carried⟩ := ih done
        exact ⟨trial :: log, .go committed carried⟩

/-- The trials that a round carries out: none, where it ends before, or some first of those that it
lists, as far as the limit on applications allows. -/
inductive Worked (kind : RuleKind) (root : GroupId) : Search → List Trial → Search → Prop
  | nothing {search : Search} {context : Context} :
      search.context.SameMemo context → Worked kind root search [] { search with context }
  | trials {search derived final : Search} {listed log : List Trial}
      {results : List (Trial × Except Abort (List Proposal))} :
      onContext Context.deriveAll search = .ok (.ok ⟨⟩, derived) →
        derived.trials kind root = .ok listed →
        (listed.take (derived.config.maxIterations - derived.iterations)).mapM
          (proposalsOf derived.context) = .ok results →
        Carried derived results log final → Worked kind root search log final

theorem round_worked {outcome : Except Abort Bool}
    (done : round kind root search = .ok (outcome, final)) :
    ∃ log, Worked kind root search log final := by
  rcases round_cases done with ⟨_, _, rfl | derives⟩ | ⟨derived, listed, derives, tried, ends⟩
  · exact ⟨[], .nothing (.refl _)⟩
  · obtain ⟨context, same, rfl⟩ := onContext_deriveAll derives
    exact ⟨[], .nothing same⟩
  · rcases ends with ⟨_, _, rfl⟩ | ⟨results, count, _, proposed, commits, _⟩
    · obtain ⟨context, same, rfl⟩ := onContext_deriveAll derives
      exact ⟨[], .nothing same⟩
    · obtain ⟨log, carried⟩ := commitAll_carried commits
      exact ⟨log, .trials derives tried proposed carried⟩

/-! ### The loop of a phase -/

/-- The rounds of a phase, one after another as long as each lets another one follow: how many there
are, the trials that they carried out, and how the last one ended. -/
inductive Loop (kind : RuleKind) (root : GroupId) :
    Search → (rounds : Nat) → List Trial → Except Fault (Except Abort Unit × Search) → Prop
  | fault {search : Search} {cause : Fault} :
      round kind root search = .error cause → Loop kind root search 1 [] (.error cause)
  | abort {search next : Search} {abort : Abort} {log : List Trial} :
      round kind root search = .ok (.error abort, next) → Worked kind root search log next →
        Loop kind root search 1 log (.ok (.error abort, next))
  | last {search next : Search} {log : List Trial} :
      round kind root search = .ok (.ok false, next) → Worked kind root search log next →
        Loop kind root search 1 log (.ok (.ok ⟨⟩, next))
  | again {search next : Search} {count : Nat} {log rest : List Trial}
      {result : Except Fault (Except Abort Unit × Search)} :
      round kind root search = .ok (.ok true, next) → Worked kind root search log next →
        Loop kind root next count rest result →
        Loop kind root search (count + 1) (log ++ rest) result

theorem rounds_succ {fuel : Nat} :
    rounds kind root (fuel + 1) search = match round kind root search with
      | .error cause => .error cause
      | .ok (.error abort, next) => .ok (.error abort, next)
      | .ok (.ok false, next) => .ok (.ok ⟨⟩, next)
      | .ok (.ok true, next) => rounds kind root fuel next := by
  change ((round kind root search) >>= _ : Except Fault _) = _
  rcases round kind root search with _ | ⟨_ | (_ | _), _⟩ <;> rfl

/-- As many rounds as there are applications left, and one, are all that the loop makes. -/
theorem rounds_loop {fuel : Nat}
    (enough : search.config.maxIterations - search.iterations < fuel) :
    ∃ count log, count ≤ search.config.maxIterations - search.iterations + 1 ∧
      Loop kind root search count log (rounds kind root fuel search) := by
  induction fuel generalizing search with
  | zero => exact absurd enough (Nat.not_lt_zero _)
  | succ fuel ih =>
    rw [rounds_succ]
    cases ran : round kind root search with
    | error cause => exact ⟨1, [], Nat.le_add_left 1 _, .fault ran⟩
    | ok ended =>
      obtain ⟨outcome, next⟩ := ended
      obtain ⟨log, worked⟩ := round_worked ran
      rcases outcome with cause | _ | _
      · exact ⟨1, log, Nat.le_add_left 1 _, .abort ran worked⟩
      · exact ⟨1, log, Nat.le_add_left 1 _, .last ran worked⟩
      · obtain ⟨_, config, ⟨same, _⟩ | ⟨_, closer, below⟩⟩ := round_below_limits ran (Or.inl rfl)
        · cases same
        have fewer : next.config.maxIterations - next.iterations <
            search.config.maxIterations - search.iterations := by
          rw [config]
          omega
        have left : next.config.maxIterations - next.iterations < fuel := by omega
        obtain ⟨count, rest, few, loop⟩ := ih left
        exact ⟨count + 1, log ++ rest, by omega, .again ran worked loop⟩

/-- **A phase is a loop that ends by itself**, after at most one round more than there are
applications left. -/
theorem phase_loop :
    ∃ count log, count ≤ search.config.maxIterations - search.iterations + 1 ∧
      Loop kind root search count log (phase kind root search) :=
  rounds_loop (Nat.lt_succ_self _)

/-! ### What a round lists -/

theorem exists_of_forall₂ {α β : Type} {gives : α → β → Prop} {values : List α} {parts : List β}
    (each : List.Forall₂ gives values parts) {part : β} (member : part ∈ parts) :
    ∃ value ∈ values, gives value part := by
  induction each with
  | nil => cases member
  | @cons value first values parts given _ ih =>
    rcases List.mem_cons.1 member with rfl | member
    · exact ⟨value, List.mem_cons_self, given⟩
    · obtain ⟨origin, known, origins⟩ := ih member
      exact ⟨origin, List.mem_cons_of_mem _ known, origins⟩

/-- Lists that different values give, one behind another, have no two entries of one key if none of
them has and entries of one key come from one value. -/
theorem nodup_flatten_of_forall₂ {α β γ : Type} {gives : α → List β → Prop} {key : β → γ}
    {values : List α} {parts : List (List β)} (each : List.Forall₂ gives values parts)
    (distinct : values.Nodup) (once : ∀ value part, gives value part → (part.map key).Nodup)
    (apart : ∀ first second one two, gives first one → gives second two → ∀ entry ∈ one,
      ∀ other ∈ two, key entry = key other → first = second) :
    (parts.flatten.map key).Nodup := by
  induction each with
  | nil => exact List.nodup_nil
  | @cons value part values parts given rest ih =>
    obtain ⟨absent, distinct⟩ := List.nodup_cons.1 distinct
    rw [List.flatten_cons, List.map_append]
    refine (once value part given).append (ih distinct) fun name first second => ?_
    obtain ⟨entry, inside, rfl⟩ := List.mem_map.1 first
    obtain ⟨other, there, same⟩ := List.mem_map.1 second
    obtain ⟨two, member, there⟩ := List.mem_flatten.1 there
    obtain ⟨origin, known, origins⟩ := exists_of_forall₂ rest member
    exact absent
      (apart value origin part two given origins entry inside other there same.symm ▸ known)

/-- The logical expressions below a root are different. -/
theorem nodup_below {memo : Memo} (valid : memo.Valid) {ids : List GroupId}
    (reached : memo.reachable root = .ok ids) {groups : List Group}
    (found : ids.mapM memo.group = .ok groups) : (groups.flatMap memo.logicalMembers).Nodup := by
  have different : ids.Nodup := by
    unfold Memo.reachable at reached
    obtain ⟨group, _, reached⟩ := bind_eq_ok_iff.1 reached
    split at reached
    · cases reached
      exact List.nodup_nil
    · cases reached
      exact List.nodup_range.filter _
  have each : List.Forall₂ (fun id members => ∃ group, memo.groups[id]? = some group ∧
      members = memo.logicalMembers group) ids (groups.map memo.logicalMembers) :=
    List.forall₂_map_right_iff.2 ((mapM_eq_ok_iff.1 found).imp fun id group given =>
      ⟨group, Memo.group_ok_iff.1 given, rfl⟩)
  have listed : ∀ {id : GroupId} {group : Group} {member : ExprId},
      memo.groups[id]? = some group → member ∈ memo.logicalMembers group →
        ∃ expr, memo.exprs[member]? = some expr ∧ expr.group = id := by
    intro id group member there inside
    obtain ⟨place, small, rfl⟩ := List.getElem_of_mem (List.mem_filter.1 inside).1
    obtain ⟨expr, stored, same, _⟩ := valid.listed there (Array.getElem?_eq_getElem small)
    exact ⟨expr, stored, same⟩
  rw [List.flatMap_def, ← List.map_id (List.flatten _)]
  refine nodup_flatten_of_forall₂ each different ?_ ?_
  · rintro id _ ⟨group, there, rfl⟩
    rw [List.map_id]
    exact (Listing.nodup_members valid there).filter _
  · rintro first second _ _ ⟨one, there, rfl⟩ ⟨two, found, rfl⟩ member inside other also same
    obtain ⟨expr, stored, here⟩ := listed there inside
    obtain ⟨_, again, too⟩ := listed found also
    rw [← show member = other from same, stored] at again
    cases again
    exact here.symm.trans too

theorem perm_insertByPromise {first : Rule × Promise} {sorted : List (Rule × Promise)} :
    (Rule.insertByPromise first sorted).Perm (first :: sorted) := by
  induction sorted with
  | nil => exact .refl _
  | cons head tail ih =>
    unfold Rule.insertByPromise
    split
    · exact .refl _
    · exact (ih.cons head).trans (.swap first head tail)

theorem perm_foldl_insertByPromise {wanted sorted : List (Rule × Promise)} :
    (wanted.foldl (fun sorted candidate => Rule.insertByPromise candidate sorted) sorted).Perm
      (wanted ++ sorted) := by
  induction wanted generalizing sorted with
  | nil => exact .refl _
  | cons head tail ih =>
    rw [List.foldl_cons]
    exact ih.trans ((perm_insertByPromise.append_left tail).trans List.perm_middle)

/-- The candidates are some of the rules, in another order. -/
theorem candidates_subperm {context : Context} {config : Config} {rules : List Rule} {id : ExprId}
    {found : List (Rule × Promise)}
    (done : Rule.candidates rules context config kind id = .ok found) :
    (found.map Prod.fst).Subperm rules := by
  obtain ⟨expr, stored⟩ : ∃ expr, context.memo.exprs[id]? = some expr := by
    unfold Rule.candidates at done
    obtain ⟨expr, stored, _⟩ := bind_eq_ok_iff.1 done
    exact ⟨expr, Memo.expr_ok_iff.1 stored⟩
  rw [Rule.candidates_eq stored] at done
  obtain ⟨judged, promises, done⟩ := bind_eq_ok_iff.1 done
  cases pure_eq_ok_iff.1 done
  have entries := (mapM_eq_ok_iff.1 promises).imp (S := fun rule entry => rule = entry.1)
    fun rule entry given => by
      obtain ⟨promise, _, given⟩ := bind_eq_ok_iff.1 given
      rw [← pure_eq_ok_iff.1 given]
  have eligible := List.forall₂_eq_eq_eq ▸ List.forall₂_map_right_iff.2 entries
  refine ⟨(judged.filter fun candidate => candidate.2 != .skip).map Prod.fst, ?_, ?_⟩
  · exact (perm_foldl_insertByPromise.trans (.of_eq (List.append_nil _))).symm.map Prod.fst
  refine (List.filter_sublist.map Prod.fst).trans ?_
  rw [← eligible]
  exact List.filter_sublist

/-- No rule is tried twice on an expression. -/
theorem nodup_tries (distinct : (search.rules.map Rule.mark).Nodup) {id : ExprId}
    {part : List Trial} (done : search.tries kind id = .ok part) : (part.map imprint).Nodup := by
  unfold tries at done
  obtain ⟨candidates, judged, done⟩ := bind_eq_ok_iff.1 done
  cases pure_eq_ok_iff.1 done
  obtain ⟨some, perm, fewer⟩ := candidates_subperm judged
  have marks : ((candidates.map Prod.fst).map Rule.mark).Nodup :=
    (perm.map Rule.mark).nodup_iff.1 (distinct.sublist (fewer.map Rule.mark))
  have pairs := marks.map (f := fun mark => (id, mark)) fun _ _ same => (Prod.mk.inj same).2
  simp only [List.map_map] at pairs ⊢
  exact pairs

/-- **A round lists no pair of an expression and a mark twice.** -/
theorem nodup_trials (valid : search.context.memo.Valid)
    (distinct : (search.rules.map Rule.mark).Nodup) {listed : List Trial}
    (done : search.trials kind root = .ok listed) : (listed.map imprint).Nodup := by
  rw [trials_eq] at done
  obtain ⟨ids, reached, done⟩ := bind_eq_ok_iff.1 done
  obtain ⟨groups, found, done⟩ := bind_eq_ok_iff.1 done
  obtain ⟨tried, each, done⟩ := bind_eq_ok_iff.1 done
  cases pure_eq_ok_iff.1 done
  have own : ∀ {id : ExprId} {part : List Trial}, search.tries kind id = .ok part →
      ∀ trial ∈ part, trial.1 = id := by
    intro id part given trial member
    obtain ⟨candidates, _, given⟩ := bind_eq_ok_iff.1 given
    cases pure_eq_ok_iff.1 given
    obtain ⟨_, _, rfl⟩ := List.mem_map.1 member
    rfl
  refine nodup_flatten_of_forall₂ (mapM_eq_ok_iff.1 each) (nodup_below valid reached found)
    (fun id part given => nodup_tries distinct given) ?_
  intro first second one two given other trial member rival there same
  exact (own given trial member).symm.trans ((Prod.mk.inj same).1.trans (own other rival there))

/-! ### The applications so far -/

/-- A search that has carried out some trials: no expression with a rule of one mark twice, no more
than its limit allows, and each of them left its mark. -/
structure Tally (rules : List Rule) (config : Config) (log : List Trial) (search : Search) :
    Prop where
  valid : search.context.memo.Valid
  rules_eq : search.rules = rules
  config_eq : search.config = config
  within : search.iterations ≤ config.maxIterations
  length_eq : log.length = search.iterations
  once : (log.map imprint).Nodup
  isMarked_iff : ∀ pair : ExprId × Mark,
    search.context.memo.isMarked pair.1 pair.2 = true ↔ pair ∈ log.map imprint

variable {rules : List Rule} {config : Config} {log : List Trial}

/-- A search on which nothing was applied. -/
theorem Tally.fresh {memo : Memo} {catalog : Catalog} (valid : memo.Valid)
    (unmarked : ∀ id mark, memo.isMarked id mark = false) :
    Tally rules config [] (ofMemo memo catalog rules config) where
  valid
  rules_eq := rfl
  config_eq := rfl
  within := Nat.zero_le _
  length_eq := rfl
  once := List.nodup_nil
  isMarked_iff pair := by
    show memo.isMarked pair.1 pair.2 = true ↔ _
    rw [unmarked]
    exact iff_of_false Bool.false_ne_true List.not_mem_nil

/-- Deriving properties applies nothing. -/
theorem Tally.sameMemo (tally : Tally rules config log search) {context : Context}
    (same : search.context.SameMemo context) :
    Tally rules config log { search with context } where
  valid := same.memo ▸ tally.valid
  rules_eq := tally.rules_eq
  config_eq := tally.config_eq
  within := tally.within
  length_eq := tally.length_eq
  once := tally.once
  isMarked_iff pair := by
    rw [← tally.isMarked_iff pair]
    show context.memo.isMarked pair.1 pair.2 = true ↔ _
    rw [same.memo]

/-- **One trial more**, of a rule that left no mark on the expression yet. -/
theorem Tally.committed (tally : Tally rules config log search)
    (below : search.iterations < config.maxIterations) {trial : Trial}
    (absent : imprint trial ∉ log.map imprint) {proposals : List Proposal} {added : Nat}
    (committed : search.Committed trial proposals added next) :
    Tally rules config (log ++ [trial]) next where
  valid := (committed.keeps tally.valid).1
  rules_eq := committed.rules_eq.trans tally.rules_eq
  config_eq := committed.config_eq.trans tally.config_eq
  within := by
    rw [committed.iterations_eq]
    exact below
  length_eq := by
    rw [List.length_append, tally.length_eq, committed.iterations_eq]
    rfl
  once := by
    rw [List.map_append]
    refine tally.once.append (List.nodup_singleton _) ?_
    exact List.disjoint_singleton.2 absent
  isMarked_iff pair := by
    rw [committed.isMarked_iff, tally.isMarked_iff, List.map_append, List.mem_append, or_comm]
    refine or_congr_right ?_
    rw [List.map_singleton, List.mem_singleton]
    exact (Prod.ext_iff (x := pair) (y := imprint trial)).symm

/-- Trials of different pairs that left no mark yet, as many as the limit still allows. -/
theorem Tally.carried (tally : Tally rules config log search)
    {results : List (Trial × Except Abort (List Proposal))} {more : List Trial}
    (carried : Carried search results more final)
    (few : search.iterations + results.length ≤ config.maxIterations)
    (once : ((results.map Prod.fst).map imprint).Nodup)
    (absent : ∀ trial ∈ results.map Prod.fst, imprint trial ∉ log.map imprint) :
    Tally rules config (log ++ more) final := by
  induction carried generalizing log with
  | stop =>
    rw [List.append_nil]
    exact tally
  | @go search next final trial proposals added rest more committed _ ih =>
    simp only [List.map_cons, List.nodup_cons, List.length_cons, List.forall_mem_cons] at few once absent
    have one := tally.committed (by omega) absent.1 committed
    rw [List.append_cons]
    refine ih one ?_ once.2 fun other member known => ?_
    · rw [committed.iterations_eq]
      omega
    · rw [List.map_append, List.mem_append] at known
      rcases known with known | same
      · exact absent.2 other member known
      · rw [List.map_singleton, List.mem_singleton] at same
        exact once.1 (same ▸ List.mem_map_of_mem member)

/-- **A round** goes on counting. -/
theorem Tally.worked (distinct : (rules.map Rule.mark).Nodup)
    (tally : Tally rules config log search) {more : List Trial}
    (worked : Worked kind root search more final) : Tally rules config (log ++ more) final := by
  cases worked with
  | nothing same =>
    rw [List.append_nil]
    exact tally.sameMemo same
  | trials derives tried proposed carried =>
    obtain ⟨context, same, rfl⟩ := onContext_deriveAll derives
    have started := tally.sameMemo same
    have results_eq := map_fst_results proposed
    have once := nodup_trials started.valid (started.rules_eq.symm ▸ distinct) tried
    refine started.carried carried ?_ ?_ ?_
    · have length := congrArg List.length results_eq
      have within := started.within
      have limit := congrArg Config.maxIterations started.config_eq
      rw [List.length_map, List.length_take] at length
      omega
    · rw [results_eq]
      exact once.sublist ((List.take_sublist _ _).map _)
    · rw [results_eq]
      intro trial member known
      obtain ⟨_, _, eligible, _⟩ := (mem_trials_iff tried).1 (List.mem_of_mem_take member)
      exact Bool.false_ne_true (eligible.fresh.symm.trans ((started.isMarked_iff _).2 known))

/-- **A phase** goes on counting, whether or not it is aborted. -/
theorem Tally.loop (distinct : (rules.map Rule.mark).Nodup)
    (tally : Tally rules config log search) {count : Nat} {more : List Trial}
    {outcome : Except Abort Unit}
    (loop : Loop kind root search count more (.ok (outcome, final))) :
    Tally rules config (log ++ more) final := by
  generalize ended : (Except.ok (outcome, final) : Except Fault _) = result at loop
  induction loop generalizing log with
  | fault => cases ended
  | abort _ worked =>
    cases ended
    exact tally.worked distinct worked
  | last _ worked =>
    cases ended
    exact tally.worked distinct worked
  | again _ worked _ ih =>
    rw [← List.append_assoc]
    exact ih (tally.worked distinct worked) ended

/-! ### Calls of the phases -/

/-- A call of a phase: its kind and its root. -/
abbrev Call := RuleKind × GroupId

/-- Calls the phases one after another, also after one that was aborted. -/
def callAll (search : Search) : List Call → Except Fault Search
  | [] => return search
  | (kind, root) :: calls => do
    let (_, next) ← phase kind root search
    callAll next calls

/-- The trials that the rounds of some calls carried out. -/
inductive Logged : Search → List Call → List Trial → Search → Prop
  | nil {search : Search} : Logged search [] [] search
  | cons {search next final : Search} {kind : RuleKind} {root : GroupId} {count : Nat}
      {log rest : List Trial} {outcome : Except Abort Unit} {calls : List Call} :
      phase kind root search = .ok (outcome, next) →
        Loop kind root search count log (.ok (outcome, next)) → Logged next calls rest final →
        Logged search ((kind, root) :: calls) (log ++ rest) final

theorem callAll_logged {calls : List Call} (done : search.callAll calls = .ok final) :
    ∃ log, Logged search calls log final := by
  induction calls generalizing search with
  | nil =>
    cases done
    exact ⟨[], .nil⟩
  | cons call calls ih =>
    obtain ⟨kind, root⟩ := call
    obtain ⟨⟨outcome, next⟩, ran, done⟩ := bind_eq_ok_iff.1 done
    obtain ⟨count, log, _, loop⟩ : ∃ count log, _ ∧ Loop kind root search count log _ := phase_loop
    rw [ran] at loop
    obtain ⟨rest, logged⟩ := ih done
    exact ⟨log ++ rest, .cons ran loop logged⟩

theorem Tally.logged (distinct : (rules.map Rule.mark).Nodup)
    (tally : Tally rules config log search) {calls : List Call} {more : List Trial}
    (logged : Logged search calls more final) : Tally rules config (log ++ more) final := by
  induction logged generalizing log with
  | nil =>
    rw [List.append_nil]
    exact tally
  | cons _ loop _ ih =>
    rw [← List.append_assoc]
    exact ih (tally.loop distinct loop)

/-- **Applications are counted once and stay within their limit.** Whatever rules of different marks
are given, and whatever phases are called on a search that starts without marks: the number of
applications does not exceed the limit; it is the length of the log of all trials that were carried
out, in which no expression comes with one mark twice and which holds the marked pairs and no others;
and a further call, however it ends, takes at most one round more than there are applications left. -/
theorem callAll_tallied {memo : Memo} {catalog : Catalog} (valid : memo.Valid)
    (unmarked : ∀ id mark, memo.isMarked id mark = false) (distinct : (rules.map Rule.mark).Nodup)
    {calls : List Call} (done : (ofMemo memo catalog rules config).callAll calls = .ok search) :
    search.iterations ≤ config.maxIterations ∧
      (∃ log, Logged (ofMemo memo catalog rules config) calls log search ∧
        (log.map imprint).Nodup ∧ log.length = search.iterations ∧
        ∀ pair : ExprId × Mark,
          search.context.memo.isMarked pair.1 pair.2 = true ↔ pair ∈ log.map imprint) ∧
      ∀ kind root, ∃ count log, count ≤ config.maxIterations - search.iterations + 1 ∧
        Loop kind root search count log (phase kind root search) := by
  obtain ⟨log, logged⟩ := callAll_logged done
  have tally := (Tally.fresh valid unmarked).logged distinct logged
  refine ⟨tally.within, ⟨log, logged, tally.once, tally.length_eq, tally.isMarked_iff⟩, ?_⟩
  intro kind root
  rw [← tally.config_eq]
  exact phase_loop

/-- A rule without end: for every limit it proposes one that lets a further row pass. -/
def widenLimit : Rule where
  name := "WidenLimit"
  kind := .exploration
  pattern := .overLeaves .limit 1
  transform _ binding := do
    match binding.operator with
    | .logical (.limit offset count) =>
      return [.overGroups (.logical (.limit offset (count + 1))) binding.childGroups]
    | _ => return []

/-- A limit on a table. -/
def firstOrders : List (Operator × List GroupId) :=
  [(.logical (.get ⟨"shop", "orders"⟩ []), []), (.logical (.limit 0 1), [0])]

/-- The rule without end is applied as often as a limit of three allows, over two explorations and an
implementation in between: to the limit that was there and to the two that it proposed first. -/
theorem callAll_tallied_firstOrders :
    ∃ (memo : Memo) (search : Search) (log : List Trial),
      Memo.empty.build? firstOrders = some memo ∧
      (ofMemo memo {} [widenLimit] { maxIterations := 3 }).callAll
        [(.exploration, 1), (.implementation, 1), (.exploration, 1)] = .ok search ∧
      search.iterations = 3 ∧ log.length = 3 ∧ (log.map imprint).Nodup ∧
      (∀ pair ∈ log.map imprint,
        search.context.memo.isMarked pair.1 pair.2 = true) ∧
      (3, widenLimit.mark) ∈ log.map imprint ∧ (4, widenLimit.mark) ∉ log.map imprint := by
  have shown : (Memo.empty.build? firstOrders).bind (fun memo =>
      ((ofMemo memo {} [widenLimit] { maxIterations := 3 }).callAll
        [(.exploration, 1), (.implementation, 1), (.exploration, 1)]).toOption.map fun search =>
          (search.iterations, [3, 4].map fun id =>
            search.context.memo.isMarked id widenLimit.mark)) = some (3, [true, false]) := by
    decide +kernel
  obtain ⟨memo, made, shown⟩ := Option.bind_eq_some_iff.1 shown
  obtain ⟨search, ran, shown⟩ := Option.map_eq_some_iff.1 shown
  obtain ⟨three, marked⟩ := Prod.mk.inj shown
  obtain ⟨third, unmarked⟩ := List.cons.inj marked
  have built := Memo.Built.empty.build? made
  obtain ⟨_, formed⟩ := built.formed
  have done := toOption_eq_some_iff.1 ran
  obtain ⟨_, ⟨log, _, once, length, iff⟩, _⟩ :=
    callAll_tallied formed.toValid built.isMarked_eq (by decide) done
  refine ⟨memo, search, log, made, done, three, length.trans three, once, ?_, ?_, ?_⟩
  · exact fun pair member => (iff pair).2 member
  · exact (iff (3, widenLimit.mark)).1 third
  · exact fun member => Bool.false_ne_true ((List.cons.inj unmarked).1.symm.trans ((iff _).2 member))

end Cascades.Search
