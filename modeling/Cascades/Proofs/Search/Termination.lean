/-
**Exploration ends by itself.**

Exploring rules rearrange the memo, so there are only so many expressions that they can add, whatever
the limits are, and every rule is applied to an expression once. So the rounds of an exploration come to
an end after a number of them that depends on the memo at first only. What can stop it is a number of
joined tables that is too great to be counted, and then there is one from the start.

* `Listed`: the trials of a log are of rules and expressions that there are; `Loop.listed`;
* `Loop.count_le`: a loop has no more rounds than trials, and one;
* `Worked.rearranged`, `Loop.rearranged`: rounds rearrange the memo, also where they are aborted;
* `explore_terminates`: exploration ends within bounds from the memo;
* `explore_overflows`: a tower of joins of a relation with itself.
-/

import Cascades.Proofs.Gathering.Bound
import Cascades.Proofs.Search.Budget
import Cascades.Proofs.Search.Safety

namespace Cascades.Search

open Cascades.Action Memo

variable {kind : RuleKind} {root : GroupId} {search next final start : Search} {rules : List Rule}
  {config : Config} {log more : List Trial} {count : Nat} {outcome : Except Abort Unit}
  {forms : Prop} {breadth : GroupId → Breadth} {memo : Memo}

/-! ### Trials of rules and expressions that there are -/

/-- The trials of a log are of some rules, and of expressions of a memo. -/
def Listed (rules : List Rule) (memo : Memo) (log : List Trial) : Prop :=
  ∀ trial ∈ log, trial.2 ∈ rules ∧ trial.1 < memo.exprs.size

theorem Listed.mono {later : Memo} (listed : Listed rules memo log) (grows : memo.Grows later) :
    Listed rules later log := by
  intro trial member
  obtain ⟨rule, below⟩ := listed trial member
  have stored := grows.exprs (Array.getElem?_eq_getElem below)
  exact ⟨rule, lt_of_expr stored⟩

theorem Carried.listed {results : List (Trial × Except Abort (List Proposal))}
    (carried : Carried search results log final) (valid : search.context.memo.Valid)
    (known : ∀ trial ∈ results.map Prod.fst, trial.2 ∈ rules) :
    final.context.memo.Valid ∧ search.context.memo.Grows final.context.memo ∧
      Listed rules final.context.memo log := by
  induction carried with
  | @stop search => exact ⟨valid, .refl _, nofun⟩
  | @go search next final trial proposals added rest log committed _ ih =>
    obtain ⟨between, grows⟩ := committed.keeps valid
    obtain ⟨rule, others⟩ := List.forall_mem_cons.1 known
    obtain ⟨last, further, listed⟩ := ih between others
    obtain ⟨expr, _, stored, _⟩ := committed
    exact ⟨last, grows.trans further, List.forall_mem_cons.2
      ⟨⟨rule, lt_of_expr ((grows.trans further).exprs stored)⟩, listed⟩⟩

/-- A round lists rules of the search and expressions of its memo. -/
theorem Worked.listed (worked : Worked kind root search more final)
    (valid : search.context.memo.Valid) :
    search.context.memo.Grows final.context.memo ∧
      Listed search.rules final.context.memo more := by
  cases worked with
  | nothing same => exact ⟨same.memo ▸ .refl _, nofun⟩
  | trials derives tried proposed carried =>
    obtain ⟨context, same, rfl⟩ := onContext_deriveAll derives
    refine (carried.listed (same.memo ▸ valid) ?_).2.imp_left fun grows => same.memo ▸ grows
    rw [map_fst_results proposed]
    exact fun trial member => (known_of_trials tried trial (List.mem_of_mem_take member)).1

section Tally

variable (distinct : (rules.map Rule.mark).Nodup)
include distinct

/-- A loop goes on listing rules of the search and expressions of its memo. -/
theorem Loop.listed (loop : Loop kind root search count more (.ok (outcome, final)))
    (tally : Tally rules config log search) (listed : Listed rules search.context.memo log) :
    Listed rules final.context.memo (log ++ more) := by
  have onward : ∀ {search final : Search} {log more : List Trial}, Tally rules config log search →
      Listed rules search.context.memo log → Worked kind root search more final →
        Listed rules final.context.memo (log ++ more) := by
    intro search final log more tally listed worked
    obtain ⟨grows, later⟩ := worked.listed tally.valid
    exact List.forall_mem_append.2 ⟨listed.mono grows, tally.rules_eq ▸ later⟩
  generalize ended : (Except.ok (outcome, final) : Except Fault _) = result at loop
  induction loop generalizing log with
  | fault => cases ended
  | abort _ worked =>
    cases ended
    exact onward tally listed worked
  | last _ worked =>
    cases ended
    exact onward tally listed worked
  | again _ worked _ ih =>
    rw [← List.append_assoc]
    exact ih (tally.worked distinct worked) (onward tally listed worked) ended

/-- **A loop has no more rounds than trials, and one**: every round but the last carries one out. -/
theorem Loop.count_le (loop : Loop kind root search count more (.ok (outcome, final)))
    (tally : Tally rules config log search) : count ≤ more.length + 1 := by
  generalize ended : (Except.ok (outcome, final) : Except Fault _) = result at loop
  induction loop generalizing log with
  | fault => cases ended
  | abort => exact Nat.le_add_left _ _
  | last => exact Nat.le_add_left _ _
  | again one worked _ ih =>
    have after := tally.worked distinct worked
    have rest := ih after ended
    obtain ⟨_, _, ⟨same, _⟩ | ⟨_, closer, _⟩⟩ := round_below_limits one (Or.inl rfl)
    · cases same
    have before := tally.length_eq
    have lengths := after.length_eq
    rw [List.length_append] at lengths ⊢
    omega

end Tally

/-- **Every rule is applied to an expression once**, so there are no more trials than pairs of them. -/
theorem Tally.length_le (tally : Tally rules config log search)
    (listed : Listed rules memo log) : log.length ≤ memo.exprs.size * rules.length := by
  have inside : log.map imprint ⊆ (List.range memo.exprs.size) ×ˢ (rules.map Rule.mark) := by
    intro pair member
    obtain ⟨trial, among, rfl⟩ := List.mem_map.1 member
    obtain ⟨rule, below⟩ := listed trial among
    exact List.mem_product.2 ⟨List.mem_range.2 below, List.mem_map_of_mem rule⟩
  have fewer := (List.subperm_of_subset tally.once inside).length_le
  rwa [List.length_map, List.length_product, List.length_range, List.length_map] at fewer

/-! ### What rounds rearrange -/

/-- What is committed in a round goes on from the search that all was derived in. -/
theorem Carried.follows {exact : Prop} {first : Memo}
    {results : List (Trial × Except Abort (List Proposal))}
    (carried : Carried search results log final)
    (formed : start.context.memo.Formed breadth)
    (prepared : ∀ result ∈ results, Prepared exact forms start.context.memo breadth result)
    (follows : Follows exact forms first start breadth search) :
    Follows exact forms first start breadth final := by
  induction carried with
  | stop => exact follows
  | go committed _ ih =>
    obtain ⟨⟨expr, stored, suits⟩, others⟩ := List.forall_mem_cons.1 prepared
    exact ih others ((follows.committed formed stored suits).2 _ _ committed)

section Rearranging

variable (standard : ∀ rule ∈ start.rules, rule ∈ Rule.standard)
  (allowed : kind = .implementation → forms)
  (follows : Follows True forms start.context.memo start breadth search)
include standard allowed follows

/-- **A round rearranges the memo**, whether or not it is aborted. -/
theorem Worked.rearranged (worked : Worked kind root search log final) :
    ∃ later, start.context.memo.Develops breadth final.context.memo later ∧
      Rearranged forms start.context.memo final.context.memo := by
  let anyFault (_ : Fault) : Prop := True
  have countable : Countable True anyFault breadth start.context.memo := absurd trivial
  cases worked with
  | nothing same =>
    obtain ⟨later, develops, tracked⟩ := follows.develops
    exact ⟨later, same.memo ▸ develops, same.memo ▸ (tracked trivial).rearranged⟩
  | @trials derived _ _ _ _ derives tried proposed carried =>
    obtain ⟨later, made, tracked⟩ := (derive_follows countable follows).of_ok rfl derives
    have rule : ∀ rule ∈ start.rules, rule.Sure anyFault :=
      fun rule member => Rule.standard_sure rule (standard rule member)
    have prepared := prepared_ends rule
      (fun _ rule member => Rule.standard_rearranging rule (standard rule member)) allowed made
      (fun known => (tracked known).1) (known_of_trials tried) (derived.config.maxIterations - derived.iterations)
    rw [proposed] at prepared
    have more := carried.follows made.develops.formed prepared
      (.refl made.develops.formed fun known => (tracked known).1)
    obtain ⟨last, develops, tracked⟩ := more.develops
    exact ⟨last, made.develops.trans develops, (tracked trivial).rearranged⟩

/-- **A loop rearranges the memo**, whether or not it is aborted. -/
theorem Loop.rearranged (inside : root < start.context.memo.groups.size)
    (loop : Loop kind root search count log (.ok (outcome, final))) :
    ∃ later, start.context.memo.Develops breadth final.context.memo later ∧
      Rearranged forms start.context.memo final.context.memo := by
  let anyFault (_ : Fault) : Prop := True
  have countable : Countable True anyFault breadth start.context.memo := absurd trivial
  have sure : ∀ rule ∈ start.rules, rule.Sure anyFault :=
    fun rule member => Rule.standard_sure rule (standard rule member)
  generalize ended : (Except.ok (outcome, final) : Except Fault _) = result at loop
  induction loop with
  | fault => cases ended
  | abort _ worked =>
    cases ended
    exact worked.rearranged standard allowed follows
  | last _ worked =>
    cases ended
    exact worked.rearranged standard allowed follows
  | again one _ _ ih =>
    exact ih ((round_follows countable sure
      (fun _ rule member => Rule.standard_rearranging rule (standard rule member)) allowed
      inside).of_ok follows one) ended

end Rearranging

/-! ### Tables that are counted -/

/-- A phase that is not stopped begins with deriving all properties and looking for trials. -/
theorem exists_trials_of_phase (done : phase kind root search = .ok (.ok ⟨⟩, final)) :
    ∃ derived trials, onContext Context.deriveAll search = .ok (.ok ⟨⟩, derived) ∧
      derived.trials kind root = .ok trials := by
  obtain ⟨more, next, one⟩ : ∃ more next, round kind root search = .ok (.ok more, next) := by
    rcases phase_cases done with one | ⟨_, one, _⟩
    · exact ⟨_, _, one⟩
    · exact ⟨_, _, one⟩
  rcases round_cases one with ⟨_, same, _⟩ | ⟨derived, trials, derives, tried, _⟩
  · cases same
  · exact ⟨derived, trials, derives, tried⟩

/-- A phase that finds nothing to try derives all properties only. -/
theorem derives_of_phase (done : phase kind root search = .ok (.ok ⟨⟩, final))
    (nothing : ∀ derived trials, onContext Context.deriveAll search = .ok (.ok ⟨⟩, derived) →
      derived.trials kind root = .ok trials → trials = []) :
    onContext Context.deriveAll search = .ok (.ok ⟨⟩, final) := by
  have ends : ∀ more next, round kind root search = .ok (.ok more, next) →
      more = false ∧ onContext Context.deriveAll search = .ok (.ok ⟨⟩, next) := by
    intro more next one
    rcases round_cases one with ⟨_, same, _⟩ | ⟨derived, trials, derives, tried, ends⟩
    · cases same
    rcases ends with ⟨_, same, rfl⟩ | ⟨_, _, some, _⟩
    · exact ⟨Except.ok.inj same, derives⟩
    · exact absurd (nothing derived trials derives tried) some
  rcases phase_cases done with one | ⟨next, one, _⟩
  · exact (ends _ _ one).2
  · cases (ends _ _ one).1

/-- **Where a phase is not stopped**, the tables in all groups at its start could be counted. -/
theorem tables_le_of_phase {catalog : Catalog} (built : memo.Built)
    (done : phase kind root (ofMemo memo catalog rules config) = .ok (.ok ⟨⟩, final)) :
    ∀ id < memo.groups.size, memo.tables id ≤ greatestCount := by
  obtain ⟨breadth, formed⟩ := built.formed
  let anyFault (_ : Fault) : Prop := True
  have countable : Countable True anyFault breadth memo := absurd trivial
  let start := ofMemo memo catalog rules config
  have fresh : Follows True True start.context.memo start breadth start := .fresh built formed
  obtain ⟨derived, _, derives, _⟩ := exists_trials_of_phase done
  obtain ⟨later, made, tracked⟩ := (derive_follows countable fresh).of_ok rfl derives
  intro id inside
  rw [formed.tables_eq inside, ← made.develops.agrees inside]
  exact (tracked trivial).2 id (Nat.lt_of_lt_of_le inside made.develops.grows.size_groups)

/-! ### Exploration -/

/-- A bound on the applications of exploring rules to a memo. -/
def mostTrials (memo : Memo) : Nat := memo.mostExprs * Rule.standard.length

section Exploration

variable {catalog : Catalog} (built : memo.Built) (distinct : (rules.map Rule.mark).Nodup)
  (standard : ∀ rule ∈ rules, rule ∈ Rule.standard) (inside : root < memo.groups.size)
include built standard inside

/-- An exploration does not go wrong, joined tables that are too many to be counted aside. -/
theorem explore_ends {breadth : GroupId → Breadth} (formed : memo.Formed breadth)
    {faulty : Fault → Prop} (countable : Countable True faulty breadth memo) :
    Ends faulty (explore root (ofMemo memo catalog rules config)) fun _ => True := by
  let start := ofMemo memo catalog rules config
  have fresh : Follows True False start.context.memo start breadth start := .fresh built formed
  have rearranging : True → ∀ rule ∈ start.rules, rule.Rearranging :=
    fun _ rule member => Rule.standard_rearranging rule (standard rule member)
  exact (phase_follows countable (fun rule member => Rule.standard_sure rule (standard rule member))
    rearranging nofun inside start fresh).mono fun _ _ => trivial

/-- An exploration that goes wrong meets more tables than can be counted, already in the memo at
first. -/
theorem tables_of_explore_error {cause : Fault}
    (failed : explore root (ofMemo memo catalog rules config) = .error cause) :
    cause = .sumTooGreat ∧ ∃ id < memo.groups.size, greatestCount < memo.tables id := by
  obtain ⟨breadth, formed⟩ := built.formed
  refine ⟨?_, ?_⟩
  · have overflow : Ends (· = .sumTooGreat) (explore root (ofMemo memo catalog rules config)) _ :=
      explore_ends built standard inside formed (absurd rfl)
    rw [failed] at overflow
    exact overflow
  · by_contra counts
    push Not at counts
    have never : Ends (fun _ => False) (explore root (ofMemo memo catalog rules config)) _ :=
      explore_ends built standard inside formed fun _ => ⟨trivial, formed, fun id inside => by
        rw [← formed.tables_eq inside]
        exact counts id inside⟩
    rw [failed] at never
    exact never

include distinct

/-- **What bounds an exploration**: the memo at first bounds its rounds, the rules that it applies, and
the groups and the expressions of the memo in the end. -/
theorem Loop.bounded {count : Nat} {log : List Trial} {outcome : Except Abort Unit}
    (loop : Loop .exploration root (ofMemo memo catalog rules config) count log (.ok (outcome, final))) :
    count ≤ mostTrials memo + 1 ∧ final.iterations ≤ mostTrials memo ∧
      final.context.memo.groups.size ≤ memo.mostGroups ∧
      final.context.memo.exprs.size ≤ memo.mostExprs ∧ final.config = config := by
  obtain ⟨breadth, formed⟩ := built.formed
  let start := ofMemo memo catalog rules config
  have fresh : Follows True False start.context.memo start breadth start := .fresh built formed
  have tally : Tally rules config [] start := .fresh formed.toValid built.isMarked_eq
  have after := tally.loop distinct loop
  have listed := loop.listed distinct tally nofun
  obtain ⟨later, develops, rearranged⟩ := loop.rearranged standard nofun fresh inside
  have exprs : final.context.memo.exprs.size ≤ memo.mostExprs := rearranged.exprs_le develops.formed
  have fewer : rules.length ≤ Rule.standard.length :=
    (List.subperm_of_subset (.of_map _ distinct) standard).length_le
  have trials : log.length ≤ mostTrials memo :=
    (after.length_le listed).trans (Nat.mul_le_mul exprs fewer)
  refine ⟨(loop.count_le distinct tally).trans (Nat.succ_le_succ trials), ?_,
    rearranged.groups_le develops.formed, exprs, after.config_eq⟩
  rwa [← after.length_eq]

end Exploration

/-- **Exploration ends by itself.** From a memo into which well-formed logical expressions were inserted,
with any of the rules, any settings and any catalog, an exploration below any group ends within bounds
that come from the memo: of its rounds, of applied rules, of groups and of expressions. If it is not
stopped and the limits are above these bounds, nothing is left to try. The only other end is a fault,
and it takes a group in which more tables are joined than can be counted. -/
theorem explore_terminates {catalog : Catalog} (built : memo.Built)
    (distinct : (rules.map Rule.mark).Nodup) (standard : ∀ rule ∈ rules, rule ∈ Rule.standard)
    (inside : root < memo.groups.size) :
    (∃ outcome final count log,
        explore root (ofMemo memo catalog rules config) = .ok (outcome, final) ∧
        Loop .exploration root (ofMemo memo catalog rules config) count log (.ok (outcome, final)) ∧
        count ≤ mostTrials memo + 1 ∧ final.iterations ≤ mostTrials memo ∧
        final.context.memo.groups.size ≤ memo.mostGroups ∧
        final.context.memo.exprs.size ≤ memo.mostExprs ∧
        (outcome = .ok ⟨⟩ → (∀ id < memo.groups.size, memo.tables id ≤ greatestCount) ∧
          (mostTrials memo < config.maxIterations → memo.mostGroups < config.maxGroups →
            final.Exhausted .exploration root))) ∨
      (explore root (ofMemo memo catalog rules config) = .error .sumTooGreat ∧
        ∃ id < memo.groups.size, greatestCount < memo.tables id) := by
  obtain ⟨count, log, _, loop⟩ : ∃ count log, _ ∧
    Loop .exploration root (ofMemo memo catalog rules config) count log _ := phase_loop
  cases done : explore root (ofMemo memo catalog rules config) with
  | error cause =>
    obtain ⟨rfl, tables⟩ := tables_of_explore_error built standard inside done
    exact Or.inr ⟨rfl, tables⟩
  | ok ended =>
    obtain ⟨outcome, final⟩ := ended
    rw [show phase .exploration root _ = .ok (outcome, final) from done] at loop
    obtain ⟨few, iterations, groups, exprs, configured⟩ := loop.bounded built distinct standard inside
    refine Or.inl ⟨outcome, final, count, log, rfl, loop, few, iterations, groups, exprs, ?_⟩
    rintro rfl
    refine ⟨tables_le_of_phase built done, fun enough room =>
      rounds_exhaust (Nat.lt_succ_self _) done ?_ ?_⟩
    · rw [configured]
      omega
    · unfold isFull
      rw [configured, decide_eq_false_iff_not]
      omega

/-- Commuting the join of two tables ends, and leaves nothing to try. -/
theorem explore_terminates_joinOfTables :
    ∃ memo final, Memo.empty.build? joinOfTables = some memo ∧
      explore 3 (ofMemo memo {} [Rule.joinCommutativity]
        { maxIterations := 10 ^ 12, maxGroups := 10 ^ 12 }) = .ok (.ok ⟨⟩, final) ∧
      final.context.memo.exprs.size ≤ memo.mostExprs ∧ final.iterations ≤ mostTrials memo ∧
      final.Exhausted .exploration 3 := by
  have shown : (Memo.empty.build? joinOfTables).map (fun memo =>
      (decide (3 < memo.groups.size), decide (mostTrials memo < 10 ^ 12 ∧ memo.mostGroups < 10 ^ 12),
        (explore 3 (ofMemo memo {} [Rule.joinCommutativity]
          { maxIterations := 10 ^ 12, maxGroups := 10 ^ 12 })).toOption.map (·.1.toOption.isSome))) =
      some (true, true, some true) := by
    decide +kernel
  obtain ⟨memo, made, shown⟩ := Option.map_eq_some_iff.1 shown
  obtain ⟨inside, bounds, runs⟩ : _ ∧ _ ∧ _ := by simpa only [Prod.mk.injEq] using shown
  obtain ⟨few, room⟩ := of_decide_eq_true bounds
  have distinct : ([Rule.joinCommutativity].map Rule.mark).Nodup := by decide
  have standard : ∀ rule ∈ [Rule.joinCommutativity], rule ∈ Rule.standard := by simp [Rule.standard]
  rcases explore_terminates (Built.empty.build? made) distinct standard (of_decide_eq_true inside)
    with ⟨outcome, final, _, _, done, _, _, trials, _, exprs, rest⟩ | ⟨failed, _⟩
  · rw [done] at runs
    cases outcome with
    | error abort => cases runs
    | ok => exact ⟨memo, final, made, done, exprs, trials, (rest rfl).2 few room⟩
  · rw [failed] at runs
    cases runs

/-- Sixteen joins, each of sixteen times the one before, over one table. -/
def tower : List (Operator × List GroupId) :=
  [(.logical (.get ⟨"shop", "orders"⟩ []), []), (.truth, [])] ++
    (List.range 16).map fun level =>
      (.logical .naryJoin, List.replicate 16 (if level = 0 then 0 else level + 1) ++ [1])

/-- **Too many tables to count.** With eighteen groups there is no exploration, not even of the table
at the bottom, since the properties of all groups are derived first. -/
theorem explore_overflows :
    ∃ memo, Memo.empty.build? tower = some memo ∧ memo.groups.size = 18 ∧
      explore 0 (ofMemo memo {} Rule.standard {}) = .error .sumTooGreat := by
  have shown : (Memo.empty.build? tower).map (fun memo => (memo.groups.size,
      match explore 0 (ofMemo memo {} Rule.standard {}) with
      | .error .sumTooGreat => true
      | _ => false)) = some (18, true) := by
    decide +kernel
  obtain ⟨memo, made, shown⟩ := Option.map_eq_some_iff.1 shown
  obtain ⟨size, fails⟩ := Prod.mk.inj shown
  refine ⟨memo, made, size, ?_⟩
  split at fails
  · assumption
  · cases fails

end Cascades.Search
