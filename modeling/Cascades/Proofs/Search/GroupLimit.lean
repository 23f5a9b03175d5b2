/-
**The limit on groups.**

A memo that is full stops every phase at its first trial, also the one of implementation, which adds no
groups. So a search whose exploration fills the memo, or that starts on a full one, implements a single
expression. That is a plan only where the root is a table. Below the limit, implementing goes through,
and where there are no joins of many inputs it finds a plan.

* `round_full`: a round on a full memo carries out one trial at most, and is the last one;
* `implemented_forms`: both phases together apply no more rules than a bound from the memo at first;
* `AddsForms.exists_get`, `planned_of_table`: forms in one group make a plan of a table, and of nothing
  else;
* `planned_iff_room`: when the root has a tree in the end;
* `optimize_under_limit`: when a plan is found under a limit on groups;
* `optimize_loses_plan`: a selection that has no plan under a limit that it does not exceed.
-/

import Cascades.Proofs.Search.Evidence
import Cascades.Proofs.Search.Forms

namespace Cascades

open Memo

namespace Search

variable {kind : RuleKind} {root : GroupId} {search final explored implemented : Search}
  {memo first : Memo} {catalog : Catalog} {config other : Config} {model : CostModel}
  {breadth : GroupId → Breadth}

/-! ### Rounds on a full memo -/

/-- A full memo stays full. -/
theorem Committed.isFull {trial : Trial} {proposals : List Proposal} {added : Nat}
    (committed : search.Committed trial proposals added final) (valid : search.context.memo.Valid)
    (full : search.isFull = true) : final.isFull = true := by
  have grows := (committed.keeps valid).2
  unfold Search.isFull at full ⊢
  rw [committed.config_eq]
  exact decide_eq_true (Nat.le_trans (of_decide_eq_true full) grows.size_groups)

/-- What is left of a phase on a full memo: properties are derived, and one trial is carried out, if
there is one. -/
def Single (kind : RuleKind) (root : GroupId) (search final : Search) : Prop :=
  ∃ derived trials, onContext Context.deriveAll search = .ok (.ok ⟨⟩, derived) ∧
    derived.trials kind root = .ok trials ∧
    ((trials.take (search.config.maxIterations - search.iterations) = [] ∧ final = derived) ∨
      ∃ trial ∈ trials.take (search.config.maxIterations - search.iterations), ∃ proposals added,
        trial.2.proposals derived.context trial.1 = .ok proposals ∧
        derived.Committed trial proposals added final)

/-- **A round on a full memo** carries out one trial at most, and is the last one. -/
theorem round_full (full : search.isFull = true) (valid : search.context.memo.Valid) {more : Bool}
    (done : round kind root search = .ok (.ok more, final)) :
    more = false ∧ Single kind root search final := by
  rcases round_cases done with ⟨_, same, _⟩ | ⟨derived, trials, derives, tried, ends⟩
  · cases same
  obtain ⟨context, same, rfl⟩ := onContext_deriveAll derives
  rcases ends with ⟨rfl, same, rfl⟩ | ⟨results, count, _, proposed, commits, outcome⟩
  · cases same
    exact ⟨rfl, _, [], derives, tried, Or.inl ⟨List.take_nil, rfl⟩⟩
  cases count with
  | error abort => cases outcome
  | ok total =>
  have outcome := Except.ok.inj outcome
  have names : results.map Prod.fst =
      trials.take (search.config.maxIterations - search.iterations) := map_fst_results proposed
  cases results with
  | nil =>
    cases commits
    refine ⟨?_, _, trials, derives, tried, Or.inl ⟨names.symm, rfl⟩⟩
    rw [outcome]
    exact Bool.and_false _
  | cons head rest =>
    obtain ⟨trial, result⟩ := head
    rcases commitAll_cons commits with ⟨_, _, same, _⟩ | ⟨proposals, added, next, rfl, committed, ends⟩
    · cases same
    let derived : Search := { search with context }
    have fullHere : derived.isFull = true := by
      unfold Search.isFull at full ⊢
      rwa [same.memo]
    have fullToo : next.isFull = true := committed.isFull (same.memo ▸ valid) fullHere
    rcases ends with ⟨_, _, rfl⟩ | ⟨room, _⟩
    swap
    · rw [fullToo] at room
      cases room
    refine ⟨?_, _, trials, derives, tried, Or.inr ⟨trial, ?_, proposals, added, ?_, committed⟩⟩
    · rw [outcome, fullToo]
      rfl
    · rw [← names]
      exact List.mem_cons_self
    · exact (mem_results proposed List.mem_cons_self).2

/-- A phase on a full memo is one round. -/
theorem phase_full (full : search.isFull = true) (valid : search.context.memo.Valid)
    (done : phase kind root search = .ok (.ok ⟨⟩, final)) : Single kind root search final := by
  rcases phase_cases done with one | ⟨next, one, _⟩
  · exact (round_full full valid one).2
  · cases (round_full full valid one).1

/-! ### Both phases -/

section Phases

/-- Exploring rearranges the memo and adds no physical forms. -/
theorem explored_rearranged (built : memo.Built) (formed : memo.Formed breadth)
    (explores : explore root (ofMemo memo catalog Rule.standard config) = .ok (.ok ⟨⟩, explored)) :
    ∃ later, memo.Develops breadth explored.context.memo later ∧
      Rearranged False memo explored.context.memo := by
  let start := ofMemo memo catalog Rule.standard config
  have fresh : Follows True False start.context.memo start breadth start := .fresh built formed
  obtain ⟨count, log, _, loop⟩ : ∃ count log, _ ∧ Loop .exploration root start count log _ := phase_loop
  rw [show phase .exploration root start = .ok (.ok ⟨⟩, explored) from explores] at loop
  exact loop.rearranged (fun _ member => member) nofun fresh (inside_of_phase explores)

variable (built : memo.Built)
  (through : GoesThrough root breadth (ofMemo memo catalog Rule.standard config) explored implemented)
include built through

/-- **Implementing adds forms only**, and both phases together apply no more rules than a bound that
comes from the memo at first. -/
theorem implemented_forms : AddsForms (fun _ => True) explored.context.memo implemented.context.memo ∧
    explored.iterations ≤ implemented.iterations ∧ implemented.iterations ≤ mostTrials memo := by
  obtain ⟨later, develops, rearranged⟩ :=
    explored_rearranged built through.formed through.explores
  let start := ofMemo memo catalog Rule.standard config
  have distinct : (Rule.standard.map Rule.mark).Nodup := by decide
  have tally : Tally Rule.standard config [] start :=
    .fresh through.formed.toValid built.isMarked_eq
  obtain ⟨_, log, _, loop⟩ : ∃ count log, _ ∧ Loop .exploration root start count log _ := phase_loop
  rw [show phase .exploration root start = .ok (.ok ⟨⟩, explored) from through.explores] at loop
  have first : Tally Rule.standard config log explored := tally.loop distinct loop
  have listed := loop.listed distinct tally nofun
  obtain ⟨_, more, _, onward⟩ :
    ∃ count log, _ ∧ Loop .implementation root explored count log _ := phase_loop
  rw [show phase .implementation root explored = .ok (.ok ⟨⟩, implemented) from through.implements]
    at onward
  have second := first.loop distinct onward
  have standard : ∀ rule ∈ explored.rules, rule ∈ Rule.standard := first.rules_eq ▸ fun _ member => member
  obtain ⟨forms, others⟩ : AddsForms (fun _ => True) _ _ ∧ _ :=
    onward.addsForms standard (.refl develops.formed.toValid) fun _ _ _ _ => trivial
  have all : Listed Rule.standard explored.context.memo (log ++ more) :=
    List.forall_mem_append.2 ⟨listed, first.rules_eq ▸ others⟩
  have fewer := second.length_le all
  have exprs : explored.context.memo.exprs.size ≤ memo.mostExprs := rearranged.exprs_le develops.formed
  refine ⟨forms, through.implemented_accounts.iterations, ?_⟩
  rw [← second.length_eq]
  exact fewer.trans (Nat.mul_le_mul_right _ exprs)

end Phases

end Search

/-! ### Tables -/

namespace Memo

variable {memo next : Memo} {root id : GroupId} {breadth : GroupId → Breadth} {target : GroupId}

/-- A group of one table. -/
def Tabular (memo : Memo) (id : GroupId) : Prop :=
  ∃ expr table columns, memo.firstMember id = .ok expr ∧ expr.operator = .logical (.get table columns)

/-- In a memo of well-formed logical expressions every group has one member. -/
theorem Built.position_eq (built : memo.Built) {number : ExprId} {expr : Expr}
    (stored : memo.exprs[number]? = some expr) : expr.position = 0 := by
  induction built generalizing number expr with
  | empty => simp [Memo.empty] at stored
  | insert _ _ _ done ih =>
    rcases stored_insert done stored with old | ⟨_, _, position, _⟩
    · exact ih old
    · exact position

/-- Well-formed logical expressions are not physical. -/
theorem Built.isPhysical_eq (built : memo.Built) {number : ExprId} {expr : Expr}
    (stored : memo.exprs[number]? = some expr) : expr.operator.isPhysical = false := by
  obtain ⟨_, formed⟩ := built.formed
  exact (formed.seated stored).headed (built.position_eq stored)

/-- What exploring adds is neither physical nor a table. -/
theorem Additional.plain {expr : Expr} (added : memo.Additional False expr) :
    expr.operator.isPhysical = false ∧
      ∀ table columns, expr.operator ≠ .logical (.get table columns) := by
  cases added with
  | conjunction operator =>
    have family : expr.operator.isScalar = true := operator ▸ isScalar_conjoining
    cases shown : expr.operator with
    | scalar => exact ⟨rfl, nofun⟩
    | logical | physical =>
      rw [shown] at family
      cases family
  | join _ operator | select _ operator =>
    rw [operator]
    exact ⟨rfl, nofun⟩
  | physical never => exact never.elim

/-- **Forms in one group make a plan of a table only**: any other operator has inputs, which would need
forms as well. -/
theorem AddsForms.exists_get (adds : AddsForms (·.group = target) memo next) (formed : next.Formed breadth)
    (bare : ∀ (number : ExprId) (expr : Expr), memo.exprs[number]? = some expr →
      expr.operator.isPhysical = false) (planned : next.Planned id) :
    ∃ (number : ExprId) (expr : Expr) (table : Table) (columns : List Column),
      memo.exprs[number]? = some expr ∧ expr.group = id ∧
        expr.operator = .logical (.get table columns) := by
  have only : ∀ {group : GroupId}, next.Planned group → group = target := by
    rintro _ ⟨stored, physical, _⟩
    refine ((adds.added stored).resolve_left fun old => ?_).2
    have none := bare _ _ old
    rw [physical] at none
    cases none
  have here := only planned
  cases planned with
  | @member number expr operator stored physical below =>
    have childless : ∀ child ∈ expr.children, ¬ next.Relational child := by
      intro child member relational
      have inside : child ∈ next.relationalChildren expr :=
        List.mem_filter.2 ⟨member, by rw [(relational_iff.1 relational).2]; rfl⟩
      have same : child = expr.group := (only (below child inside)).trans here.symm
      exact formed.acyclic child
        (.single ⟨number, expr, operator, stored, physical, same.symm, inside⟩)
    obtain ⟨other, sibling, again, logical, children, beside⟩ := (formed.seated stored).logical physical
    have laid : next.Laid := formed.laid
    have layout := laid.logical formed.toLinked again logical
    rw [children] at layout
    refine ⟨other, sibling, ?_⟩
    generalize operator.logical = computed at logical layout
    cases computed with
    | get table columns => exact ⟨table, columns, adds.old again logical, beside, logical⟩
    | select | project | aggregate =>
      obtain ⟨source, last, shown, relational, _⟩ := layout
      exact absurd relational (childless source (by simp [shown]))
    | limit =>
      obtain ⟨source, shown, relational⟩ := layout
      exact absurd relational (childless source (by simp [shown]))
    | join =>
      obtain ⟨left, right, predicate, shown, relational, _⟩ := layout
      exact absurd relational (childless left (by simp [shown]))
    | naryJoin =>
      obtain ⟨source, others, predicate, shown, relational, _⟩ := layout
      exact absurd (relational source List.mem_cons_self) (childless source (by simp [shown]))

/-- Where nothing is below a root, nothing else is found. -/
theorem Reaches.eq_of_nothing (nothing : memo.groupsBelow root = []) (reaches : memo.Reaches root id) :
    id = root := by
  let itself (upper : GroupId) : Prop := upper = root
  have closed : ∀ {upper child : GroupId}, itself upper → child ∈ memo.groupsBelow upper →
      itself child := by
    intro upper child same below
    rw [show upper = root from same, nothing] at below
    cases below
  have found : itself id := reaches.least rfl closed
  exact found

/-- A table has no inputs. -/
theorem Formed.children_of_get (formed : memo.Formed breadth) {number : ExprId} {expr : Expr}
    (stored : memo.exprs[number]? = some expr) {table : Table} {columns : List Column}
    (get : expr.operator = .logical (.get table columns)) : expr.children = [] := by
  have laid : memo.Laid := formed.laid
  exact laid.logical formed.toLinked stored get

/-- **Below a table** there is nothing but its expression. -/
theorem Built.eq_of_below (built : memo.Built) {expr : Expr} (found : memo.firstMember root = .ok expr)
    {table : Table} {columns : List Column} (get : expr.operator = .logical (.get table columns))
    {number : ExprId} (below : memo.Below root number) : memo.exprs[number]? = some expr := by
  obtain ⟨_, formed⟩ := built.formed
  obtain ⟨owner, first, there, place, stored⟩ := firstMember_ok_iff.1 found
  obtain ⟨rfl, _⟩ := formed.of_firstMember found
  have childless := formed.children_of_get stored get
  have relational : memo.Relational expr.group :=
    formed.toValid.relational_of_stored stored (by rw [get]; rfl)
  have alone : ∀ (other : ExprId) (member : Expr), memo.exprs[other]? = some member →
      member.group = expr.group → member = expr := by
    intro other member storedToo same
    have again := formed.firstMember_of_position storedToo (built.position_eq storedToo)
    rw [same, found] at again
    exact (Except.ok.inj again).symm
  have nothing : memo.groupsBelow expr.group = [] := by
    refine List.eq_nil_iff_forall_not_mem.2 fun child member => ?_
    obtain ⟨other, upper, storedToo, same, inner⟩ := formed.toLinked.mem_groupsBelow_iff.1 member
    have listed := (List.mem_filter.1 inner).1
    rw [alone other upper storedToo same, childless] at listed
    exact absurd listed List.not_mem_nil
  obtain ⟨ids, place, group, reached, inside, here, logical⟩ := below
  have same : place = expr.group := Reaches.eq_of_nothing nothing ⟨ids, reached, inside⟩
  obtain ⟨position, among⟩ := List.mem_iff_getElem?.1 (List.mem_filter.1 logical).1
  rw [Array.getElem?_toList] at among
  obtain ⟨member, storedToo, named, _⟩ := formed.listed here among
  rw [storedToo, alone number member storedToo (named.trans same)]

end Memo

/-- Of the standard rules only the scan is for tables. -/
theorem Rule.eq_getToTableScan {rule : Rule} (listed : rule ∈ standard) {table : Table}
    {columns : List Column}
    (matching : rule.pattern.matchesRoot (.logical (.get table columns)) 0 = true) :
    rule = getToTableScan := by
  simp only [standard, List.mem_cons, List.not_mem_nil, or_false] at listed
  rcases listed with rfl | rfl | rfl | rfl | rfl | rfl | rfl | rfl | rfl | rfl | rfl
  case inr.inr.inr.inr.inl => rfl
  all_goals cases matching

namespace Search

variable {kind : RuleKind} {root : GroupId} {search explored implemented : Search}
  {memo : Memo} {catalog : Catalog} {config : Config}

section Table

variable (built : memo.Built) {expr : Expr} (found : memo.firstMember root = .ok expr) {table : Table}
  {columns : List Column} (get : expr.operator = .logical (.get table columns))
include built found get

/-- Below a table nothing is tried but the scan. -/
theorem trials_of_table (same : search.context.memo = memo)
    (standard : ∀ rule ∈ search.rules, rule ∈ Rule.standard) {trials : List Trial}
    (done : search.trials kind root = .ok trials) : ∀ trial ∈ trials,
      memo.exprs[trial.1]? = some expr ∧ trial.2 = Rule.getToTableScan ∧ kind = .implementation := by
  intro trial member
  obtain ⟨below, known, eligible, _⟩ := (mem_trials_iff done).1 member
  rw [same] at below
  have stored := built.eq_of_below found get below
  obtain ⟨other, again, matching⟩ := eligible.root
  rw [same, stored] at again
  cases again
  obtain ⟨_, formed⟩ := built.formed
  rw [get, Expr.arity, formed.children_of_get stored get] at matching
  have scan := Rule.eq_getToTableScan (standard _ known) matching
  exact ⟨stored, scan, eligible.sameKind ▸ congrArg Rule.kind scan⟩

/-- Exploring below a table leaves the memo as it is. -/
theorem explored_of_table
    (explores : explore root (ofMemo memo catalog Rule.standard config) = .ok (.ok ⟨⟩, explored)) :
    explored.context.memo = memo := by
  have derives := derives_of_phase explores fun derived trials derives tried => by
    obtain ⟨context, same, rfl⟩ := onContext_deriveAll derives
    refine List.eq_nil_iff_forall_not_mem.2 fun trial member => ?_
    cases (trials_of_table built found get same.memo (fun _ member => member) tried trial member).2.2
  obtain ⟨context, same, rfl⟩ := onContext_deriveAll derives
  exact same.memo

/-- The scan is tried on a table. -/
theorem scan_mem_trials (same : search.context.memo = memo) (standard : search.rules = Rule.standard)
    (enabled : search.config.isDisabled Rule.getToTableScan.name = false) {number : ExprId}
    (stored : memo.exprs[number]? = some expr) {trials : List Trial}
    (done : search.trials .implementation root = .ok trials) :
    (number, Rule.getToTableScan) ∈ trials := by
  obtain ⟨_, formed⟩ := built.formed
  obtain ⟨rfl, _⟩ := formed.of_firstMember found
  have relational : memo.Relational expr.group :=
    formed.toValid.relational_of_stored stored (by rw [get]; rfl)
  have below := (formed.toLinked.reaches_closed relational).1.below formed.toLinked stored get
  refine (mem_trials_iff done).2
    ⟨same ▸ below, ?_, ⟨rfl, ⟨expr, same ▸ stored, ?_⟩, enabled, ?_⟩, .low, rfl, by decide⟩
  · rw [standard]
    simp [Rule.standard]
  · rw [get, Expr.arity, formed.children_of_get stored get]
    rfl
  · exact same ▸ built.isMarked_eq number _

/-- **A table gets a plan** also where the memo is full. -/
theorem planned_of_table
    (through : GoesThrough root breadth (ofMemo memo catalog Rule.standard config) explored implemented)
    (enabled : config.isDisabled Rule.getToTableScan.name = false) (full : explored.isFull = true)
    (few : explored.iterations < config.maxIterations) : implemented.context.memo.Planned root := by
  have formed : memo.Formed breadth := through.formed
  have configured : explored.config = config := through.explored_accounts.config
  obtain ⟨later, develops⟩ := through.implemented_continues.develops
  have whole := explored_of_table built found get through.explores
  obtain ⟨_, number, _, _, stored⟩ := firstMember_ok_iff.1 found
  have valid : explored.context.memo.Valid := whole ▸ formed.toValid
  obtain ⟨derived, trials, derives, tried, ends⟩ := phase_full full valid through.implements
  have starts : Starts .implementation root explored derived := .first derives
  obtain ⟨after, made⟩ :=
    starts.exists_derived through.standard through.relational.inside through.explored_continues
  obtain ⟨context, same, rfl⟩ := onContext_deriveAll derives
  let derived : Search := { explored with context }
  have same : derived.context.memo = memo := same.memo.trans whole
  have rules : derived.rules = Rule.standard := through.explored_continues.rules
  have listed : ∀ rule ∈ derived.rules, rule ∈ Rule.standard := rules ▸ fun _ member => member
  have only := trials_of_table built found get same listed tried
  have scans : (number, Rule.getToTableScan) ∈ trials :=
    scan_mem_trials built found get same rules (configured ▸ enabled) stored tried
  rcases ends with ⟨nothing, _⟩ | ⟨⟨id, rule⟩, member, proposals, added, proposed, committed⟩
  · have length := congrArg List.length nothing
    have some := List.length_pos_of_mem scans
    rw [List.length_take, List.length_nil, configured] at length
    omega
  obtain ⟨there, rfl, _⟩ := only (id, rule) (List.mem_of_mem_take member)
  have valid : derived.context.memo.Valid := same ▸ formed.toValid
  have applied : Applied .implementation root derived implemented id Rule.getToTableScan := by
    obtain ⟨other, again, resolved⟩ := committed.resolves valid
    exact ⟨⟨trials, tried, member⟩, (committed.keeps valid).2, other, proposals, again, proposed,
      resolved⟩
  obtain ⟨_, form, operator, formed, physical, children, beside⟩ := applied.hasForm made develops.formed
    Rule.getToTableScan_realizes (develops.grows.exprs there) get
  rw [← (through.formed.of_firstMember found).1, ← beside]
  refine .member formed physical fun child below => ?_
  have inner := (List.mem_filter.1 below).1
  rw [children, through.formed.children_of_get there get] at inner
  exact absurd inner List.not_mem_nil

end Table

/-! ### The whole search -/

/-- A phase on a full memo adds forms to one group at most. -/
theorem Single.exists_addsForms (single : Single .implementation root search final)
    (standard : ∀ rule ∈ search.rules, rule ∈ Rule.standard) (valid : search.context.memo.Valid) :
    ∃ target, AddsForms (·.group = target) search.context.memo final.context.memo := by
  obtain ⟨derived, trials, derives, tried, ends⟩ := single
  obtain ⟨context, same, rfl⟩ := onContext_deriveAll derives
  rw [← same.memo]
  have valid : context.memo.Valid := same.memo ▸ valid
  rcases ends with ⟨_, rfl⟩ | ⟨trial, member, proposals, added, proposed, committed⟩
  · exact ⟨root, .refl valid⟩
  · obtain ⟨known, kind, expr, stored⟩ := known_of_trials tried trial (List.mem_of_mem_take member)
    have listed := standard _ known
    have implements : trial.2.Implements :=
      Rule.implementing_implements _ (Rule.mem_implementing _ listed kind)
    have forms := implements.isForm (Rule.standard_inner _ listed) valid stored proposed
    exact ⟨expr.group, (committed.addsForms valid stored fun proposal one =>
      (forms proposal one).1).mono fun _ new => new.1⟩

section Ends

variable (built : memo.Built)
  (through : GoesThrough root breadth (ofMemo memo catalog Rule.standard config) explored implemented)
include built through

/-- **On a full memo only a table gets a plan.** -/
theorem tabular_of_planned (full : explored.isFull = true)
    (planned : implemented.context.memo.Planned root) : memo.Tabular root := by
  have formed : memo.Formed breadth := through.formed
  obtain ⟨later, develops, rearranged⟩ := explored_rearranged built formed through.explores
  obtain ⟨after, onward⟩ := through.implemented_continues.develops
  have standard : ∀ rule ∈ explored.rules, rule ∈ Rule.standard := by
    rw [through.explored_continues.rules]
    exact fun _ member => member
  have single := phase_full full develops.formed.toValid through.implements
  obtain ⟨target, adds⟩ := single.exists_addsForms standard develops.formed.toValid
  have bare : ∀ (number : ExprId) (expr : Expr), explored.context.memo.exprs[number]? = some expr →
      expr.operator.isPhysical = false := by
    intro number expr stored
    rcases rearranged.added stored with old | added
    · exact built.isPhysical_eq old
    · exact added.plain.1
  obtain ⟨number, expr, table, columns, stored, rfl, get⟩ :=
    adds.exists_get onward.formed bare planned
  have old : memo.exprs[number]? = some expr :=
    (rearranged.added stored).resolve_right fun added => added.plain.2 table columns get
  exact ⟨expr, table, columns, formed.firstMember_of_position old (built.position_eq old), get⟩

variable (enabled : ∀ rule ∈ Rule.standard, config.isDisabled rule.name = false)
  (unlimited : mostTrials memo < config.maxIterations)
include enabled unlimited

/-- **Below the limit** on groups, both phases reach no limit at all. -/
theorem completes_of_room (room : explored.isFull = false) :
    Completes root breadth (ofMemo memo catalog Rule.standard config) explored implemented := by
  obtain ⟨forms, _, few⟩ := implemented_forms built through
  have after : implemented.config = config := through.implemented_config
  refine ⟨through, enabled, after ▸ Nat.lt_of_le_of_lt few unlimited, ?_⟩
  unfold isFull at room ⊢
  rwa [forms.size_eq, through.implemented_accounts.config]

/-- **When the root has a tree**: where there is room left, or for a table. -/
theorem planned_iff_room
    (binary : ∀ (id : ExprId) (expr : Expr), memo.exprs[id]? = some expr →
      expr.operator ≠ .logical .naryJoin) :
    implemented.context.memo.Planned root ↔ explored.isFull = false ∨ memo.Tabular root := by
  cases full : explored.isFull with
  | true =>
    refine ⟨fun planned => Or.inr ?_, fun ends => ?_⟩
    · exact tabular_of_planned built through full planned
    · obtain ⟨expr, table, columns, found, get⟩ := ends.resolve_left nofun
      obtain ⟨_, within, few⟩ := implemented_forms built through
      exact planned_of_table built found get through (enabled _ (by simp [Rule.standard])) full
        (Nat.lt_of_le_of_lt (within.trans few) unlimited)
  | false =>
    refine ⟨fun _ => Or.inl rfl, fun _ => ?_⟩
    have completes := completes_of_room built through enabled unlimited full
    refine completes.planned_iff.2 ?_
    obtain ⟨later, develops⟩ := completes.implemented_continues.develops
    by_contra missing
    obtain ⟨group, _, below, alone⟩ := develops.formed.exists_alone
      (fun _ _ _ _ => trivial) trivial (completes.relational.mono develops.grows) missing
    obtain ⟨owner, there, family⟩ := below
    obtain ⟨number, expr, operator, place, stored, _⟩ := develops.formed.logicalFirst there family
    obtain ⟨again, same, beside, _⟩ := develops.formed.listed there place
    rw [stored] at same
    cases same
    have nary := alone number expr stored beside
    exact binary number expr (develops.naryJoins stored nary) nary

end Ends

/-- **Plans under a limit on groups.** In a memo into which well-formed logical expressions were
inserted, none of them a join of many inputs, a search with all standard rules finds a plan of a root,
under whatever settings. Then the search does not go wrong under any limit on groups, if the limit on
iterations is above a bound that comes from the memo. Unless it is stopped, it finds a plan if and only
if its exploration leaves the memo below the limit or the root is a table. -/
theorem optimize_under_limit (built : memo.Built)
    (binary : ∀ (id : ExprId) (expr : Expr), memo.exprs[id]? = some expr →
      expr.operator ≠ .logical .naryJoin)
    (enabled : ∀ rule ∈ Rule.standard, config.isDisabled rule.name = false)
    (unlimited : mostTrials memo < config.maxIterations) {plan : Plan}
    (elsewhere : optimize model root (ofMemo memo catalog Rule.standard other) =
      .ok (.ok (some plan), final)) :
    ∃ outcome last, optimize model root (ofMemo memo catalog Rule.standard config) =
        .ok (outcome, last) ∧
      ∀ found, outcome = .ok found → ∃ explored,
        explore root (ofMemo memo catalog Rule.standard config) = .ok (.ok ⟨⟩, explored) ∧
        (found.isSome = true ↔ explored.isFull = false ∨ memo.Tabular root) := by
  obtain ⟨breadth, formed⟩ := built.formed
  obtain ⟨_, _, through, _⟩ := goesThrough_of_optimize built formed elsewhere
  obtain ⟨outcome, last, done, _⟩ := through.optimize_ends built model config
  refine ⟨outcome, last, done, ?_⟩
  rintro found rfl
  obtain ⟨explored, implemented, through, plans, _⟩ := goesThrough_of_optimize built formed done
  refine ⟨explored, through.explores, ?_⟩
  rw [isSome_iff_planned through.implemented_continues through.relational plans]
  exact planned_iff_room built through enabled unlimited binary

/-- A selection from a table. -/
def selection : List (Operator × List GroupId) :=
  [(.logical (.get ⟨"shop", "orders"⟩ []), []), (.truth, []), (.logical .select, [0, 1])]

/-- What searches of two settings show: whether each finds a plan. -/
def foundAt (root : GroupId) (memo : Memo) (config : Config) : Option Bool :=
  (optimize (CardinalityModel.cost {}) root (ofMemo memo {} Rule.standard config)).toOption.bind
    fun ended => ended.1.toOption.map Option.isSome

theorem exists_found {memo : Memo} {found : Bool} (shown : foundAt root memo config = some found) :
    ∃ plan final, optimize (CardinalityModel.cost {}) root (ofMemo memo {} Rule.standard config) =
      .ok (.ok plan, final) ∧ plan.isSome = found := by
  obtain ⟨⟨outcome, final⟩, done, ended⟩ := Option.bind_eq_some_iff.1 shown
  obtain ⟨plan, given, same⟩ := Option.map_eq_some_iff.1 ended
  obtain rfl : outcome = .ok plan := toOption_eq_some_iff.1 given
  exact ⟨plan, final, toOption_eq_some_iff.1 done, same⟩

theorem optimize_under_limit_selection :
    ∃ memo found last explored, Memo.empty.build? selection = some memo ∧
      optimize (CardinalityModel.cost {}) 2
        (ofMemo memo {} Rule.standard { maxIterations := 10 ^ 12, maxGroups := 4 }) =
          .ok (.ok found, last) ∧
      explore 2 (ofMemo memo {} Rule.standard { maxIterations := 10 ^ 12, maxGroups := 4 }) =
        .ok (.ok ⟨⟩, explored) ∧
      found.isSome = true ∧
      (found.isSome = true ↔ explored.isFull = false ∨ memo.Tabular 2) := by
  have shown : (Memo.empty.build? selection).map (fun memo =>
      (memo.exprs.all fun expr => expr.operator != .logical .naryJoin,
        decide (mostTrials memo < 10 ^ 12), foundAt 2 memo {},
        foundAt 2 memo { maxIterations := 10 ^ 12, maxGroups := 4 })) =
      some (true, true, some true, some true) := by
    decide +kernel
  obtain ⟨memo, made, shown⟩ := Option.map_eq_some_iff.1 shown
  obtain ⟨plain, shown⟩ := Prod.mk.inj shown
  obtain ⟨few, shown⟩ := Prod.mk.inj shown
  obtain ⟨first, second⟩ := Prod.mk.inj shown
  obtain ⟨plan, _, elsewhere, some⟩ := exists_found first
  obtain ⟨plan, rfl⟩ := Option.isSome_iff_exists.1 some
  obtain ⟨found, last, here, finds⟩ := exists_found second
  have binary : ∀ (id : ExprId) (expr : Expr), memo.exprs[id]? = .some expr →
      expr.operator ≠ .logical .naryJoin := by
    intro id expr stored nary
    obtain ⟨inside, rfl⟩ := Array.getElem?_eq_some_iff.1 stored
    have other := Array.all_eq_true.1 plain id inside
    rw [nary] at other
    cases other
  let limited : Config := { maxIterations := 10 ^ 12, maxGroups := 4 }
  have enabled : ∀ rule ∈ Rule.standard, limited.isDisabled rule.name = false := fun _ _ => rfl
  obtain ⟨outcome, _, again, ends⟩ := optimize_under_limit (Built.empty.build? made) binary enabled
    (of_decide_eq_true few) elsewhere
  rw [here] at again
  cases again
  obtain ⟨explored, explores, iff⟩ := ends found rfl
  exact ⟨memo, found, last, explored, made, here, explores, finds, iff⟩

/-- **A limit that is not exceeded loses the plan.** The memo has as many groups as it may have, and
exploring and implementing a selection adds none. But the search for trials to carry out stops after
the first form, so the root is left without a tree. -/
theorem optimize_loses_plan :
    ∃ memo plan last final, Memo.empty.build? selection = some memo ∧ memo.Built ∧
      memo.groups.size = 3 ∧
      optimize (CardinalityModel.cost {}) 2 (ofMemo memo {} Rule.standard { maxGroups := 4 }) =
        .ok (.ok (some plan), last) ∧
      last.context.memo.groups.size = 3 ∧
      optimize (CardinalityModel.cost {}) 2 (ofMemo memo {} Rule.standard { maxGroups := 3 }) =
        .ok (.ok none, final) := by
  have shown : (Memo.empty.build? selection).map (fun memo =>
      (memo.groups.size, foundAt 2 memo { maxGroups := 4 }, foundAt 2 memo { maxGroups := 3 },
        (optimize (CardinalityModel.cost {}) 2
          (ofMemo memo {} Rule.standard { maxGroups := 4 })).toOption.map
            fun ended => ended.2.context.memo.groups.size)) =
      some (3, some true, some false, some 3) := by
    decide +kernel
  obtain ⟨memo, made, shown⟩ := Option.map_eq_some_iff.1 shown
  obtain ⟨size, shown⟩ := Prod.mk.inj shown
  obtain ⟨first, shown⟩ := Prod.mk.inj shown
  obtain ⟨second, shown⟩ := Prod.mk.inj shown
  obtain ⟨plan, last, plenty, some⟩ := exists_found first
  obtain ⟨plan, rfl⟩ := Option.isSome_iff_exists.1 some
  obtain ⟨found, final, limited, none⟩ := exists_found second
  obtain rfl : found = Option.none := by simpa using none
  rw [plenty] at shown
  exact ⟨memo, plan, last, final, made, Built.empty.build? made, size, plenty,
    Option.some.inj shown, limited⟩

end Search

end Cascades
