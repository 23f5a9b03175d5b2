/-
**What is kept of statistics does not matter.**

The statistics of a group follow from first members only. So they are what a plain recursion gives,
whatever was found and kept before, and a memo that grew has the same statistics for its old groups.

* `estimate`: the statistics of a group by a plain recursion;
* `estimate_grown`, `estimated_grown_iff`: growth changes no estimate;
* `find_mirrors`, `ofAll_known`: what is found is the estimate;
* `ofGroupFrom_eq`: what was found before does not matter;
* `statistics_ofMemo_iff`, `statistics_developed_iff`: what the search for plans looks at.
-/

import Cascades.Proofs.Memo.Formed
import Cascades.Proofs.Memo.Growth
import Cascades.Proofs.Plan.Cheapest

namespace Cascades

open Memo

namespace Statistics

variable {memo next : Memo} {catalog : Catalog} {id : GroupId} {found : Found}

/-! ### A plain recursion -/

/-- The statistics of a group, for a plain recursion with some levels left. -/
def estimateWithin (memo : Memo) (catalog : Catalog) : (levels : Nat) → GroupId → Finding Statistics
  | 0, id => throw (.endlessDerivation id)
  | levels + 1, id => ofMembers memo catalog (estimateWithin memo catalog levels) id

/-- The statistics of a group, nothing kept on the way. -/
def estimate (memo : Memo) (catalog : Catalog) (id : GroupId) : Finding Statistics :=
  estimateWithin memo catalog (id + 1) id

/-! ### One operator -/

section Grows

variable (grows : memo.Grows next) (valid : memo.Valid)
include grows valid

theorem conjunctSelectivity_grown {input : Statistics} (inside : id < memo.groups.size) :
    conjunctSelectivity next input id = conjunctSelectivity memo input id := by
  unfold conjunctSelectivity
  rw [grows.scalarFirst?_eq valid inside]
  split
  · rename_i operator children first
    rw [grows.equalColumns?_eq valid inside]
    cases left : children[0]? with
    | none => rfl
    | some one =>
      have oneIn := valid.operands_inside first one (List.mem_of_getElem? left)
      cases right : children[1]? with
      | none => rfl
      | some two =>
        have twoIn := valid.operands_inside first two (List.mem_of_getElem? right)
        simp only [grows.column?_eq valid oneIn, grows.column?_eq valid twoIn,
          grows.constant?_eq valid oneIn, grows.constant?_eq valid twoIn]
  · rfl

theorem selectivity_grown {input : Statistics} (inside : id < memo.groups.size) :
    selectivity next input id = selectivity memo input id := by
  have each := valid.conjuncts_inside inside
  obtain ⟨group, there⟩ := group_of_lt inside
  obtain ⟨after, again, _⟩ := grows.groups there
  unfold selectivity
  rw [group_ok_iff.2 there, group_ok_iff.2 again, grows.conjuncts_eq valid inside]
  refine foldlM_congr fun conjunct member share => ?_
  rw [conjunctSelectivity_grown grows valid (each conjunct member)]

theorem equalPairs_grown {left right : Statistics} (inside : id < memo.groups.size) :
    equalPairs next left right (next.conjuncts id) = equalPairs memo left right (memo.conjuncts id) := by
  unfold equalPairs
  rw [grows.conjuncts_eq valid inside, grows.equalities_eq valid (valid.conjuncts_inside inside)]

/-- **An operator** over inputs whose statistics are the same. -/
theorem ofOperator_grown {input other : GroupId → Finding Statistics} {expr : Expr}
    {number : ExprId} (stored : memo.exprs[number]? = some expr) {operator : LogicalOp}
    (same : ∀ child ∈ expr.children, other child = input child) :
    ofOperator next catalog other expr operator = ofOperator memo catalog input expr operator := by
  have inside : ∀ {child}, child ∈ expr.children → child < memo.groups.size := valid.childExists stored
  have rows : ∀ {position child}, expr.child position = .ok child → other child = input child :=
    fun found => same _ (Expr.mem_of_child found)
  cases operator with
  | get table columns => rfl
  | select =>
    refine bind_lift_congr fun source found => ?_
    rw [rows found]
    refine congrArg _ (funext fun rows => bind_lift_congr fun predicate there => ?_)
    rw [selectivity_grown grows valid (inside (Expr.mem_of_child there))]
  | project => exact bind_lift_congr fun source found => rows found
  | limit offset count =>
    refine bind_lift_congr fun source found => ?_
    rw [rows found]
  | aggregate keys =>
    refine bind_lift_congr fun source found => ?_
    rw [rows found]
  | join type =>
    refine bind_lift_congr fun left found => ?_
    rw [rows found]
    refine congrArg _ (funext fun leftRows => bind_lift_congr fun right found => ?_)
    rw [rows found]
    refine congrArg _ (funext fun rightRows => bind_lift_congr fun predicate there => ?_)
    simp only [equalPairs_grown grows valid (inside (Expr.mem_of_child there))]
  | naryJoin =>
    refine bind_lift_congr fun predicate there => bind_lift_congr fun first found => ?_
    rw [rows found]
    refine congrArg _ (funext fun one => foldlM_congr fun child member joined => ?_)
    rw [same child (List.dropLast_subset _ (List.mem_of_mem_tail member))]
    simp only [equalPairs_grown grows valid (inside (Expr.mem_of_lastChild there))]

/-! ### Groups -/

omit grows valid in
theorem throw_bind {α β : Type} {cause : Fault} {next : α → Finding β} :
    (throw cause : Finding α) >>= next = throw cause := rfl

variable (headed : memo.LogicalFirst)
include headed

/-- A descent with enough levels through the first members of a memo finds the same in one that grew out
of it. -/
theorem estimateWithin_grown (levels : Nat) : ∀ {more : Nat} {id : GroupId},
    id < memo.groups.size → id < levels → id < more →
      estimateWithin next catalog more id = estimateWithin memo catalog levels id := by
  induction levels with
  | zero => exact fun _ below => absurd below (Nat.not_lt_zero _)
  | succ levels ih =>
    intro more id inside below belowToo
    cases more with
    | zero => exact absurd belowToo (Nat.not_lt_zero _)
    | succ more =>
      obtain ⟨group, there⟩ := group_of_lt inside
      obtain ⟨after, again, same, _⟩ := grows.groups there
      unfold estimateWithin ofMembers
      simp only [bind_known (group_ok_iff.2 there), bind_known (group_ok_iff.2 again), same]
      cases family : group.isScalar with
      | true => exact throw_bind.trans throw_bind.symm
      | false =>
        obtain ⟨number, expr, operator, place, stored, logical⟩ := headed there family
        have found := firstMember_ok_iff.2 ⟨group, number, there, place, stored⟩
        have first := firstLogical_of_firstMember found logical
        have firstToo := firstLogical_of_firstMember (grows.firstMember found) logical
        simp only [bind_known first, bind_known firstToo]
        refine ofOperator_grown grows valid stored fun child member => ?_
        have older := (valid.of_firstMember found).2 child member
        exact ih (valid.childExists stored member)
          (Nat.lt_of_lt_of_le older (Nat.le_of_lt_succ below))
          (Nat.lt_of_lt_of_le older (Nat.le_of_lt_succ belowToo))

/-- **Growth changes no estimate.** -/
theorem estimate_grown (inside : id < memo.groups.size) :
    estimate next catalog id = estimate memo catalog id :=
  estimateWithin_grown grows valid headed (id + 1) inside (Nat.lt_succ_self id) (Nat.lt_succ_self id)

end Grows

/-! ### What is kept -/

/-- A group has some statistics by a plain recursion. -/
def Estimated (memo : Memo) (catalog : Catalog) (id : GroupId) (statistics : Statistics) : Prop :=
  memo.Relational id ∧ ∀ found, estimate memo catalog id found = .ok (statistics, found)

/-- What is kept are estimates. -/
def Known (memo : Memo) (catalog : Catalog) (found : Found) : Prop :=
  ∀ (id : GroupId) (statistics : Statistics), found.get? id = some statistics →
    Estimated memo catalog id statistics

theorem known_empty : Known memo catalog {} := fun _ _ none => nomatch none

theorem Known.insert (known : Known memo catalog found) {statistics : Statistics}
    (estimated : Estimated memo catalog id statistics) :
    Known memo catalog (found.insert id statistics) := by
  intro other value lookup
  have there : (found.insert id statistics)[other]? = some value := lookup
  rw [Std.TreeMap.getElem?_insert] at there
  split at there
  · rename_i same
    obtain rfl := Std.LawfulEqOrd.compare_eq_iff_eq.1 same
    exact Option.some.inj there ▸ estimated
  · exact known other value there

/-- An operator over inputs that mirror others. -/
theorem ofOperator_mirrors {holds : Found → Prop} {input other : GroupId → Finding Statistics}
    {expr : Expr} (each : ∀ child ∈ expr.children, Mirrors holds (input child) (other child))
    {operator : LogicalOp} :
    Mirrors holds (ofOperator memo catalog input expr operator)
      (ofOperator memo catalog other expr operator) := by
  have child : ∀ {position child}, expr.child position = .ok child →
      Mirrors holds (input child) (other child) := fun found => each _ (Expr.mem_of_child found)
  cases operator with
  | get table columns => exact .pure
  | select =>
    refine .bind_lift fun source found => .bind (child found) fun rows => ?_
    exact .bind_lift fun predicate _ => .bind_lift fun share _ => .pure
  | project => exact .bind_lift fun source found => child found
  | limit offset count =>
    exact .bind_lift fun source found => .bind (child found) fun rows => .pure
  | aggregate keys => exact .bind_lift fun source found => .bind (child found) fun rows => .pure
  | join type =>
    refine .bind_lift fun left found => .bind (child found) fun leftRows => ?_
    refine .bind_lift fun right found => .bind (child found) fun rightRows => ?_
    exact .bind_lift fun predicate _ => .bind_lift fun pairs _ => .pure
  | naryJoin =>
    refine .bind_lift fun predicate _ => .bind_lift fun head found => .bind (child found) fun rows => ?_
    refine .foldlM fun source member joined => ?_
    refine .bind (each source (List.dropLast_subset _ (List.mem_of_mem_tail member))) fun next => ?_
    exact .bind_lift fun pairs _ => .pure

section Known

variable (valid : memo.Valid) (headed : memo.LogicalFirst)
include valid headed

omit valid headed in
/-- Only relational groups have an estimate. -/
theorem relational_of_estimate {statistics : Statistics} {after : Found}
    (done : estimate memo catalog id found = .ok (statistics, after)) : memo.Relational id := by
  obtain ⟨⟨group, _⟩, lifted, rest⟩ := bind_eq_ok_iff.1 done
  obtain ⟨_, there, same⟩ := bind_eq_ok_iff.1 lifted
  cases pure_eq_ok_iff.1 same
  refine ⟨group, group_ok_iff.1 there, Bool.eq_false_iff.2 fun scalar => ?_⟩
  simp only [scalar, if_true] at rest
  cases rest

omit valid headed in
theorem findWithin_of_known {statistics : Statistics} {levels : Nat}
    (there : found.get? id = some statistics) :
    findWithin memo catalog (levels + 1) id found = .ok (statistics, found) := by
  unfold findWithin
  refine (bind_of_ok (show (get : Finding Found) found = .ok (found, found) from rfl)).trans ?_
  rw [there]
  rfl

omit valid headed in
theorem findWithin_of_unknown {levels : Nat} (absent : found.get? id = none) :
    findWithin memo catalog (levels + 1) id found =
      ofMembers memo catalog (findWithin memo catalog levels) id found >>= fun ended =>
        .ok (ended.1, ended.2.insert id ended.1) := by
  unfold findWithin
  refine (bind_of_ok (show (get : Finding Found) found = .ok (found, found) from rfl)).trans ?_
  rw [absent]
  rfl

omit valid headed in
/-- Statistics that are found are kept. -/
theorem get?_of_find {statistics : Statistics} {after : Found}
    (done : find memo catalog id found = .ok (statistics, after)) : after.get? id = some statistics := by
  unfold find at done
  cases there : found.get? id with
  | some known =>
    rw [findWithin_of_known there] at done
    cases done
    exact there
  | none =>
    rw [findWithin_of_unknown there] at done
    obtain ⟨ended, _, last⟩ := bind_eq_ok_iff.1 done
    cases last
    exact Std.TreeMap.getElem?_insert_self

/-- What is found for a group, if for the inputs of its first member the estimates are found. -/
theorem findWithin_mirrors_succ {levels : Nat}
    (each : ∀ child, memo.Needs id child →
      Mirrors (Known memo catalog) (findWithin memo catalog levels child) (estimate memo catalog child)) :
    Mirrors (Known memo catalog) (findWithin memo catalog (levels + 1) id)
      (estimate memo catalog id) := by
  have own : Mirrors (Known memo catalog) (ofMembers memo catalog (findWithin memo catalog levels) id)
      (estimate memo catalog id) := by
    show Mirrors _ _ (ofMembers memo catalog (estimateWithin memo catalog id) id)
    refine .bind_lift fun group there => ?_
    cases family : group.isScalar with
    | true => exact .throw
    | false =>
      obtain ⟨number, expr, operator, place, stored, logical⟩ := headed (group_ok_iff.1 there) family
      have found := firstMember_ok_iff.2 ⟨group, number, group_ok_iff.1 there, place, stored⟩
      refine .bind_lift fun chosen first => ?_
      obtain rfl := Except.ok.inj ((firstLogical_of_firstMember found logical).symm.trans first)
      refine ofOperator_mirrors fun child member => ?_
      have below : memo.Needs id child := ⟨expr, found, member⟩
      have again : estimateWithin memo catalog id child = estimate memo catalog child :=
        estimateWithin_grown (.refl memo) valid headed (child + 1) (valid.childExists stored member)
          (Nat.lt_succ_self child) (below.lt valid.toLinked)
      exact again ▸ each child below
  intro found known
  cases lookup : found.get? id with
  | some statistics =>
    exact Or.inl ⟨statistics, found, findWithin_of_known lookup, known, (known id statistics lookup).2⟩
  | none =>
    rcases own found known with ⟨statistics, after, done, kept, plain⟩ | ⟨cause, failed, plain⟩
    · refine Or.inl ⟨statistics, after.insert id statistics, ?_,
        kept.insert ⟨relational_of_estimate (plain found), plain⟩, plain⟩
      rw [findWithin_of_unknown lookup, done]
      rfl
    · refine Or.inr ⟨cause, ?_, plain⟩
      rw [findWithin_of_unknown lookup, failed]
      rfl

/-- A descent with enough levels finds the estimate. -/
theorem findWithin_mirrors (levels : Nat) : ∀ {id : GroupId}, id < levels →
    Mirrors (Known memo catalog) (findWithin memo catalog levels id) (estimate memo catalog id) := by
  induction levels with
  | zero => exact fun none => absurd none (Nat.not_lt_zero _)
  | succ levels ih =>
    intro id enough
    refine findWithin_mirrors_succ valid headed fun child below => ih ?_
    exact Nat.lt_of_lt_of_le (below.lt valid.toLinked) (Nat.le_of_lt_succ enough)

/-- **What is found for a group** is the estimate, if what was found before is, and nothing is found if
there is none. -/
theorem find_mirrors (id : GroupId) :
    Mirrors (Known memo catalog) (find memo catalog id) (estimate memo catalog id) := by
  rcases Nat.lt_or_ge id memo.groups.size with inside | outside
  · exact findWithin_mirrors valid headed _ (Nat.lt_succ_of_lt inside)
  · refine findWithin_mirrors_succ valid headed fun child below => ?_
    obtain ⟨expr, found, _⟩ := below
    obtain ⟨group, _, there, _⟩ := firstMember_ok_iff.1 found
    exact absurd (lt_of_group there) (Nat.not_lt_of_le outside)

/-- **What was found before does not matter**, if it was the estimates of groups. -/
theorem ofGroupFrom_eq (known : Known memo catalog found) :
    ofGroupFrom memo catalog found id = ofGroup memo catalog id :=
  ((find_mirrors valid headed id).run' known {}).trans
    ((find_mirrors valid headed id).run' known_empty {}).symm

/-- All statistics that are found together are estimates. -/
theorem ofAll_known : Known memo catalog (ofAll memo catalog) := by
  refine List.foldlRecOn _ _ known_empty fun found known id _ => ?_
  rcases find_mirrors valid headed id found known with
    ⟨statistics, after, done, kept, _⟩ | ⟨cause, failed, _⟩
  · rw [done]
    exact kept
  · rw [failed]
    exact known

end Known

/-- **Growth changes the statistics of no group** that was there. -/
theorem estimated_grown_iff (grows : memo.Grows next) (valid : memo.Valid) (headed : memo.LogicalFirst)
    (inside : id < memo.groups.size) {statistics : Statistics} :
    Estimated next catalog id statistics ↔ Estimated memo catalog id statistics := by
  have family : next.Relational id ↔ memo.Relational id := by
    rw [relational_iff, relational_iff, grows.isScalarGroup_eq inside]
    exact and_congr_left fun _ =>
      iff_of_true (Nat.lt_of_lt_of_le inside grows.size_groups) inside
  unfold Estimated
  rw [family, estimate_grown grows valid headed inside]

/-- What is kept stays the estimates while the memo grows. -/
theorem Known.grow (known : Known memo catalog found) (grows : memo.Grows next) (valid : memo.Valid)
    (headed : memo.LogicalFirst) : Known next catalog found := fun other value lookup =>
  (estimated_grown_iff grows valid headed (known other value lookup).1.inside).2
    (known other value lookup)

end Statistics

/-! ### The search for plans -/

namespace Plan

variable {memo : Memo} {catalog : Catalog} {guard : Guard} {model : CostModel} {id : GroupId}

/-- **What the search for plans looks at** are estimates. -/
theorem statistics_ofMemo_iff (valid : memo.Valid) (laid : memo.Laid) (headed : memo.LogicalFirst)
    {statistics : Statistics} :
    (Setting.ofMemo memo catalog guard model).statistics id = .ok statistics ↔
      Statistics.Estimated memo catalog id statistics := by
  have sound : ∀ {statistics : Statistics},
      (Setting.ofMemo memo catalog guard model).statistics id = .ok statistics →
        Statistics.Estimated memo catalog id statistics := by
    intro statistics given
    obtain ⟨last, done⟩ := run'_eq_ok_iff.1 given
    have known : Statistics.Known memo catalog _ := Statistics.ofAll_known valid headed
    rcases Statistics.find_mirrors valid headed id _ known with ⟨value, _, same, _, plain⟩ | ⟨_, failed, _⟩
    · obtain ⟨rfl, _⟩ := Prod.mk.inj (Except.ok.inj (same.symm.trans done))
      exact ⟨Statistics.relational_of_estimate (plain {}), plain⟩
    · cases failed.symm.trans done
  refine ⟨sound, fun estimated => ?_⟩
  have complete : (Setting.ofMemo memo catalog guard model).Complete :=
    Setting.complete_ofMemo valid.toLinked laid headed
  obtain ⟨other, given⟩ := complete id estimated.1
  obtain ⟨_, same⟩ := sound given
  have equal := (same {}).symm.trans (estimated.2 {})
  obtain ⟨rfl, _⟩ := Prod.mk.inj (Except.ok.inj equal)
  exact given

/-- **What it looks at for a group that was there** while the memo developed is the estimate at first. -/
theorem statistics_developed_iff {next : Memo} {breadth later : GroupId → Breadth}
    (formed : memo.Formed breadth) (develops : memo.Develops breadth next later)
    (inside : id < memo.groups.size) {statistics : Statistics} :
    (Setting.ofMemo next catalog guard model).statistics id = .ok statistics ↔
      Statistics.Estimated memo catalog id statistics := by
  have after := develops.formed
  rw [statistics_ofMemo_iff after.toValid after.laid after.logicalFirst]
  exact Statistics.estimated_grown_iff develops.grows formed.toValid formed.logicalFirst inside

end Plan

end Cascades
