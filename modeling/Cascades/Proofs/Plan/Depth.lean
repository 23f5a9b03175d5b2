/-
**The search for plans ends.**

The search goes on below a group only if that is relational and not on the path above, so it is never
deeper than there are relational groups, also where groups use themselves. The statistics it looks at
follow from first members, whose children are older, and their derivation ends as well.

* `Memo.relationalGroups`: the relational groups; a path without repetitions is no longer;
* `Statistics.estimateWithin_runs`, `statistics_ofMemo_ends`: statistics end, and only relational
  groups have any;
* `cheapestWithin_ends`: the search ends, without an abort if the guard lets it go deep enough;
* `cheapestWithin_eq_of_fits`: what the guard permits beyond that does not matter.
-/

import Cascades.Proofs.Estimate
import Mathlib.Data.List.Perm.Subperm

namespace Cascades

/-! ### Relational groups -/

namespace Memo

variable {memo : Memo} {id : GroupId}

/-- The relational groups of a memo. -/
def relationalGroups (memo : Memo) : List GroupId :=
  (List.range memo.groups.size).filter fun id => !memo.isScalarGroup id

theorem mem_relationalGroups_iff : id ∈ memo.relationalGroups ↔ memo.Relational id := by
  rw [relationalGroups, List.mem_filter, List.mem_range, relational_iff, Bool.not_eq_true']

/-- Relational groups without a repetition are not more than there are. -/
theorem length_le_relationalGroups {path : List GroupId} (distinct : path.Nodup)
    (relational : ∀ id ∈ path, memo.Relational id) :
    path.length ≤ memo.relationalGroups.length :=
  (List.subperm_of_subset distinct fun id member =>
    mem_relationalGroups_iff.2 (relational id member)).length_le

end Memo

/-! ### Statistics -/

/-- Any fault but a derivation that does not end. -/
def Fault.Final (cause : Fault) : Prop := ∀ id, cause ≠ .endlessDerivation id

theorem Memo.group_ends {memo : Memo} {id : GroupId} :
    Ends Fault.Final (memo.group id) fun _ => True := by
  unfold Memo.group
  split
  · exact Ends.pure trivial
  · exact Ends.throw nofun

theorem Memo.expr_ends {memo : Memo} {id : ExprId} :
    Ends Fault.Final (memo.expr id) fun _ => True := by
  unfold Memo.expr
  split
  · exact Ends.pure trivial
  · exact Ends.throw nofun

theorem Expr.child_ends {expr : Expr} {position : Nat} :
    Ends Fault.Final (expr.child position) (· ∈ expr.children) := by
  unfold Expr.child
  split
  · rename_i there
    exact Ends.pure (List.mem_of_getElem? there)
  · exact Ends.throw nofun

theorem Expr.lastChild_ends {expr : Expr} :
    Ends Fault.Final expr.lastChild (· ∈ expr.children) := by
  have before : Ends Fault.Final (Count.sub expr.arity 1) fun _ => True := by
    unfold Count.sub
    split
    · exact Ends.pure trivial
    · exact Ends.throw nofun
  exact Ends.bind before fun _ _ => child_ends

theorem Memo.equalColumns?_ends {memo : Memo} {id : GroupId} :
    Ends Fault.Final (memo.equalColumns? id) fun _ => True := by
  refine Ends.bind Memo.group_ends fun _ _ => ?_
  split
  · split
    · split
      · split
        · split
          · exact Ends.pure trivial
          · exact Ends.pure trivial
        · exact Ends.throw nofun
      · exact Ends.pure trivial
    · exact Ends.throw nofun
  · exact Ends.pure trivial

namespace Statistics

variable {memo : Memo} {catalog : Catalog} {id : GroupId} {input : Statistics}

theorem conjunctSelectivity_final :
    Ends Fault.Final (conjunctSelectivity memo input id) fun _ => True := by
  unfold conjunctSelectivity
  split
  · refine Ends.ite (Ends.pure trivial) ?_
    split
    · split
      · split
        · refine Ends.ite (Ends.pure trivial) (Ends.bind Memo.equalColumns?_ends fun found _ => ?_)
          split
          · exact Ends.pure trivial
          · exact Ends.pure trivial
        · exact Ends.pure trivial
        · exact Ends.pure trivial
      · exact Ends.throw nofun
    · exact Ends.throw nofun
  · exact Ends.pure trivial

theorem selectivity_final : Ends Fault.Final (selectivity memo input id) fun _ => True := by
  refine Ends.bind Memo.group_ends fun _ _ => Ends.foldlM (fun conjunct _ share _ => ?_) trivial
  exact conjunctSelectivity_final.returns

theorem equalPairs_final {left right : Statistics} {conjuncts : List GroupId} :
    Ends Fault.Final (equalPairs memo left right conjuncts) fun _ => True := by
  have all : Ends Fault.Final (memo.equalities conjuncts) fun _ => True :=
    (Ends.mapM fun _ _ => Memo.equalColumns?_ends).returns
  exact all.returns

/-- An operator over inputs whose statistics end. -/
theorem ofOperator_final {input : GroupId → Finding Statistics} {expr : Expr}
    (each : ∀ child ∈ expr.children, Total Fault.Final (input child)) {operator : LogicalOp} :
    Total Fault.Final (ofOperator memo catalog input expr operator) := by
  have child : ∀ position, Runs Fault.Final (fun _ : Found => True)
      (StateT.lift (expr.child position)) (· ∈ expr.children) :=
    fun _ => Runs.lift Expr.child_ends
  cases operator with
  | get table columns => exact Runs.pure trivial
  | select =>
    refine Runs.bind (child 0) fun source inside => Runs.bind (each source inside) fun rows _ => ?_
    refine Runs.bind (child 1) fun predicate _ => ?_
    exact Runs.bind (Runs.lift selectivity_final) fun _ _ => Runs.pure trivial
  | project => exact Runs.bind (child 0) each
  | limit offset count =>
    refine Runs.bind (child 0) fun source inside => ?_
    exact Runs.bind (each source inside) fun _ _ => Runs.pure trivial
  | aggregate keys =>
    refine Runs.bind (child 0) fun source inside => ?_
    exact Runs.bind (each source inside) fun _ _ => Runs.pure trivial
  | join type =>
    refine Runs.bind (child 0) fun left inside => Runs.bind (each left inside) fun leftRows _ => ?_
    refine Runs.bind (child 1) fun right within => Runs.bind (each right within) fun rightRows _ => ?_
    refine Runs.bind (child 2) fun predicate _ => ?_
    exact Runs.bind (Runs.lift equalPairs_final) fun _ _ => Runs.pure trivial
  | naryJoin =>
    refine Runs.bind (Runs.lift Expr.lastChild_ends) fun predicate _ => ?_
    refine Runs.bind (child 0) fun first inside => Runs.bind (each first inside) fun rows _ => ?_
    refine Runs.foldlM (fun _ _ => True) [] (fun next member _ joined _ => ?_) trivial
    have within : next ∈ expr.children := List.dropLast_subset _ (List.mem_of_mem_tail member)
    refine Runs.bind (each next within) fun nextRows _ => ?_
    exact Runs.bind (Runs.lift equalPairs_final) fun _ _ => Runs.pure trivial

/-- **The statistics of a group end**: each level goes down to older groups. -/
theorem estimateWithin_runs (valid : memo.Valid) (headed : memo.LogicalFirst) (levels : Nat) :
    ∀ {id : GroupId}, id < levels → Total Fault.Final (estimateWithin memo catalog levels id) := by
  induction levels with
  | zero => exact fun none => absurd none (Nat.not_lt_zero _)
  | succ levels ih =>
    intro id enough
    unfold estimateWithin ofMembers
    cases there : memo.groups[id]? with
    | none =>
      have missing : memo.group id = .error (.groupMissing id memo.groups.size) := by
        rw [Memo.group, there]
      rw [missing]
      have may : Fault.Final (.groupMissing id memo.groups.size) := fun _ same => by cases same
      exact Runs.bind (Runs.lift (Ends.throw may)) fun _ (none : False) => none.elim
    | some group =>
      refine Runs.bind_ok (Memo.group_ok_iff.2 there) ?_
      cases family : group.isScalar with
      | true => exact Runs.throw fun _ same => by cases same
      | false =>
        obtain ⟨number, expr, operator, found, _, _, _, older⟩ :=
          headed.firstLogical valid.toLinked ⟨group, there, family⟩
        refine Runs.bind_ok found (ofOperator_final fun child member => ih ?_)
        exact Nat.lt_of_lt_of_le (older child member) (Nat.le_of_lt_succ enough)

end Statistics

namespace Plan

variable {memo : Memo} {catalog : Catalog} {guard : Guard} {model : CostModel} {id : GroupId}

/-- **What the search for plans looks at** ends, whatever statistics are kept, and only relational
groups have statistics. -/
theorem statistics_ofMemo_ends (valid : memo.Valid) (headed : memo.LogicalFirst) :
    Ends Fault.Final ((Setting.ofMemo memo catalog guard model).statistics id)
      fun _ => memo.Relational id := by
  have same : (Setting.ofMemo memo catalog guard model).statistics id =
      (Statistics.estimate memo catalog id).run' {} :=
    (Statistics.find_mirrors valid headed id).run' (Statistics.ofAll_known valid headed) {}
  rw [same]
  have ends : Ends Fault.Final ((Statistics.estimate memo catalog id).run' {}) fun _ => True :=
    Runs.run' (Statistics.estimateWithin_runs valid headed (id + 1) (Nat.lt_succ_self id)) trivial
  refine ends.of_all fun statistics given => ?_
  obtain ⟨after, done⟩ := run'_eq_ok_iff.1 given
  exact Statistics.relational_of_estimate done

/-! ### Depth -/

variable {setting other : Setting} {path : List GroupId} {room more : Nat}

/-- The statistics that a search looks at end, and only relational groups have any. -/
def Setting.Sound (setting : Setting) : Prop :=
  ∀ id, Ends Fault.Final (setting.statistics id) fun _ => setting.memo.Relational id

/-- **The levels that are left suffice** below a path: with the path they are more than there are
relational groups. -/
structure Fits (setting : Setting) (path : List GroupId) (room : Nat) : Prop where
  running : setting.guard.cancelled = false
  distinct : path.Nodup
  relational : ∀ id ∈ path, setting.memo.Relational id
  enough : setting.memo.relationalGroups.length < path.length + room

theorem Fits.room_ne_zero (fits : Fits setting path room) : room ≠ 0 := by
  rintro rfl
  exact absurd fits.enough (Nat.not_lt_of_le (Memo.length_le_relationalGroups fits.distinct
    fits.relational))

/-- One level down, below another relational group. -/
theorem Fits.below (fits : Fits setting path (room + 1)) (new : ¬ path.contains id = true)
    (relational : setting.memo.Relational id) : Fits setting (id :: path) room where
  running := fits.running
  distinct := List.nodup_cons.2 ⟨fun again => new (List.contains_iff_mem.2 again), fits.distinct⟩
  relational := List.forall_mem_cons.2 ⟨relational, fits.relational⟩
  enough := by
    have enough := fits.enough
    rw [List.length_cons]
    omega

/-- Failures of a search: aborts under a condition, and faults but for a derivation that does not
end. -/
def Fails (aborts : Prop) : Failure → Prop
  | .abort _ => aborts
  | .fault cause => cause.Final

theorem fails_of_final {aborts : Prop} {α : Type} {computation : Except Fault α} {gives : α → Prop}
    (ends : Ends Fault.Final computation gives) :
    Ends (Fails aborts) (liftM computation : Except Failure α) gives := by
  cases computation with
  | ok value => exact ends
  | error cause => exact ends

/-- **The search ends**, with an abort only if the levels that are left may not suffice. -/
theorem cheapestWithin_ends (sound : setting.Sound) {aborts : Prop} (room : Nat) :
    ∀ path id, (aborts ∨ Fits setting path room) →
      Runs (Fails aborts) (fun _ => True) (cheapestWithin setting room path id) fun _ => True := by
  induction room with
  | zero =>
    intro path id either
    refine Runs.throw (either.resolve_right fun fits => fits.room_ne_zero rfl)
  | succ room ih =>
    intro path id either
    unfold cheapestWithin
    by_cases cancelled : setting.guard.cancelled = true
    · have may : aborts := either.resolve_right fun fits => by
        rw [fits.running] at cancelled
        cases cancelled
      simp only [if_pos cancelled]
      exact Runs.bind (Runs.throw may) fun _ (none : False) => none.elim
    simp only [if_neg cancelled]
    refine Runs.bind Runs.get fun settled _ => ?_
    split
    · exact Runs.pure trivial
    by_cases met : path.contains id = true
    · rw [if_pos met]
      exact Runs.pure trivial
    rw [if_neg met]
    refine Runs.bind (Runs.lift (fails_of_final (sound id))) fun output relational => ?_
    refine Runs.bind (Runs.lift (fails_of_final Memo.group_ends)) fun group _ => ?_
    refine Runs.bind (Runs.foldlM (fun _ _ => True) [] ?_ trivial) fun best _ => ?_
    · intro member _ _ best _
      refine Runs.bind (Runs.lift (fails_of_final Memo.expr_ends)) fun expr _ => ?_
      split
      · have each : ∀ child ∈ setting.memo.relationalChildren expr,
            Runs (Fails aborts) (fun _ => True)
              (cheapestWithin setting room (id :: path) child) fun _ => True :=
          fun child _ => ih _ _ (either.imp_right fun fits => fits.below met relational)
        refine Runs.bind (Runs.mapM_option each) fun inputs _ => ?_
        cases inputs with
        | none => exact Runs.pure trivial
        | some inputs =>
          have statistics : Ends Fault.Final (inputs.mapM fun input => setting.statistics input.group)
              fun _ => True := (Ends.mapM fun input _ => sound input.group).mono fun _ _ => trivial
          exact Runs.bind (Runs.lift (fails_of_final statistics.returns)) fun _ _ => Runs.pure trivial
      · exact Runs.pure trivial
    · exact Runs.bind (Runs.modify fun _ _ => trivial) fun _ _ => Runs.pure trivial

/-- The setting with another guard. -/
def Setting.under (setting : Setting) (guard : Guard) : Setting := { setting with guard }

/-- **What a guard permits beyond the levels that suffice does not matter.** -/
theorem cheapestWithin_eq_of_fits (sound : setting.Sound) (room : Nat) :
    ∀ more path id, Fits setting path room → Fits (setting.under guard) path more →
      cheapestWithin (setting.under guard) more path id = cheapestWithin setting room path id := by
  induction room with
  | zero => exact fun _ _ _ fits _ => absurd rfl fits.room_ne_zero
  | succ room ih =>
    intro more path id fits fitsToo
    obtain ⟨more, rfl⟩ := Nat.exists_eq_succ_of_ne_zero fitsToo.room_ne_zero
    have running : ¬ setting.guard.cancelled = true := by rw [fits.running]; exact Bool.false_ne_true
    have runningToo : ¬ (setting.under guard).guard.cancelled = true := by
      rw [fitsToo.running]
      exact Bool.false_ne_true
    unfold cheapestWithin
    simp only [if_neg running, if_neg runningToo]
    refine congrArg (bind get) (funext fun settled => ?_)
    split
    · rfl
    by_cases met : path.contains id = true
    · rw [if_pos met, if_pos met]
    rw [if_neg met, if_neg met]
    refine bind_lift_congr fun output given => ?_
    have relational : setting.memo.Relational id := by
      have known : setting.statistics id = .ok output := lift_fault_eq_ok_iff.1 given
      have ends := sound id
      rw [known] at ends
      exact ends
    refine congrArg _ (funext fun group => ?_)
    refine congrArg (· >>= _) (foldlM_congr fun member _ best => ?_)
    refine congrArg _ (funext fun expr => ?_)
    split
    · refine congrArg (· >>= _) (congrArg OptionT.run (mapM_congr fun child _ => ?_))
      exact congrArg OptionT.mk (ih more _ child (fits.below met relational)
        (fitsToo.below met relational))
    · rfl

end Plan

end Cascades
