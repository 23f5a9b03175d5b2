/-
**One round.**

A round derives properties, which leaves the memo as it is, lists the trials, finds all proposals on
that memo, and commits one trial after another.

* `commit_cases`: what committing one trial does;
* `commitAll_complete`: all trials are committed if the memo is not full in the end;
* `round_cases`: the ways in which a round can end well.
-/

import Cascades.Proofs.Memo.History
import Cascades.Proofs.Memo.Resolution
import Cascades.Proofs.Property.Reading
import Cascades.Proofs.Search.Candidates

namespace Cascades

/-! ### Marks -/

namespace Memo

variable {memo : Memo} {id other : ExprId} {mark label : Mark}

theorem isMarked_mark :
    (memo.mark id mark).isMarked other label = true ↔
      (other = id ∧ label = mark) ∨ memo.isMarked other label = true := by
  unfold Memo.mark
  by_cases already : memo.isMarked id mark = true
  · rw [if_pos already]
    constructor
    · exact Or.inr
    · rintro (⟨rfl, rfl⟩ | before)
      · exact already
      · exact before
  · rw [if_neg already]
    show ((memo.marks.insert id (mark :: memo.marks.getD id [])).getD other []).contains label =
      true ↔ _
    rw [Std.TreeMap.getD_insert]
    by_cases same : id = other
    · subst same
      rw [if_pos (Std.LawfulEqOrd.compare_eq_iff_eq.2 rfl), List.contains_cons, Bool.or_eq_true,
        beq_iff_eq]
      exact or_congr_left (and_iff_right rfl).symm
    · rw [if_neg fun equal => same (Std.LawfulEqOrd.compare_eq_iff_eq.1 equal)]
      exact (or_iff_right fun both => same both.1.symm).symm

theorem SameMarks.isMarked {next : Memo} (same : memo.SameMarks next) :
    next.isMarked id mark = memo.isMarked id mark := by
  unfold Memo.isMarked
  rw [show next.marks = memo.marks from same]

end Memo

namespace Search

variable {search next final : Search} {trial : Trial}

/-! ### Committing trials -/

/-- A search went on with the proposals of a trial: the expression got its mark and its group the
proposals. -/
def Committed (search : Search) (trial : Trial) (proposals : List Proposal) (added : Nat)
    (next : Search) : Prop :=
  ∃ expr memo, search.context.memo.exprs[trial.1]? = some expr ∧
    (search.context.memo.mark trial.1 trial.2.mark).insertProposals expr.group proposals =
      .ok (added, memo) ∧
    next = { search with
      context := { search.context with memo }
      iterations := search.iterations + 1 }

theorem commit_cases {proposals : List Proposal} {added : Nat}
    (done : search.commit trial proposals = .ok (added, next)) :
    search.Committed trial proposals added next := by
  unfold commit at done
  obtain ⟨⟨count, memo⟩, applied, done⟩ := bind_eq_ok_iff.1 done
  obtain ⟨rfl, rfl⟩ := Prod.mk.inj (pure_eq_ok_iff.1 done)
  unfold Rule.commit at applied
  obtain ⟨expr, stored, inserted⟩ := bind_eq_ok_iff.1 applied
  have there := Memo.expr_ok_iff.1 stored
  rw [Memo.exprs_mark] at there
  exact ⟨expr, memo, there, inserted, rfl⟩

namespace Committed

variable {proposals : List Proposal} {added : Nat}
  (committed : search.Committed trial proposals added next)
include committed

theorem rules_eq : next.rules = search.rules := by
  obtain ⟨_, _, _, _, rfl⟩ := committed
  rfl

theorem config_eq : next.config = search.config := by
  obtain ⟨_, _, _, _, rfl⟩ := committed
  rfl

theorem facts_eq : next.context.facts = search.context.facts := by
  obtain ⟨_, _, _, _, rfl⟩ := committed
  rfl

theorem iterations_eq : next.iterations = search.iterations + 1 := by
  obtain ⟨_, _, _, _, rfl⟩ := committed
  rfl

theorem keeps : search.context.memo.Keeps next.context.memo := by
  obtain ⟨_, _, _, inserted, rfl⟩ := committed
  exact Memo.mark_keeps.trans (Memo.insertProposals_keeps inserted)

theorem isMarked_iff {id : ExprId} {mark : Mark} :
    next.context.memo.isMarked id mark = true ↔
      (id = trial.1 ∧ mark = trial.2.mark) ∨ search.context.memo.isMarked id mark = true := by
  obtain ⟨_, _, _, inserted, rfl⟩ := committed
  rw [(Memo.insertProposals_marks inserted).isMarked]
  exact Memo.isMarked_mark

/-- The proposals add nothing to the memo any more. -/
theorem resolves (valid : search.context.memo.Valid) :
    ∃ expr, search.context.memo.exprs[trial.1]? = some expr ∧
      ∀ proposal ∈ proposals, next.context.memo.Resolved expr.group proposal := by
  obtain ⟨expr, _, stored, inserted, rfl⟩ := committed
  have marked : (search.context.memo.mark trial.1 trial.2.mark).Valid := (Memo.mark_keeps valid).1
  exact ⟨expr, stored, fun _ member => Memo.insertProposals_resolves marked inserted member⟩

/-- A trial that adds no expression leaves its mark only. -/
theorem memo_eq (nothing : added = 0) :
    next.context.memo = search.context.memo.mark trial.1 trial.2.mark := by
  obtain ⟨_, _, _, inserted, rfl⟩ := committed
  rw [nothing] at inserted
  exact Memo.insertProposals_exprs inserted

end Committed

/-- One trial of a round is carried out, unless its proposals were aborted; the others follow,
unless the memo is full. -/
theorem commitAll_cons {added : Nat} {result : Except Abort (List Proposal)}
    {rest : List (Trial × Except Abort (List Proposal))} {outcome : Except Abort Nat}
    (done : commitAll added ((trial, result) :: rest) search = .ok (outcome, final)) :
    (∃ abort, result = .error abort ∧ outcome = .error abort ∧ final = search) ∨
      ∃ proposals more next, result = .ok proposals ∧
        search.Committed trial proposals more next ∧
        ((next.isFull = true ∧ outcome = .ok (added + more) ∧ final = next) ∨
          (next.isFull = false ∧ commitAll (added + more) rest next = .ok (outcome, final))) := by
  rw [commitAll] at done
  rcases Action.bind_eq_ok_iff.1 done with ⟨proposals, _, given, onward⟩ | ⟨abort, failed, same⟩
  swap
  · obtain ⟨given, rfl⟩ := Action.lift_abort_eq_ok_iff.1 failed
    exact Or.inl ⟨abort, given.symm, same, rfl⟩
  obtain ⟨rfl, rfl⟩ := Action.lift_abort_eq_ok_iff.1 given
  obtain ⟨⟨more, next⟩, committed, last⟩ :=
    Action.lift_bind_eq_ok_iff.1 (Action.get_bind_eq_ok_iff.1 onward)
  refine Or.inr ⟨proposals, more, next, rfl, commit_cases committed, ?_⟩
  have last : (if next.isFull then pure (added + more) else commitAll (added + more) rest :
      Action Search Nat) next = .ok (outcome, final) := last
  cases full : next.isFull with
  | true =>
    rw [full] at last
    cases last
    exact Or.inl ⟨rfl, rfl, rfl⟩
  | false =>
    rw [full] at last
    exact Or.inr ⟨rfl, last⟩

/-- What the commit of every trial does to a search, a round does. -/
theorem commitAll_relates {relation : Search → Search → Prop}
    (refl : ∀ search, relation search search)
    (trans : ∀ one two three, relation one two → relation two three → relation one three)
    {results : List (Trial × Except Abort (List Proposal))}
    (each : ∀ trial proposals search added next, (trial, .ok proposals) ∈ results →
      search.Committed trial proposals added next → relation search next)
    {added : Nat} {outcome : Except Abort Nat}
    (done : commitAll added results search = .ok (outcome, final)) : relation search final := by
  induction results generalizing added search with
  | nil =>
    cases done
    exact refl _
  | cons head rest ih =>
    obtain ⟨trial, result⟩ := head
    rcases commitAll_cons done with ⟨_, _, _, rfl⟩ | ⟨proposals, more, next, rfl, committed, ends⟩
    · exact refl final
    · have one := each trial proposals search more next List.mem_cons_self committed
      rcases ends with ⟨_, _, rfl⟩ | ⟨_, done⟩
      · exact one
      · refine trans _ _ _ one (ih ?_ done)
        intro other others before count after member
        exact each other others before count after (List.mem_cons_of_mem _ member)

/-- All trials of a round, carried out one after another, add a number of expressions. -/
inductive CommitsAll : Search → List (Trial × Except Abort (List Proposal)) → Nat → Search → Prop
  | nil {search : Search} : CommitsAll search [] 0 search
  | cons {search next final : Search} {trial : Trial} {proposals : List Proposal} {more added : Nat}
      {rest : List (Trial × Except Abort (List Proposal))} :
      search.Committed trial proposals more next → CommitsAll next rest added final →
        CommitsAll search ((trial, .ok proposals) :: rest) (more + added) final

/-- **If the memo is not full in the end**, every trial was carried out. -/
theorem commitAll_complete {results : List (Trial × Except Abort (List Proposal))}
    {added total : Nat} (done : commitAll added results search = .ok (.ok total, final))
    (room : final.isFull = false) :
    ∃ more, total = added + more ∧ CommitsAll search results more final := by
  induction results generalizing added search with
  | nil =>
    cases done
    exact ⟨0, rfl, .nil⟩
  | cons head rest ih =>
    obtain ⟨trial, result⟩ := head
    rcases commitAll_cons done with ⟨_, _, same, _⟩ | ⟨proposals, more, next, rfl, committed, ends⟩
    · cases same
    · rcases ends with ⟨full, _, rfl⟩ | ⟨_, done⟩
      · rw [room] at full
        cases full
      · obtain ⟨others, rfl, commits⟩ := ih done
        exact ⟨more + others, Nat.add_assoc _ _ _, .cons committed commits⟩

namespace CommitsAll

variable {results : List (Trial × Except Abort (List Proposal))} {added : Nat}
  (commits : CommitsAll search results added final)
include commits

theorem rules_eq : final.rules = search.rules := by
  induction commits with
  | nil => rfl
  | cons committed _ ih => exact ih.trans committed.rules_eq

theorem config_eq : final.config = search.config := by
  induction commits with
  | nil => rfl
  | cons committed _ ih => exact ih.trans committed.config_eq

theorem facts_eq : final.context.facts = search.context.facts := by
  induction commits with
  | nil => rfl
  | cons committed _ ih => exact ih.trans committed.facts_eq

theorem iterations_eq : final.iterations = search.iterations + results.length := by
  induction commits with
  | nil => rfl
  | cons committed _ ih =>
    rw [ih, committed.iterations_eq, List.length_cons]
    omega

theorem isMarked_of_isMarked {id : ExprId} {mark : Mark}
    (before : search.context.memo.isMarked id mark = true) :
    final.context.memo.isMarked id mark = true := by
  induction commits with
  | nil => exact before
  | cons committed _ ih => exact ih (committed.isMarked_iff.2 (Or.inr before))

/-- Every trial leaves its mark. -/
theorem isMarked (member : trial ∈ results.map Prod.fst) :
    final.context.memo.isMarked trial.1 trial.2.mark = true := by
  induction commits with
  | nil => cases member
  | cons committed rest ih =>
    rcases List.mem_cons.1 member with rfl | member
    · exact rest.isMarked_of_isMarked (committed.isMarked_iff.2 (Or.inl ⟨rfl, rfl⟩))
    · exact ih member

/-- Trials that add nothing leave groups and expressions as they are. -/
theorem same_of_nothing (nothing : added = 0) :
    final.context.memo.groups = search.context.memo.groups ∧
      final.context.memo.exprs = search.context.memo.exprs := by
  induction commits with
  | nil => exact ⟨rfl, rfl⟩
  | cons committed _ ih =>
    obtain ⟨none, rest⟩ := Nat.add_eq_zero_iff.1 nothing
    obtain ⟨groups, exprs⟩ := ih rest
    rw [groups, exprs, committed.memo_eq none, Memo.groups_mark, Memo.exprs_mark]
    exact ⟨rfl, rfl⟩

end CommitsAll

/-! ### Rounds -/

theorem onContext_deriveAll {derived : Search} {outcome : Except Abort PUnit}
    (done : onContext Context.deriveAll search = .ok (outcome, derived)) :
    ∃ context, search.context.SameMemo context ∧ derived = { search with context } := by
  obtain ⟨context, derives, rfl⟩ := Action.onPart_eq_ok_iff.1 done
  exact ⟨context, Context.deriveAll_sameMemo _ _ _ derives, rfl⟩

variable {kind : RuleKind} {root : GroupId}

/-- **A round** aborts before it has trials, has none, or carries them out, as many as the limit on
applications allows. Another round may follow if that limit was not reached, the memo is not full,
and something was added. -/
theorem round_cases {outcome : Except Abort Bool}
    (done : round kind root search = .ok (outcome, final)) :
    (∃ abort, outcome = .error abort ∧
        (final = search ∨ onContext Context.deriveAll search = .ok (.error abort, final))) ∨
      ∃ derived trials, onContext Context.deriveAll search = .ok (.ok ⟨⟩, derived) ∧
        derived.trials kind root = .ok trials ∧
        ((trials = [] ∧ outcome = .ok false ∧ final = derived) ∨
          ∃ results count, trials ≠ [] ∧
            (trials.take (derived.config.maxIterations - derived.iterations)).mapM
              (proposalsOf derived.context) = .ok results ∧
            commitAll 0 results derived = .ok (count, final) ∧
            outcome = count.map fun added =>
              !(!results.isEmpty && final.isFull) &&
                trials.length < derived.config.maxIterations - derived.iterations &&
                added != 0) := by
  unfold round at done
  rcases Action.bind_eq_ok_iff.1 (Action.get_bind_eq_ok_iff.1 done) with
    ⟨_, _, passed, third⟩ | ⟨abort, failed, same⟩
  swap
  · exact Or.inl ⟨abort, same, Or.inl (Action.lift_abort_eq_ok_iff.1 failed).2⟩
  obtain ⟨_, rfl⟩ := Action.lift_abort_eq_ok_iff.1 passed
  rcases Action.bind_eq_ok_iff.1 third with ⟨_, derived, derives, fourth⟩ | ⟨abort, failed, same⟩
  swap
  · exact Or.inl ⟨abort, same, Or.inr failed⟩
  obtain ⟨trials, tried, fifth⟩ :=
    Action.lift_bind_eq_ok_iff.1 (Action.get_bind_eq_ok_iff.1 fourth)
  refine Or.inr ⟨_, trials, derives, tried, ?_⟩
  cases trials with
  | nil =>
    cases fifth
    exact Or.inl ⟨rfl, rfl, rfl⟩
  | cons trial rest =>
    refine Or.inr ?_
    obtain ⟨results, proposed, sixth⟩ := Action.lift_bind_eq_ok_iff.1 fifth
    rcases Action.bind_eq_ok_iff.1 sixth with ⟨added, _, commits, last⟩ | ⟨abort, failed, same⟩
    · cases last
      exact ⟨results, .ok added, List.cons_ne_nil trial rest, proposed, commits, rfl⟩
    · exact ⟨results, .error abort, List.cons_ne_nil trial rest, proposed, failed, same⟩

/-- Rounds that are not stopped end with the first one, or others follow it. -/
theorem rounds_cases {fuel : Nat} (done : rounds kind root (fuel + 1) search = .ok (.ok ⟨⟩, final)) :
    round kind root search = .ok (.ok false, final) ∨
      ∃ next, round kind root search = .ok (.ok true, next) ∧
        rounds kind root fuel next = .ok (.ok ⟨⟩, final) := by
  rw [rounds] at done
  rcases Action.bind_eq_ok_iff.1 done with ⟨more, next, one, others⟩ | ⟨_, _, same⟩
  swap
  · cases same
  cases more with
  | false =>
    cases others
    exact Or.inl one
  | true => exact Or.inr ⟨next, one, others⟩

/-- A phase has a first round. -/
theorem phase_cases (done : phase kind root search = .ok (.ok ⟨⟩, final)) :
    round kind root search = .ok (.ok false, final) ∨
      ∃ next, round kind root search = .ok (.ok true, next) ∧
        rounds kind root (search.config.maxIterations - search.iterations) next =
          .ok (.ok ⟨⟩, final) :=
  rounds_cases done

end Search

end Cascades
