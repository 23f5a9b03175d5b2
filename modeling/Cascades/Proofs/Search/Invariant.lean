/-
**Invariants of a run.**

A run derives properties and inserts what its rules propose. The proposals of a round are found at
its start and inserted one trial after another, while the memo grows. So what both keep holds at the
end of a run if it holds at its start.

* `Search.Maintains`: what deriving and inserting keep;
* `Search.Reached.maintains`: the invariant of a run.
-/

import Cascades.Proofs.Meaning.Query

namespace Cascades.Search

open Memo

variable {V : Type} {I : Interpretation V} {rules : List Rule} {holds : Context → Prop}
  {search next final start : Search} {kind : RuleKind} {root : GroupId}

/-- Deriving properties keeps an invariant, and so does inserting what a rule proposed earlier. The
limits do not matter. -/
structure Maintains (I : Interpretation V) (rules : List Rule) (holds : Context → Prop) : Prop where
  derives : ∀ {context after : Context} {outcome : Except Abort PUnit}, context.Coherent I →
    holds context → Context.deriveAll context = .ok (outcome, after) → holds after
  inserts : ∀ {early context : Context} {rule : Rule} {id : ExprId} {expr : Expr}
    {proposals : List Proposal} {count : Nat} {memo : Memo}, rule ∈ rules →
      early.Coherent I → holds early → early.memo.exprs[id]? = some expr →
      rule.proposals early id = .ok proposals →
      context.Coherent I → holds context → early.memo.Grows context.memo →
      (context.memo.mark id rule.mark).insertProposals expr.group proposals = .ok (count, memo) →
      ({ context with memo } : Context).Coherent I → holds { context with memo }
  guards : ∀ {context : Context} (guard : Guard), holds context → holds { context with guard }

/-- A search after another one that satisfies an invariant. -/
structure Holding (I : Interpretation V) (holds : Context → Prop) (search next : Search) : Prop
    extends Refines I search next where
  invariant : holds next.context

theorem commitAll_maintains (maintains : Maintains I rules holds) (same : start.rules = rules)
    (coherent : start.context.Coherent I) (first : holds start.context)
    (faithful : ∀ rule ∈ rules, rule.Faithful I) {trials : List Trial}
    (listed : start.trials kind root = .ok trials) {limit : Nat}
    {results : List (Trial × Except Abort (List Proposal))}
    (proposed : (trials.take limit).mapM (proposalsOf start.context) = .ok results) {added : Nat}
    {outcome : Except Abort Nat} (done : commitAll added results start = .ok (outcome, final)) :
    Holding I holds start final := by
  let onward : Search → Search → Prop := fun one two =>
    Holding I holds start one → Holding I holds start two
  have refl : ∀ one, onward one one := fun _ => id
  have trans : ∀ one two three, onward one two → onward two three → onward one three :=
    fun _ _ _ early late reached => late (early reached)
  have each : ∀ trial proposals one count two, (trial, .ok proposals) ∈ results →
      one.Committed trial proposals count two → onward one two := by
    intro trial proposals one count two member committed reached
    obtain ⟨other, tried, given⟩ := (mem_mapM_iff proposed).1 member
    obtain ⟨rfl, found⟩ := proposalsOf_eq_ok given
    obtain ⟨_, rule, eligible, _⟩ := (mem_trials_iff listed).1 (List.mem_of_mem_take tried)
    obtain ⟨expr, there, _⟩ := eligible.root
    obtain ⟨group, place, _⟩ := coherent.sound.placed there
    have valid := reached.coherent.sound.toValid
    have refines : Refines I one two := by
      refine committed.refines reached.coherent fun again stored proposal among => ?_
      obtain rfl : expr = again := Option.some.inj ((reached.grows.exprs there).symm.trans stored)
      have means := Rule.proposals_mean (faithful _ (same ▸ rule)) coherent there found proposal among
      rw [reached.grows.sense_eq coherent.sound.toValid valid (lt_of_group place)]
      exact Means.mono reached.grows coherent.sound.toValid valid proposal means
    refine ⟨reached.toRefines.trans refines, ?_⟩
    obtain ⟨again, memo, stored, inserted, rfl⟩ := committed
    obtain rfl : expr = again := Option.some.inj ((reached.grows.exprs there).symm.trans stored)
    exact maintains.inserts (same ▸ rule) coherent first there found reached.coherent
      reached.invariant reached.grows inserted refines.coherent
  exact commitAll_relates refl trans each done ⟨.refl coherent, first⟩

theorem deriveAll_maintains (maintains : Maintains I rules holds)
    (coherent : search.context.Coherent I) (first : holds search.context)
    {outcome : Except Abort PUnit}
    (done : onContext Context.deriveAll search = .ok (outcome, final)) :
    Holding I holds search final := by
  refine ⟨onContext_deriveAll_refines coherent done, ?_⟩
  obtain ⟨context, derives, rfl⟩ := Action.onPart_eq_ok_iff.1 done
  exact maintains.derives coherent first derives

theorem round_maintains (maintains : Maintains I rules holds) (same : search.rules = rules)
    (coherent : search.context.Coherent I) (first : holds search.context)
    (faithful : ∀ rule ∈ rules, rule.Faithful I) {outcome : Except Abort Bool}
    (done : round kind root search = .ok (outcome, final)) : Holding I holds search final := by
  rcases round_cases done with ⟨_, _, rfl | derives⟩ |
    ⟨derived, trials, derives, listed, ⟨_, _, rfl⟩ | ⟨results, count, _, proposed, commits, _⟩⟩
  · exact ⟨.refl coherent, first⟩
  · exact deriveAll_maintains maintains coherent first derives
  · exact deriveAll_maintains maintains coherent first derives
  · have middle := deriveAll_maintains maintains coherent first derives
    have last := commitAll_maintains maintains (middle.rules_eq.trans same) middle.coherent
      middle.invariant faithful listed proposed commits
    exact ⟨middle.toRefines.trans last.toRefines, last.invariant⟩

theorem rounds_maintains (maintains : Maintains I rules holds) (same : search.rules = rules)
    (coherent : search.context.Coherent I) (first : holds search.context)
    (faithful : ∀ rule ∈ rules, rule.Faithful I) {fuel : Nat} {outcome : Except Abort PUnit}
    (done : rounds kind root fuel search = .ok (outcome, final)) : Holding I holds search final := by
  induction fuel generalizing search with
  | zero =>
    cases done
    exact ⟨.refl coherent, first⟩
  | succ fuel ih =>
    unfold rounds at done
    rcases Action.bind_eq_ok_iff.1 done with ⟨again, middle, one, others⟩ | ⟨_, stopped, _⟩
    · have early := round_maintains maintains same coherent first faithful one
      by_cases more : again = true
      · rw [if_pos more] at others
        have late := ih (early.rules_eq.trans same) early.coherent early.invariant others
        exact ⟨early.toRefines.trans late.toRefines, late.invariant⟩
      · rw [if_neg more] at others
        cases others
        exact early
    · exact round_maintains maintains same coherent first faithful stopped

/-- **A run keeps what deriving and inserting keep.** -/
theorem Reached.maintains (reached : Reached start final) (maintains : Maintains I start.rules holds)
    (coherent : start.context.Coherent I) (first : holds start.context)
    (faithful : ∀ rule ∈ start.rules, rule.Faithful I) : Holding I holds start final := by
  induction reached with
  | start => exact ⟨.refl coherent, first⟩
  | rounds _ done ih =>
    have last := rounds_maintains maintains ih.rules_eq ih.coherent ih.invariant faithful done
    exact ⟨ih.toRefines.trans last.toRefines, last.invariant⟩
  | limits _ guard _ ih =>
    exact ⟨⟨⟨ih.coherent.sound, ih.coherent.scalar, ih.coherent.relational⟩, ih.grows, ih.rules_eq⟩,
      maintains.guards guard ih.invariant⟩

end Cascades.Search
