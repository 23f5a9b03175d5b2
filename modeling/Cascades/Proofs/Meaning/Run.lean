/-
**Runs keep the meaning.**

What a search inserts means what the group means that it goes to, so groups keep their meaning in
every run. The proposals of a round are found on the memo at its start and still mean the same when
the last of them are inserted.

* `Rule.proposals_mean`: what a faithful rule proposes for an expression;
* `Search.Refines`: a coherent search after another one, with a memo that grew;
* `Search.round_refines`, `Search.rounds_refines`: rounds with faithful rules.
-/

import Cascades.Proofs.Meaning.Implementation
import Cascades.Proofs.Search.Round

namespace Cascades

open Memo Interpretation

variable {V : Type} {I : Interpretation V}

/-- **What a faithful rule proposes** for an expression means what the group of the expression
means. -/
theorem Rule.proposals_mean {rule : Rule} (faithful : rule.Faithful I) {context : Context}
    (coherent : context.Coherent I) {id : ExprId} {expr : Expr}
    (stored : context.memo.exprs[id]? = some expr) {proposals : List Proposal}
    (done : rule.proposals context id = .ok proposals) :
    ∀ proposal ∈ proposals, Means I context.memo proposal (context.memo.sense I expr.group) := by
  intro proposal member
  obtain ⟨binding, alternatives, drawn, same, transformed, inside⟩ :=
    Rule.exists_of_proposals coherent.sound.toValid stored done member
  exact same ▸ faithful coherent drawn transformed proposal inside

namespace Search

variable {search next final : Search} {trial : Trial} {kind : RuleKind} {root : GroupId}

/-- A coherent search with the rules of another one and with a memo that grew from it. -/
structure Refines (I : Interpretation V) (search next : Search) : Prop where
  coherent : next.context.Coherent I
  grows : search.context.memo.Grows next.context.memo
  rules_eq : next.rules = search.rules

theorem Refines.refl (coherent : search.context.Coherent I) : Refines I search search :=
  ⟨coherent, .refl _, rfl⟩

theorem Refines.trans (first : Refines I search next) (second : Refines I next final) :
    Refines I search final :=
  ⟨second.coherent, first.grows.trans second.grows, second.rules_eq.trans first.rules_eq⟩

/-- Committing a trial whose proposals mean what the group of its expression means. -/
theorem Committed.refines {proposals : List Proposal} {added : Nat}
    (committed : search.Committed trial proposals added next)
    (coherent : search.context.Coherent I)
    (means : ∀ expr, search.context.memo.exprs[trial.1]? = some expr → ∀ proposal ∈ proposals,
      Means I search.context.memo proposal (search.context.memo.sense I expr.group)) :
    Refines I search next := by
  obtain ⟨expr, memo, stored, inserted, rfl⟩ := committed
  obtain ⟨group, there, _⟩ := coherent.sound.placed stored
  have inside := lt_of_group there
  have marked : (search.context.memo.mark trial.1 trial.2.mark).Sound I :=
    mark_sound coherent.sound
  have keeps : search.context.memo.Keeps (search.context.memo.mark trial.1 trial.2.mark) := mark_keeps
  obtain ⟨valid, noted⟩ := keeps coherent.sound.toValid
  have later : ∀ proposal ∈ proposals, Means I (search.context.memo.mark trial.1 trial.2.mark)
      proposal ((search.context.memo.mark trial.1 trial.2.mark).sense I expr.group) := by
    intro proposal member
    rw [noted.sense_eq coherent.sound.toValid valid inside]
    exact Means.mono noted coherent.sound.toValid valid proposal (means expr stored proposal member)
  obtain ⟨sound, grows⟩ := insertProposals_sound marked
    (Nat.lt_of_lt_of_le inside noted.size_groups) later inserted
  exact ⟨coherent.grow sound (noted.trans grows), noted.trans grows, rfl⟩

theorem onContext_deriveAll_refines {derived : Search} {outcome : Except Abort PUnit}
    (coherent : search.context.Coherent I)
    (done : onContext Context.deriveAll search = .ok (outcome, derived)) :
    Refines I search derived := by
  obtain ⟨context, derives, rfl⟩ := Action.onPart_eq_ok_iff.1 done
  obtain ⟨later, same⟩ := Context.deriveAll_coherent coherent derives
  refine ⟨later, ?_, rfl⟩
  show search.context.memo.Grows context.memo
  rw [same]
  exact .refl _

theorem proposalsOf_eq_ok {context : Context} {trial other : Trial} {proposals : List Proposal}
    (done : proposalsOf context trial = .ok (other, .ok proposals)) :
    other = trial ∧ trial.2.proposals context trial.1 = .ok proposals := by
  unfold proposalsOf at done
  split at done
  · rename_i found given
    cases done
    exact ⟨rfl, given⟩
  · cases done
  · cases done

/-- Trials of a round, whose proposals were found on the memo at its start. -/
theorem commitAll_refines {start : Search} (coherent : start.context.Coherent I)
    (faithful : ∀ rule ∈ start.rules, rule.Faithful I) {trials : List Trial}
    (listed : start.trials kind root = .ok trials) {limit : Nat}
    {results : List (Trial × Except Abort (List Proposal))}
    (proposed : (trials.take limit).mapM (proposalsOf start.context) = .ok results) {added : Nat}
    {outcome : Except Abort Nat} (done : commitAll added results start = .ok (outcome, final)) :
    Refines I start final := by
  let onward : Search → Search → Prop := fun one two => Refines I start one → Refines I start two
  have refl : ∀ one, onward one one := fun _ => id
  have trans : ∀ one two three, onward one two → onward two three → onward one three :=
    fun _ _ _ first second reached => second (first reached)
  have each : ∀ trial proposals one count two, (trial, .ok proposals) ∈ results →
      one.Committed trial proposals count two → onward one two := by
    intro trial proposals one count two member committed reached
    refine reached.trans (committed.refines reached.coherent fun expr stored proposal among => ?_)
    obtain ⟨other, tried, given⟩ := (mem_mapM_iff proposed).1 member
    obtain ⟨rfl, found⟩ := proposalsOf_eq_ok given
    obtain ⟨_, rule, eligible, _⟩ := (mem_trials_iff listed).1 (List.mem_of_mem_take tried)
    obtain ⟨first, there, _⟩ := eligible.root
    obtain rfl : first = expr := Option.some.inj ((reached.grows.exprs there).symm.trans stored)
    obtain ⟨group, place, _⟩ := coherent.sound.placed there
    have means := Rule.proposals_mean (faithful _ rule) coherent there found proposal among
    have valid := reached.coherent.sound.toValid
    rw [reached.grows.sense_eq coherent.sound.toValid valid (lt_of_group place)]
    exact Means.mono reached.grows coherent.sound.toValid valid proposal means
  exact commitAll_relates refl trans each done (.refl coherent)

/-- **A round with faithful rules keeps the meaning.** -/
theorem round_refines (coherent : search.context.Coherent I)
    (faithful : ∀ rule ∈ search.rules, rule.Faithful I) {outcome : Except Abort Bool}
    (done : round kind root search = .ok (outcome, final)) : Refines I search final := by
  rcases round_cases done with ⟨_, _, rfl | derives⟩ |
    ⟨derived, trials, derives, listed, ⟨_, _, rfl⟩ | ⟨results, count, _, proposed, commits, _⟩⟩
  · exact .refl coherent
  · exact onContext_deriveAll_refines coherent derives
  · exact onContext_deriveAll_refines coherent derives
  · have start := onContext_deriveAll_refines coherent derives
    exact start.trans
      (commitAll_refines start.coherent (start.rules_eq ▸ faithful) listed proposed commits)

/-- **Rounds with faithful rules keep the meaning**, whatever stops them. -/
theorem rounds_refines (coherent : search.context.Coherent I)
    (faithful : ∀ rule ∈ search.rules, rule.Faithful I) {fuel : Nat} {outcome : Except Abort PUnit}
    (done : rounds kind root fuel search = .ok (outcome, final)) : Refines I search final := by
  induction fuel generalizing search with
  | zero =>
    cases done
    exact .refl coherent
  | succ fuel ih =>
    unfold rounds at done
    rcases Action.bind_eq_ok_iff.1 done with ⟨again, middle, one, others⟩ | ⟨_, stopped, _⟩
    · have first := round_refines coherent faithful one
      by_cases more : again = true
      · rw [if_pos more] at others
        exact first.trans (ih first.coherent (first.rules_eq ▸ faithful) others)
      · rw [if_neg more] at others
        cases others
        exact first
    · exact round_refines coherent faithful stopped

end Search

end Cascades
