/-
**What one search shows of others.**

A search that gives a result went through both phases below a relation, and could count all joined tables
of the memo that it began with. So no other search from that memo goes wrong, whatever its settings are.

* `Plan.relational_of_ofGroup?`: plans are looked for below relations only;
* `goesThrough_of_optimize`: a search with a result went through both phases;
* `GoesThrough.optimize_ends`: then searches with other settings give results as well, or are stopped.
-/

import Cascades.Proofs.Estimate
import Cascades.Proofs.Search.Planning
import Cascades.Proofs.Search.Termination

namespace Cascades

open Memo

/-- The search for the plan of a group ends well for relations only. -/
theorem Plan.relational_of_ofGroup? {memo : Memo} {catalog : Catalog} {guard : Guard}
    {model : CostModel} {id : GroupId} (valid : memo.Valid) (laid : memo.Laid)
    (headed : memo.LogicalFirst) {found : Option Plan}
    (done : Plan.ofGroup? memo catalog guard model id = .ok found) : memo.Relational id := by
  obtain ⟨last, done⟩ := run'_eq_ok_iff.1 done
  have run : cheapestWithin (Setting.ofMemo memo catalog guard model) (guard.maxDepth + 1) [] id {} =
      .ok (found, last) := done
  unfold cheapestWithin at run
  by_cases cancelled : (Setting.ofMemo memo catalog guard model).guard.cancelled = true
  · simp only [if_pos cancelled] at run
    cases run
  simp only [if_neg cancelled] at run
  obtain ⟨⟨statistics, _⟩, given, _⟩ := bind_eq_ok_iff.1 run
  obtain ⟨value, given, _⟩ := bind_eq_ok_iff.1 given
  exact ((statistics_ofMemo_iff valid laid headed).1 (lift_fault_eq_ok_iff.1 given)).1

namespace Search

variable {kind : RuleKind} {root : GroupId} {search final explored implemented : Search}
  {memo : Memo} {catalog : Catalog} {config other : Config} {model : CostModel}
  {breadth : GroupId → Breadth}

/-- What is searched below is there. -/
theorem inside_of_phase (done : phase kind root search = .ok (.ok ⟨⟩, final)) :
    root < search.context.memo.groups.size := by
  obtain ⟨derived, trials, derives, tried⟩ := exists_trials_of_phase done
  obtain ⟨context, same, rfl⟩ := onContext_deriveAll derives
  rw [trials_eq] at tried
  obtain ⟨ids, reached, _⟩ := bind_eq_ok_iff.1 tried
  obtain ⟨group, there, _⟩ := bind_eq_ok_iff.1 reached
  exact same.memo ▸ lt_of_group (group_ok_iff.1 there)

/-- **A search with a result** went through both phases. -/
theorem goesThrough_of_optimize (built : memo.Built) (formed : memo.Formed breadth)
    {found : Option Plan} (done : optimize model root (ofMemo memo catalog Rule.standard config) =
      .ok (.ok found, final)) :
    ∃ explored implemented,
      GoesThrough root breadth (ofMemo memo catalog Rule.standard config) explored implemented ∧
        implemented.cheapest? model root = .ok found ∧
        final = { implemented with
          context := { implemented.context with memo := implemented.context.memo.close } } := by
  rcases optimize_cases done with ⟨_, same⟩ | ⟨explored, implemented, _, explores, implements, plans,
    same, shape⟩
  · cases same
  cases same
  let start := ofMemo memo catalog Rule.standard config
  have inside : root < start.context.memo.groups.size := inside_of_phase explores
  have started : Continues start breadth start := .refl formed
  have standard : start.rules = Rule.standard := rfl
  have continues : Continues start breadth implemented :=
    phase_continues standard inside (phase_continues standard inside started explores) implements
  obtain ⟨later, develops⟩ := continues.develops
  have laid : implemented.context.memo.Laid := develops.formed.laid
  have after :=
    Plan.relational_of_ofGroup? develops.formed.toValid laid develops.formed.logicalFirst plans
  have relational : memo.Relational root := relational_iff.2
    ⟨inside, develops.grows.isScalarGroup_eq inside ▸ (relational_iff.1 after).2⟩
  exact ⟨explored, implemented, ⟨formed, built.isMarked_eq, rfl, relational, explores, implements⟩,
    plans, shape⟩

/-- **No search goes wrong** from a memo from which one went through both phases. -/
theorem GoesThrough.optimize_ends (built : memo.Built)
    (through : GoesThrough root breadth (ofMemo memo catalog Rule.standard config) explored implemented)
    (model : CostModel) (other : Config) :
    ∃ outcome last, optimize model root (ofMemo memo catalog Rule.standard other) =
      .ok (outcome, last) ∧ Ends Abort.Stops outcome fun _ => True := by
  have formed : memo.Formed breadth := through.formed
  let start := ofMemo memo catalog Rule.standard other
  let never (_ : Fault) : Prop := False
  have countable : Countable True never breadth memo := fun _ => ⟨trivial, formed, fun id inside => by
    rw [← formed.tables_eq inside]
    exact tables_le_of_phase built through.explores id inside⟩
  have fresh : Follows True True start.context.memo start breadth start := .fresh built formed
  have relational : start.context.memo.Relational root := through.relational
  have ends := optimize_follows countable Rule.standard_sure (fun _ => Rule.standard_rearranging)
    relational model start fresh
  cases done : optimize model root start with
  | error cause =>
    rw [done] at ends
    exact ends.elim
  | ok ended =>
    rw [done] at ends
    exact ⟨ended.1, ended.2, rfl, ends⟩

end Search

end Cascades
