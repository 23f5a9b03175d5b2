/-
**Properties do not depend on the chosen member.**

The properties of a relational group are derived from its first logical member. A search only rearranges
what the groups of its memo hold, and nothing that it knows gets out of date. So in every state of a
search the columns of a group, those that it takes from outside, the tables that it joins and the
partitioned tables that it scans are the same for each of its logical members.

* `Reshaped`: a search over a rearranged memo, in which nothing is out of date;
* `Enduring`: a property of memos that every commit keeps; `Enduring.round`, `Enduring.rounds`,
  `Enduring.reached`: every state of a search has it;
* `round_reshaped`, `rounds_reshaped`, `Reached.reshaped`: every state is over a rearranged memo;
* `Reached.members_agree`: what is derived from a member is what is derived from the first one.
-/

import Cascades.Proofs.Gathering.Members
import Cascades.Proofs.Meaning.Query
import Cascades.Proofs.Search.Comparison

namespace Cascades.Search

open Memo

variable {search next derived final : Search} {first memo : Memo} {kind : RuleKind} {root : GroupId}

/-! ### Searches over rearranged memos -/

/-- **A search over a memo that a first one was rearranged into**, with some of the rules, in which
nothing that is known is out of date. -/
structure Reshaped (first : Memo) (search : Search) : Prop where
  standard : ∀ rule ∈ search.rules, rule ∈ Rule.standard
  formed : ∃ breadth, search.context.memo.Formed breadth
  rearranged : Rearranged True first search.context.memo
  fresh : search.context.Fresh

theorem Reshaped.ofMemo (built : memo.Built) {catalog : Catalog} {rules : List Rule} {config : Config}
    (standard : ∀ rule ∈ rules, rule ∈ Rule.standard) :
    Reshaped memo (ofMemo memo catalog rules config) := by
  obtain ⟨breadth, formed⟩ := built.formed
  exact ⟨standard, ⟨breadth, formed⟩, built.holds.rearranged formed.toValid,
    ⟨formed.toValid, formed.logicalFirst, Context.current_of_blank⟩⟩

theorem Reshaped.derive (reshaped : Reshaped first search) {outcome : Except Abort PUnit}
    (derives : onContext Context.deriveAll search = .ok (outcome, derived)) :
    Reshaped first derived := by
  obtain ⟨context, done, rfl⟩ := Action.onPart_eq_ok_iff.1 derives
  obtain ⟨log, derivations⟩ := Context.deriveAll_derives reshaped.fresh.valid done
  have same := derivations.sameMemo.memo
  exact ⟨reshaped.standard, same ▸ reshaped.formed, same ▸ reshaped.rearranged,
    reshaped.fresh.derive derivations⟩

/-- All properties are known then. -/
theorem Reshaped.ready (reshaped : Reshaped first search)
    (derives : onContext Context.deriveAll search = .ok (.ok ⟨⟩, derived)) :
    ∃ breadth, derived.context.Ready breadth := by
  let anyFault (_ : Fault) : Prop := True
  obtain ⟨breadth, formed⟩ := reshaped.formed
  have leads : Action.Leads anyFault (· = search) (onContext Context.deriveAll) fun _ derived =>
      ∃ later, Derived search breadth derived later := derive_leads trivial (.refl formed)
  obtain ⟨later, made⟩ := leads.of_ok rfl derives
  exact ⟨later, made.ready⟩

/-- **What is committed** keeps the memo rearranged. -/
theorem Reshaped.committed {start : Search} {breadth : GroupId → Breadth}
    (formed : start.context.memo.Formed breadth) {trial : Trial} {proposals : List Proposal}
    (prepared : Prepared True True start.context.memo breadth (trial, .ok proposals)) {added : Nat}
    (committed : search.Committed trial proposals added next)
    (continues : Continues start breadth search) (reshaped : Reshaped first search) :
    Continues start breadth next ∧ Reshaped first next := by
  obtain ⟨expr, stored, suits⟩ := prepared
  have follows : Follows False True first start breadth search := continues.follows
  have onward : Continues start breadth next :=
    ((follows.committed formed stored fun proposal member =>
      ⟨(suits proposal member).1, False.elim⟩).2 _ _ committed).continues
  obtain ⟨later, develops⟩ := onward.develops
  obtain ⟨before, grown⟩ := continues.develops
  have extending := committed.extends (.refl reshaped.fresh.valid)
  obtain ⟨group, place, _⟩ := formed.placed stored
  have marked : start.context.memo.Grows (search.context.memo.mark trial.1 trial.2.mark) :=
    grown.grows.trans (mark_keeps grown.formed.toValid).2
  refine ⟨onward, ?_⟩
  obtain ⟨again, memo, there, inserted, rfl⟩ := committed
  obtain rfl : expr = again := Option.some.inj ((grown.grows.exprs stored).symm.trans there)
  refine ⟨reshaped.standard, ⟨later, develops.formed⟩, ?_, ?_⟩
  · exact insertProposals_rearranged reshaped.rearranged.mark formed.toValid marked
      (fun proposal member => (suits proposal member).2 trivial) (lt_of_group place) inserted
  · exact reshaped.fresh.grow extending rfl develops.formed.logicalFirst

/-! ### What every commit keeps -/

/-- **A property of memos that every commit keeps**: a rule proposed something for a rearranged memo, all
of whose properties were known, and this is put into a memo that went on from it. -/
def Enduring (first : Memo) (property : Memo → Prop) : Prop :=
  ∀ {source one two : Search} {breadth : GroupId → Breadth} {trial : Trial} {expr : Expr}
    {proposals : List Proposal} {added : Nat}, Reshaped first source → source.context.Ready breadth →
      source.context.memo.exprs[trial.1]? = some expr → trial.2 ∈ Rule.standard →
        trial.2.proposals source.context trial.1 = .ok proposals →
          source.context.memo.Grows one.context.memo → Reshaped first one →
            one.Committed trial proposals added two → Reshaped first two →
              property source.context.memo → property one.context.memo → property two.context.memo

section Enduring

variable {property : Memo → Prop} (enduring : Enduring first property)
include enduring

/-- **A round** keeps the memo rearranged and such a property, whether or not it is aborted. -/
theorem Enduring.round (reshaped : Reshaped first search) (start : property search.context.memo)
    {outcome : Except Abort Bool} (done : round kind root search = .ok (outcome, final)) :
    Reshaped first final ∧ property final.context.memo := by
  have derive : ∀ {outcome : Except Abort PUnit} {derived : Search},
      onContext Context.deriveAll search = .ok (outcome, derived) →
        Reshaped first derived ∧ property derived.context.memo := by
    intro outcome derived derives
    obtain ⟨context, done, rfl⟩ := Action.onPart_eq_ok_iff.1 derives
    obtain ⟨log, derivations⟩ := Context.deriveAll_derives reshaped.fresh.valid done
    have same : context.memo = search.context.memo := derivations.sameMemo.memo
    exact ⟨reshaped.derive derives, same.symm ▸ start⟩
  rcases round_cases done with ⟨_, _, rfl | derives⟩ |
    ⟨derived, trials, derives, listed, ⟨_, _, rfl⟩ | ⟨results, count, _, proposed, commits, _⟩⟩
  · exact ⟨reshaped, start⟩
  · exact derive derives
  · exact derive derives
  · let anyFault (_ : Fault) : Prop := True
    obtain ⟨middle, held⟩ := derive derives
    obtain ⟨later, ready⟩ := reshaped.ready derives
    let onward (one two : Search) : Prop :=
      Continues derived later one ∧ Reshaped first one ∧ property one.context.memo →
        Continues derived later two ∧ Reshaped first two ∧ property two.context.memo
    have each : ∀ trial proposals one count two, (trial, .ok proposals) ∈ results →
        one.Committed trial proposals count two → onward one two := by
      rintro trial proposals one count two member committed ⟨continues, before, kept⟩
      obtain ⟨other, tried, given⟩ := (mem_mapM_iff proposed).1 member
      obtain ⟨rfl, found⟩ := proposalsOf_eq_ok given
      obtain ⟨rule, _, expr, stored⟩ := known_of_trials listed trial (List.mem_of_mem_take tried)
      have standard := middle.standard _ rule
      have ends : Ends anyFault (proposalsOf derived.context trial)
          (Prepared True True derived.context.memo later) :=
        proposalsOf_ends ready (Rule.standard_sure _ standard)
          (fun _ => ⟨Rule.standard_rearranging _ standard, middle.rearranged.holds⟩)
          (fun _ => trivial) stored
      rw [given] at ends
      obtain ⟨onward, after⟩ := before.committed ready.formed ends committed continues
      obtain ⟨_, develops⟩ := continues.develops
      exact ⟨onward, after, enduring middle ready stored standard found develops.grows before committed
        after held kept⟩
    have whole : onward derived final := commitAll_relates (fun _ reached => reached)
      (fun _ _ _ early late reached => late (early reached)) each commits
    exact (whole ⟨.refl ready.formed, middle, held⟩).2

/-- **Rounds** keep the memo rearranged and such a property. -/
theorem Enduring.rounds {fuel : Nat} (reshaped : Reshaped first search)
    (start : property search.context.memo) {outcome : Except Abort PUnit}
    (done : rounds kind root fuel search = .ok (outcome, final)) :
    Reshaped first final ∧ property final.context.memo := by
  induction fuel generalizing search with
  | zero =>
    cases done
    exact ⟨reshaped, start⟩
  | succ fuel ih =>
    unfold Search.rounds at done
    rcases Action.bind_eq_ok_iff.1 done with ⟨again, middle, one, others⟩ | ⟨_, stopped, _⟩
    · obtain ⟨early, held⟩ := enduring.round reshaped start one
      by_cases more : again = true
      · rw [if_pos more] at others
        exact ih early held others
      · rw [if_neg more] at others
        cases others
        exact ⟨early, held⟩
    · exact enduring.round reshaped start stopped

/-- **Every state of a search** is over a rearranged memo with such a property. -/
theorem Enduring.reached (reshaped : Reshaped first search) (start : property search.context.memo)
    (reached : Reached search final) : Reshaped first final ∧ property final.context.memo := by
  induction reached with
  | start => exact ⟨reshaped, start⟩
  | rounds _ done ih => exact enduring.rounds ih.1 ih.2 done
  | limits _ _ _ ih =>
    obtain ⟨ih, held⟩ := ih
    -- What is known does not depend on the guard.
    exact ⟨⟨ih.standard, ih.formed, ih.rearranged,
      ⟨ih.fresh.valid, ih.fresh.headed, ⟨ih.fresh.current.scalar, ih.fresh.current.relational⟩⟩⟩, held⟩

end Enduring

theorem enduring_true : Enduring first fun _ => True :=
  fun _ _ _ _ _ _ _ _ _ _ _ => trivial

/-- **A round** keeps the memo rearranged, whether or not it is aborted. -/
theorem round_reshaped (reshaped : Reshaped first search) {outcome : Except Abort Bool}
    (done : round kind root search = .ok (outcome, final)) : Reshaped first final :=
  (enduring_true.round reshaped trivial done).1

/-- **Rounds** keep the memo rearranged. -/
theorem rounds_reshaped {fuel : Nat} (reshaped : Reshaped first search)
    {outcome : Except Abort PUnit} (done : rounds kind root fuel search = .ok (outcome, final)) :
    Reshaped first final :=
  (enduring_true.rounds reshaped trivial done).1

/-- **Every state of a search** is over a rearranged memo. -/
theorem Reached.reshaped (reached : Reached search final) (reshaped : Reshaped first search) :
    Reshaped first final :=
  (enduring_true.reached reshaped trivial reached).1

/-! ### Members of one group -/

section Members

variable {catalog : Catalog} {rules : List Rule} {config : Config} {context : Context}
  {log : List Derivation} {id : GroupId} {head expr : Expr} {first operator : LogicalOp}
  {member : ExprId}

/-- **Properties do not depend on the chosen member.** Logical expressions are inserted into an empty
memo, and phases run with any of the rules. In every state that is reached, whatever is derived of it
then, and for every logical member of a group, over complete child groups, the columns of a row, the
columns that are taken from outside and the partitioned tables that are scanned can be derived from the
member, and they are those that are derived from the first logical member. So is the number of joined
tables, or for both it is too great to be counted. -/
theorem Reached.members_agree (built : memo.Built) (standard : ∀ rule ∈ rules, rule ∈ Rule.standard)
    (reached : (ofMemo memo catalog rules config).Reached search)
    (derives : Context.Derives search.context log context)
    (found : context.memo.firstLogical id = .ok (head, first))
    (stored : context.memo.exprs[member]? = some expr) (place : expr.group = id)
    (logical : expr.operator = .logical operator)
    (complete : ∀ child, child ∈ expr.children ∨ child ∈ head.children → context.Complete child) :
    (∃ columns, RelationalProperty.deriveOutput context expr operator = .ok columns ∧
      RelationalProperty.deriveOutput context head first = .ok columns) ∧
    (∃ columns, RelationalProperty.deriveOuter context expr operator = .ok columns ∧
      RelationalProperty.deriveOuter context head first = .ok columns) ∧
    (∃ tables, RelationalProperty.derivePartitions context expr operator = .ok tables ∧
      RelationalProperty.derivePartitions context head first = .ok tables) ∧
    RelationalProperty.deriveDepth context expr operator =
      RelationalProperty.deriveDepth context head first := by
  have reshaped := reached.reshaped (Reshaped.ofMemo built standard)
  have same := derives.sameMemo.memo
  have fresh : context.Fresh := reshaped.fresh.derive derives
  obtain ⟨breadth, formed⟩ : ∃ breadth, context.memo.Formed breadth := same ▸ reshaped.formed
  have rearranged : Rearranged True memo context.memo := same ▸ reshaped.rearranged
  obtain ⟨⟨number, storedHead⟩, named, logicalHead⟩ := Context.firstLogical_cases fresh.valid found
  subst place
  have own := rearranged.profile_eq built formed context.catalog stored logical
  have ownHead := rearranged.profile_eq built formed context.catalog storedHead logicalHead
  rw [named] at ownHead
  have below : ∀ child ∈ expr.children, context.Complete child :=
    fun child member => complete child (Or.inl member)
  have belowHead : ∀ child ∈ head.children, context.Complete child :=
    fun child member => complete child (Or.inr member)
  obtain ⟨output, outer, partitions⟩ := fresh.derive_eq formed stored logical below own
  obtain ⟨outputHead, outerHead, partitionsHead⟩ :=
    fresh.derive_eq formed storedHead logicalHead belowHead ownHead
  refine ⟨⟨_, output, outputHead⟩, ⟨_, outer, outerHead⟩, ⟨_, partitions, partitionsHead⟩, ?_⟩
  rw [fresh.deriveDepth_eq formed stored logical below,
    fresh.deriveDepth_eq formed storedHead logicalHead belowHead, named]

end Members

/-- A join of three tables, the last of which is joined with the second one. -/
def joinedInTurn : List (Operator × List GroupId) :=
  [(.logical (.get ⟨"shop", "orders"⟩ [⟨1, none, "order"⟩]), []),
    (.logical (.get ⟨"shop", "items"⟩ [⟨2, none, "item"⟩]), []),
    (.logical (.get ⟨"shop", "parts"⟩ [⟨3, none, "part"⟩]), []), (.truth, []),
    (.logical (.join .inner), [0, 1, 3]), (.scalar (.column ⟨2, none, "item"⟩), []),
    (.scalar (.column ⟨3, none, "part"⟩), []), (.scalar (.binary .eq), [5, 6]),
    (.logical (.join .inner), [4, 2, 7])]

/-- The join is regrouped, and the second member of its group has other children than the first one. -/
theorem members_agree_joinedInTurn :
    ∃ (memo : Memo) (search : Search) (context : Context) (log : List Derivation) (head expr : Expr)
      (first operator : LogicalOp), Memo.empty.build? joinedInTurn = some memo ∧
      explore 8 (ofMemo memo {} [Rule.joinAssociativity] {}) = .ok (.ok ⟨⟩, search) ∧
      Context.Derives search.context log context ∧
      context.memo.firstLogical 8 = .ok (head, first) ∧ head.children = [4, 2, 7] ∧
      context.memo.exprs[10]? = some expr ∧ expr.group = 8 ∧ expr.children = [0, 9, 3] ∧
      expr.operator = .logical operator ∧
      (∃ columns, RelationalProperty.deriveOutput context expr operator = .ok columns ∧
        RelationalProperty.deriveOutput context head first = .ok columns) ∧
      (∃ columns, RelationalProperty.deriveOuter context expr operator = .ok columns ∧
        RelationalProperty.deriveOuter context head first = .ok columns) ∧
      (∃ tables, RelationalProperty.derivePartitions context expr operator = .ok tables ∧
        RelationalProperty.derivePartitions context head first = .ok tables) ∧
      RelationalProperty.deriveDepth context expr operator =
        RelationalProperty.deriveDepth context head first := by
  have shown : (Memo.empty.build? joinedInTurn).bind (fun memo =>
      (explore 8 (ofMemo memo {} [Rule.joinAssociativity] {})).toOption.bind fun ended =>
        (Context.deriveAll ended.2.context).toOption.bind fun derived =>
          (derived.2.memo.firstLogical 8).toOption.bind fun found =>
            derived.2.memo.exprs[10]?.map fun expr =>
              (decide (ended.1 = .ok ⟨⟩), decide (derived.1 = .ok ⟨⟩),
                decide (found.1.children = [4, 2, 7] ∧ expr.group = 8 ∧ expr.children = [0, 9, 3]),
                expr.operator.isLogical)) = some (true, true, true, true) := by
    decide +kernel
  obtain ⟨memo, made, shown⟩ := Option.bind_eq_some_iff.1 shown
  obtain ⟨⟨outcome, search⟩, ran, shown⟩ := Option.bind_eq_some_iff.1 shown
  obtain ⟨⟨result, context⟩, derived, shown⟩ := Option.bind_eq_some_iff.1 shown
  obtain ⟨⟨head, first⟩, found, shown⟩ := Option.bind_eq_some_iff.1 shown
  obtain ⟨expr, stored, shown⟩ := Option.map_eq_some_iff.1 shown
  obtain ⟨rfl, rfl, ⟨children, place, others⟩, logical⟩ : outcome = .ok ⟨⟩ ∧ result = .ok ⟨⟩ ∧
    (head.children = [4, 2, 7] ∧ expr.group = 8 ∧ expr.children = [0, 9, 3]) ∧
      expr.operator.isLogical = true := by simpa using shown
  have ran := toOption_eq_some_iff.1 ran
  have derived := toOption_eq_some_iff.1 derived
  have found := toOption_eq_some_iff.1 found
  have built := Memo.Built.empty.build? made
  have standard : ∀ rule ∈ [Rule.joinAssociativity], rule ∈ Rule.standard := by
    simp [Rule.standard]
  have reached : (ofMemo memo {} [Rule.joinAssociativity] {}).Reached search := Reached.start.phase ran
  have reshaped := reached.reshaped (Reshaped.ofMemo built standard)
  obtain ⟨log, derives⟩ := Context.deriveAll_derives reshaped.fresh.valid derived
  obtain ⟨breadth, ready⟩ := reshaped.ready (Action.onPart_eq_ok_iff.2 ⟨context, derived, rfl⟩)
  obtain ⟨⟨number, storedHead⟩, _, _⟩ := Context.firstLogical_cases ready.formed.toValid found
  have complete : ∀ child, child ∈ expr.children ∨ child ∈ head.children → context.Complete child := by
    rintro child (below | below)
    · exact ready.complete child (ready.formed.toValid.childExists stored below)
    · exact ready.complete child (ready.formed.toValid.childExists storedHead below)
  cases kind : expr.operator with
  | logical operator =>
    exact ⟨memo, search, context, log, head, expr, first, operator, made, ran, derives, found, children,
      stored, place, others, kind,
      reached.members_agree built standard derives found stored place kind complete⟩
  | physical operator =>
    rw [kind] at logical
    cases logical
  | scalar operator =>
    rw [kind] at logical
    cases logical

end Cascades.Search
