/-
**What implementing adds.**

An implementing rule proposes physical forms over groups that there are. So a phase of implementation
adds no groups and no logical expressions, and whatever it tries, it tries on expressions that were there
before it. Every form that it adds is one that some rule gave such an expression.

* `Memo.AddsForms`: nothing but physical expressions was added, to groups that there were;
* `insertProposals_addsForms`: what proposals of physical forms do to a memo;
* `Rule.Gives`: what such rules may give an expression;
* `Made`: a form that a rule gave an expression in a round;
* `Worked.addsForms`, `Loop.addsForms`: the forms that rounds add were made in them, also where they are
  aborted.
-/

import Cascades.Proofs.Search.Termination

namespace Cascades

variable {memo next last : Memo} {id : ExprId} {expr : Expr} {made other : Expr → Prop}

/-! ### Physical forms in a memo -/

namespace Memo

/-- **Physical forms were added** to a memo, and nothing else. -/
structure AddsForms (made : Expr → Prop) (memo next : Memo) : Prop where
  valid : next.Valid
  grows : memo.Grows next
  size_eq : next.groups.size = memo.groups.size
  added : ∀ {id : ExprId} {expr : Expr}, next.exprs[id]? = some expr →
    memo.exprs[id]? = some expr ∨ (expr.operator.isPhysical = true ∧ made expr)

theorem AddsForms.refl (valid : memo.Valid) : AddsForms made memo memo :=
  ⟨valid, .refl memo, rfl, Or.inl⟩

theorem AddsForms.trans (first : AddsForms made memo next) (second : AddsForms made next last) :
    AddsForms made memo last where
  valid := second.valid
  grows := first.grows.trans second.grows
  size_eq := second.size_eq.trans first.size_eq
  added stored := (second.added stored).elim first.added Or.inr

theorem AddsForms.mono (adds : AddsForms made memo next) (more : ∀ form, made form → other form) :
    AddsForms other memo next where
  valid := adds.valid
  grows := adds.grows
  size_eq := adds.size_eq
  added stored := (adds.added stored).imp_right fun form => ⟨form.1, more _ form.2⟩

/-- The logical expressions were there before. -/
theorem AddsForms.old (adds : AddsForms made memo next) (stored : next.exprs[id]? = some expr)
    {operator : LogicalOp} (logical : expr.operator = .logical operator) :
    memo.exprs[id]? = some expr := by
  refine (adds.added stored).resolve_right fun form => ?_
  rw [logical] at form
  cases form.1

theorem mark_addsForms (valid : memo.Valid) {mark : Mark} :
    AddsForms made memo (memo.mark id mark) where
  valid := (mark_keeps valid).1
  grows := (mark_keeps valid).2
  size_eq := by rw [groups_mark]
  added stored := by
    rw [exprs_mark] at stored
    exact Or.inl stored

theorem insertInto_addsForms (valid : memo.Valid) {target : GroupId} {operator : PhysicalOp}
    {children : List GroupId}
    (done : memo.insertInto target (.physical operator) children = .ok (id, next)) :
    AddsForms (fun form => form.group = target ∧ form.operator = .physical operator ∧
      form.children = children) memo next := by
  obtain ⟨after, grows⟩ := insertInto_keeps done valid
  obtain ⟨_, ⟨_, rfl⟩ | ⟨_, _, rfl, _⟩⟩ := insertInto_cases done
  · exact .refl valid
  · refine ⟨after, grows, size_groups_append, fun stored => ?_⟩
    rcases stored_append_iff.1 stored with before | ⟨_, rfl⟩
    · exact Or.inl before
    · exact Or.inr ⟨rfl, rfl, rfl, rfl⟩

/-- A step adds physical forms only, where it begins with a valid memo. -/
def GainsForms (made : Expr → Prop) (memo next : Memo) : Prop :=
  memo.Valid → AddsForms made memo next

/-- A proposal of a physical operator over groups. -/
def IsForm (proposal : Proposal) : Prop :=
  ∃ (operator : PhysicalOp) (children : List GroupId),
    proposal = .overGroups (.physical operator) children

/-- **Proposals of physical forms** add them only, to the group that they are for. -/
theorem insertProposals_addsForms {target : GroupId} {proposals : List Proposal} {count : Nat}
    (forms : ∀ proposal ∈ proposals, IsForm proposal) (valid : memo.Valid)
    (done : memo.insertProposals target proposals = .ok (count, next)) :
    AddsForms (fun form => form.group = target ∧
      .overGroups form.operator form.children ∈ proposals) memo next := by
  obtain ⟨grown, run, done⟩ := bind_eq_ok_iff.1 done
  cases pure_eq_ok_iff.1 done
  suffices gains : GainsForms _ memo next from gains valid
  refine foldlM_relates (fun _ => .refl)
    (fun first second valid => (first valid).trans (second (first valid).valid))
    (fun {proposal before after} member one valid => ?_) run
  obtain ⟨operator, children, rfl⟩ := forms proposal member
  obtain ⟨⟨ids, middle⟩, inputs, one⟩ := bind_eq_ok_iff.1 one
  rw [materializeAll_groups] at inputs
  cases inputs
  obtain ⟨⟨number, _⟩, inserted, one⟩ := bind_eq_ok_iff.1 one
  cases pure_eq_ok_iff.1 one
  refine (insertInto_addsForms valid inserted).mono fun form new => ⟨new.1, ?_⟩
  rw [new.2.1, new.2.2]
  exact member

end Memo

/-! ### Rules -/

theorem Proposal.overGroups_inj {one two : Operator} {first second : List GroupId}
    (same : overGroups one first = overGroups two second) : one = two ∧ first = second := by
  obtain ⟨operators, inputs⟩ := node.inj same
  exact ⟨operators, List.map_injective_iff.2 (fun _ _ => group.inj) inputs⟩

namespace Rule

/-- A rule may give an expression a form, which stands beside it. -/
structure Gives (rule : Rule) (source form : Expr) : Prop where
  group : form.group = source.group
  children : form.children = source.children
  proposes : ∃ (context : Context) (binding : Binding) (alternatives : List Proposal),
    binding.operator = source.operator ∧ binding.childGroups = source.children ∧
      rule.transform context binding = .ok alternatives ∧
      .overGroups form.operator source.children ∈ alternatives

/-- What such a rule proposes for an expression are forms of it. -/
theorem Implements.isForm {rule : Rule} (implements : rule.Implements)
    (inner : rule.pattern.isLeaf = false) {context : Context} (valid : context.memo.Valid)
    {source : Expr} (stored : context.memo.exprs[id]? = some source) {proposals : List Proposal}
    (done : rule.proposals context id = .ok proposals) :
    ∀ proposal ∈ proposals, Memo.IsForm proposal ∧ ∀ form : Expr, form.group = source.group →
      proposal = .overGroups form.operator form.children → rule.Gives source form := by
  intro proposal member
  obtain ⟨binding, found, alternatives, transformed, inside⟩ := exists_of_mem_proposals done member
  obtain ⟨drawn, shown, _, groups⟩ := Listing.shows_ofExpr valid stored inner found
  obtain ⟨operator, _, rfl⟩ := implements drawn transformed proposal inside
  refine ⟨⟨operator, binding.childGroups, rfl⟩, fun form group same => ?_⟩
  obtain ⟨kind, children⟩ := Proposal.overGroups_inj same
  refine ⟨group, children.symm.trans groups, context, binding, alternatives, shown, groups,
    transformed, ?_⟩
  rw [← kind, ← groups]
  exact inside

end Rule

/-! ### Rounds -/

namespace Search

open Memo

variable {search final derived : Search} {root : GroupId} {log : List Trial} {first : Memo}

/-- A trial that proposes forms adds them to the group of its expression. -/
theorem Committed.addsForms {trial : Trial} {proposals : List Proposal} {added : Nat} {next : Search}
    (committed : search.Committed trial proposals added next) (valid : search.context.memo.Valid)
    (stored : search.context.memo.exprs[trial.1]? = some expr)
    (forms : ∀ proposal ∈ proposals, IsForm proposal) :
    AddsForms (fun form => form.group = expr.group ∧
      .overGroups form.operator form.children ∈ proposals)
        search.context.memo next.context.memo := by
  obtain ⟨_, memo, again, inserted, rfl⟩ := committed
  obtain rfl := Option.some.inj (stored.symm.trans again)
  have marked : AddsForms (fun form => form.group = expr.group ∧
      .overGroups form.operator form.children ∈ proposals) search.context.memo
      (search.context.memo.mark trial.1 trial.2.mark) := mark_addsForms valid
  exact marked.trans (insertProposals_addsForms forms marked.valid inserted)

/-- The proposals of a trial are forms of its expression. -/
def Shapes (made : Expr → Prop) (memo : Memo) (trial : Trial) (proposals : List Proposal) : Prop :=
  ∃ source, memo.exprs[trial.1]? = some source ∧ ∀ proposal ∈ proposals, IsForm proposal ∧
    ∀ form : Expr, form.group = source.group →
      proposal = .overGroups form.operator form.children → made form

theorem Carried.addsForms {results : List (Trial × Except Abort (List Proposal))}
    (carried : Carried search results log final) (valid : search.context.memo.Valid)
    (forms : ∀ trial proposals, (trial, .ok proposals) ∈ results →
      Shapes made search.context.memo trial proposals) :
    AddsForms made search.context.memo final.context.memo ∧ final.rules = search.rules ∧
      ∀ trial ∈ log, trial ∈ results.map Prod.fst := by
  induction carried with
  | stop => exact ⟨.refl valid, rfl, nofun⟩
  | @go search next final trial proposals added rest log committed _ ih =>
    obtain ⟨source, stored, shapes⟩ := forms trial proposals List.mem_cons_self
    have one : AddsForms made search.context.memo next.context.memo :=
      (committed.addsForms valid stored fun proposal member => (shapes proposal member).1).mono
        fun form new => (shapes _ new.2).2 form new.1 rfl
    have onward : ∀ other after, (other, .ok after) ∈ rest →
        Shapes made next.context.memo other after := by
      intro other after member
      obtain ⟨expr, there, same⟩ := forms other after (List.mem_cons_of_mem _ member)
      exact ⟨expr, one.grows.exprs there, same⟩
    obtain ⟨more, rules, listed⟩ := ih one.valid onward
    refine ⟨one.trans more, rules.trans committed.rules_eq, List.forall_mem_cons.2 ⟨?_, ?_⟩⟩
    · exact List.mem_cons_self
    · exact fun other member => List.mem_cons_of_mem _ (listed other member)

/-- A form that a rule, tried in a round, gives an expression that was there at first. -/
def Made (first : Memo) (root : GroupId) (derived : Search) (form : Expr) : Prop :=
  ∃ (trials : List Trial) (trial : Trial) (source : Expr),
    derived.trials .implementation root = .ok trials ∧ trial ∈ trials ∧
      first.exprs[trial.1]? = some source ∧ trial.2.Gives source form

/-- What is tried are rules on logical expressions, which were there before forms were added. -/
theorem old_of_trials {trials : List Trial} (adds : AddsForms made first derived.context.memo)
    (listed : derived.trials .implementation root = .ok trials) {trial : Trial}
    (member : trial ∈ trials) : trial.2 ∈ derived.rules ∧ trial.2.kind = .implementation ∧
      ∃ source, first.exprs[trial.1]? = some source := by
  obtain ⟨below, known, eligible, _⟩ := (mem_trials_iff listed).1 member
  obtain ⟨source, _, stored, logical⟩ := below.exists_logical
  exact ⟨known, eligible.sameKind, source, adds.old stored logical⟩

/-- **A round of implementation** adds forms only, those that it makes, and tries rules on expressions
that there were. -/
theorem Worked.addsForms (worked : Worked .implementation root search log final)
    (standard : ∀ rule ∈ search.rules, rule ∈ Rule.standard)
    (before : AddsForms made first search.context.memo)
    (each : ∀ derived, onContext Context.deriveAll search = .ok (.ok ⟨⟩, derived) →
      ∀ form, Made first root derived form → made form) :
    AddsForms made first final.context.memo ∧ final.rules = search.rules ∧
      Listed search.rules first log := by
  cases worked with
  | nothing same => exact ⟨same.memo ▸ before, rfl, nofun⟩
  | @trials derived _ trials _ results derives tried proposed carried =>
    have each := each derived derives
    obtain ⟨context, same, rfl⟩ := onContext_deriveAll derives
    have before : AddsForms made first context.memo := same.memo ▸ before
    let derived : Search := { search with context }
    have old : ∀ trial ∈ trials, trial.2 ∈ search.rules ∧ trial.2.kind = .implementation ∧
        ∃ source, first.exprs[trial.1]? = some source := by
      have adds : AddsForms made first derived.context.memo := before
      exact fun trial member => old_of_trials adds tried member
    have shapes : ∀ trial proposals, (trial, .ok proposals) ∈ results →
        Shapes made context.memo trial proposals := by
      intro trial proposals member
      obtain ⟨among, done⟩ := mem_results proposed member
      have inside := List.mem_of_mem_take among
      obtain ⟨known, kind, source, stored⟩ := old trial inside
      have listed := standard _ known
      have stands := before.grows.exprs stored
      refine ⟨source, stands, fun proposal one => ?_⟩
      have implements : trial.2.Implements :=
        Rule.implementing_implements _ (Rule.mem_implementing _ listed kind)
      obtain ⟨shape, gives⟩ :=
        implements.isForm (Rule.standard_inner _ listed) before.valid stands done proposal one
      exact ⟨shape, fun form group same => each form
        ⟨trials, trial, source, tried, inside, stored, gives form group same⟩⟩
    obtain ⟨more, rules, listed⟩ := carried.addsForms before.valid shapes
    refine ⟨before.trans more, rules, fun trial member => ?_⟩
    have among := listed trial member
    rw [map_fst_results proposed] at among
    obtain ⟨known, _, source, stored⟩ := old trial (List.mem_of_mem_take among)
    exact ⟨known, lt_of_expr stored⟩

/-- **A phase of implementation** adds forms only, those that its rounds make, whether or not it is
aborted, and tries rules on expressions that were there before it. -/
theorem Loop.addsForms {count : Nat} {outcome : Except Abort Unit}
    (loop : Loop .implementation root search count log (.ok (outcome, final)))
    (standard : ∀ rule ∈ search.rules, rule ∈ Rule.standard)
    (before : AddsForms made first search.context.memo)
    (each : ∀ derived, Starts .implementation root search derived →
      ∀ form, Made first root derived form → made form) :
    AddsForms made first final.context.memo ∧ Listed search.rules first log := by
  generalize ended : (Except.ok (outcome, final) : Except Fault _) = result at loop
  induction loop with
  | fault => cases ended
  | abort _ worked =>
    cases ended
    exact (worked.addsForms standard before fun _ derives => each _ (.first derives)).imp_right And.right
  | last _ worked =>
    cases ended
    exact (worked.addsForms standard before fun _ derives => each _ (.first derives)).imp_right And.right
  | again one worked _ ih =>
    obtain ⟨more, rules, listed⟩ :=
      worked.addsForms standard before fun _ derives => each _ (.first derives)
    obtain ⟨all, others⟩ :=
      ih (rules ▸ standard) more (fun _ starts => each _ (.later one starts)) ended
    exact ⟨all, List.forall_mem_append.2 ⟨listed, rules ▸ others⟩⟩

end Search

end Cascades
