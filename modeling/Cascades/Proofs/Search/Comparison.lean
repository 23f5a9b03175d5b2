/-
**Exploration never costs the plan.**

Two searches from one memo begin by deriving the same properties, and from then on what they know of the
groups that were there at first stays. So both judge the implementing rules alike on the expressions that
were there at first. One of them explores nothing: each form that it adds is one that some rule gave such
an expression. Where the other one reaches no limit, it applies the rule as well, and has the form in the
same group, whatever else it explores. So it has all trees of the first search, and its best tree costs
no more.

* `Starts.extends`, `phase_extends`: what a search knows of a group at first stays;
* `implemented_made`: the forms that a search adds, if it explores nothing;
* `exists_applied_again`, `exists_member`: another search makes them as well, if it reaches no limit;
* `covers_reference`: so it has all trees of the first search;
* `optimize_explored_atMost`: the plan of the other search costs no more.
-/

import Cascades.Proofs.Plan.Transfer
import Cascades.Proofs.Rule.Lasting
import Cascades.Proofs.Search.Evidence
import Cascades.Proofs.Search.GroupLimit

namespace Cascades.Search

open Memo

variable {kind : RuleKind} {root : GroupId} {search next derived final : Search} {first : Context}
  {breadth : GroupId → Breadth}

/-! ### What is known stays -/

theorem extends_of_derive (extending : first.Extends search.context) {outcome : Except Abort PUnit}
    (derives : onContext Context.deriveAll search = .ok (outcome, derived)) :
    first.Extends derived.context := by
  obtain ⟨context, done, rfl⟩ := Action.onPart_eq_ok_iff.1 derives
  exact extending.derive done

theorem Committed.extends (extending : first.Extends search.context) {trial : Trial}
    {proposals : List Proposal} {added : Nat} (committed : search.Committed trial proposals added next) :
    first.Extends next.context := by
  obtain ⟨valid, grows⟩ := committed.keeps extending.valid
  obtain ⟨_, memo, _, _, rfl⟩ := committed
  exact ⟨valid, extending.grows.trans grows, extending.catalog, extending.retains.scalar,
    extending.retains.relational⟩

/-- **A round** derives all properties, and what is known then stays. -/
theorem round_extends {more : Bool} (done : round kind root search = .ok (.ok more, final)) :
    ∃ derived, onContext Context.deriveAll search = .ok (.ok ⟨⟩, derived) ∧
      ∀ first : Context, first.Extends derived.context → first.Extends final.context := by
  rcases round_cases done with ⟨_, same, _⟩ | ⟨derived, trials, derives, _, ends⟩
  · cases same
  refine ⟨derived, derives, fun first extending => ?_⟩
  rcases ends with ⟨_, _, rfl⟩ | ⟨results, count, _, _, commits, _⟩
  · exact extending
  · have onward : ∀ trial proposals before added after, (trial, .ok proposals) ∈ results →
        Committed before trial proposals added after →
          first.Extends before.context → first.Extends after.context :=
      fun _ _ _ _ _ _ committed extending => committed.extends extending
    exact commitAll_relates (fun _ extending => extending)
      (fun _ _ _ one two extending => two (one extending)) onward commits extending

/-- What is known before some rounds stays. -/
theorem rounds_extends {fuel : Nat} (extending : first.Extends search.context)
    (done : rounds kind root fuel search = .ok (.ok ⟨⟩, final)) : first.Extends final.context := by
  induction fuel generalizing search with
  | zero =>
    cases done
    exact extending
  | succ fuel ih =>
    rcases rounds_cases done with one | ⟨next, one, others⟩
    · obtain ⟨derived, derives, onward⟩ := round_extends one
      exact onward first (extends_of_derive extending derives)
    · obtain ⟨derived, derives, onward⟩ := round_extends one
      exact ih (onward first (extends_of_derive extending derives)) others

/-- **What is known before a phase** stays where its rounds work. -/
theorem Starts.extends (starts : Starts kind root search derived)
    (extending : first.Extends search.context) : first.Extends derived.context := by
  induction starts with
  | first derives => exact extends_of_derive extending derives
  | later one _ ih =>
    obtain ⟨_, derives, onward⟩ := round_extends one
    exact ih (onward first (extends_of_derive extending derives))

/-- **A phase** derives all properties first, and what is known then stays until its end. -/
theorem phase_extends (done : phase kind root search = .ok (.ok ⟨⟩, final)) :
    ∃ derived, onContext Context.deriveAll search = .ok (.ok ⟨⟩, derived) ∧
      ∀ first : Context, first.Extends derived.context → first.Extends final.context := by
  rcases phase_cases done with one | ⟨next, one, others⟩
  · exact round_extends one
  · obtain ⟨derived, derives, onward⟩ := round_extends one
    exact ⟨derived, derives, fun first extending => rounds_extends (onward first extending) others⟩

/-- The settings stay. -/
theorem Starts.config_eq (starts : Starts kind root search derived) :
    derived.config = search.config := by
  induction starts with
  | first derives =>
    obtain ⟨context, _, rfl⟩ := onContext_deriveAll derives
    rfl
  | later one _ ih =>
    obtain ⟨_, config, _⟩ := round_below_limits one (Or.inl rfl)
    exact ih.trans config

/-- Both phases go on from what is known before them. -/
theorem GoesThrough.extends {explored implemented : Search}
    (through : GoesThrough root breadth search explored implemented) :
    search.context.Extends implemented.context :=
  rounds_extends (rounds_extends (.refl through.formed.toValid) through.explores)
    through.implements

/-! ### A search that explores nothing -/

section Comparison

variable {memo : Memo} {catalog : Catalog} {plain full : Config} {model : CostModel}
  {reference explored implemented : Search}

/-- Where all exploring rules are switched off, exploring derives all properties only. -/
theorem derives_of_still
    (still : ∀ rule ∈ Rule.standard, rule.kind = .exploration → plain.isDisabled rule.name = true)
    (explores : explore root (ofMemo memo catalog Rule.standard plain) = .ok (.ok ⟨⟩, derived)) :
    onContext Context.deriveAll (ofMemo memo catalog Rule.standard plain) = .ok (.ok ⟨⟩, derived) := by
  refine derives_of_phase explores fun start trials derives tried => ?_
  obtain ⟨context, _, rfl⟩ := onContext_deriveAll derives
  refine List.eq_nil_iff_forall_not_mem.2 fun ⟨id, rule⟩ member => ?_
  obtain ⟨_, listed, eligible, _⟩ := (mem_trials_iff tried).1 member
  have off := still rule listed eligible.sameKind
  have on : plain.isDisabled rule.name = false := eligible.enabled
  rw [on] at off
  cases off

/-- **Another search** derives the same first, and keeps it while it explores. -/
theorem extends_explored (valid : memo.Valid) (sameDepth : plain.maxDepth = full.maxDepth)
    (derives : onContext Context.deriveAll (ofMemo memo catalog Rule.standard plain) =
      .ok (.ok ⟨⟩, derived))
    (explores : explore root (ofMemo memo catalog Rule.standard full) = .ok (.ok ⟨⟩, explored)) :
    derived.context.Extends explored.context := by
  obtain ⟨begun, again, onward⟩ := phase_extends explores
  obtain ⟨one, done, rfl⟩ := Action.onPart_eq_ok_iff.1 derives
  obtain ⟨two, doneToo, rfl⟩ := Action.onPart_eq_ok_iff.1 again
  have started : (ofMemo memo catalog Rule.standard plain).context =
      (ofMemo memo catalog Rule.standard full).context := by
    unfold ofMemo
    rw [sameDepth]
  rw [started, doneToo] at done
  obtain ⟨_, rfl⟩ := Prod.mk.inj (Except.ok.inj done)
  have start : (ofMemo memo catalog Rule.standard full).context.Extends two :=
    Context.Extends.derive (.refl valid) doneToo
  exact onward two (.refl start.valid)

variable (built : memo.Built)
  (still : ∀ rule ∈ Rule.standard, rule.kind = .exploration → plain.isDisabled rule.name = true)
  (one : GoesThrough root breadth (ofMemo memo catalog Rule.standard plain) derived reference)
include still one

/-- **What a search adds that explores nothing**: forms that its rounds make. -/
theorem implemented_made :
    AddsForms (fun form => ∃ later, Starts .implementation root derived later ∧
      Made memo root later form) memo reference.context.memo := by
  have derives := derives_of_still still one.explores
  obtain ⟨context, same, rfl⟩ := onContext_deriveAll derives
  have same : context.memo = memo := same.memo
  obtain ⟨_, log, _, loop⟩ : ∃ count log, _ ∧ Loop .implementation root _ count log _ := phase_loop
  rw [show phase .implementation root _ = .ok (.ok ⟨⟩, reference) from one.implements] at loop
  have valid : memo.Valid := one.formed.toValid
  refine (loop.addsForms (fun _ member => member) ?_ fun later starts form made => ?_).1
  · rw [same]
    exact .refl valid
  · exact ⟨later, starts, made⟩

variable (sameDepth : plain.maxDepth = full.maxDepth)
  (implementing : ∀ rule ∈ Rule.standard, rule.kind = .implementation →
    plain.isDisabled rule.name = false → full.isDisabled rule.name = false)
  (other : GoesThrough root breadth (ofMemo memo catalog Rule.standard full) explored implemented)
  (few : implemented.iterations < implemented.config.maxIterations)
  (room : implemented.isFull = false)
include sameDepth implementing other few room

/-- **What the one search tries, the other one tries** below the root, if it reaches no limit: both judge
a rule alike. -/
theorem exists_applied_again {later : Search} {trials : List Trial} {id : ExprId} {rule : Rule}
    {source : Expr} (starts : Starts .implementation root derived later)
    (listed : later.trials .implementation root = .ok trials) (tried : (id, rule) ∈ trials)
    (stored : memo.exprs[id]? = some source)
    (reaches : implemented.context.memo.Reaches root source.group) :
    rule ∈ Rule.implementing ∧ ∃ again after,
      Derived (ofMemo memo catalog Rule.standard full) breadth again after ∧
        Applied .implementation root again implemented id rule := by
  have derives := derives_of_still still one.explores
  -- What both searches derive at first.
  obtain ⟨_, first⟩ : ∃ sorts, Derived (ofMemo memo catalog Rule.standard plain) breadth derived sorts :=
    have begins : Starts .exploration root (ofMemo memo catalog Rule.standard plain) derived :=
      .first derives
    begins.exists_derived one.standard one.relational.inside (.refl one.formed)
  obtain ⟨context, same, rfl⟩ := onContext_deriveAll derives
  have same : context.memo = memo := same.memo
  have valid : memo.Valid := one.formed.toValid
  -- What the first search found out about the rule.
  obtain ⟨below, known, eligible, promise, judged, worth⟩ := (mem_trials_iff listed).1 tried
  obtain ⟨_, made⟩ := starts.exists_derived one.standard one.relational.inside one.explored_continues
  have rules : later.rules = Rule.standard := made.rules
  have standard : rule ∈ Rule.standard := rules ▸ known
  have kind : rule.kind = .implementation := eligible.sameKind
  have early := starts.extends (.refl (same ▸ valid))
  have held := early.grows.exprs (same ▸ stored)
  obtain ⟨_, operator, there, logical⟩ := below.exists_logical
  obtain rfl := Option.some.inj (held.symm.trans there)
  obtain ⟨_, again, matching⟩ := eligible.root
  obtain rfl := Option.some.inj (held.symm.trans again)
  -- What the other one finds out in its last round.
  obtain ⟨last, begins, finished⟩ := rounds_finish (Nat.lt_succ_self _) other.implements few room
  have late := begins.extends (extends_explored valid sameDepth derives other.explores)
  have there : implemented.context.memo.exprs[id]? = some source := by
    rw [finished.exprs]
    exact late.grows.exprs (same ▸ stored)
  have implements : rule ∈ Rule.implementing := Rule.mem_implementing rule standard kind
  have lasting : rule.Lasting := Rule.implementing_lasting rule implements
  have again : rule.promise last.context id = .ok promise :=
    lasting.alike (Rule.standard_sure rule standard) first.ready (same ▸ stored) matching early late
      judged
  obtain ⟨_, develops⟩ := other.implemented_continues.develops
  have allowed : implemented.config.isDisabled rule.name = false := by
    rw [other.implemented_config]
    refine implementing rule standard kind ?_
    have on := eligible.enabled
    rw [starts.config_eq] at on
    exact on
  have marked := finished.isMarked (reaches.below develops.formed.toLinked there logical)
    (other.implemented_continues.rules ▸ standard) kind allowed there matching again worth
  exact ⟨implements, other.exists_applied standard kind marked⟩

include built

/-- **Each form has a counterpart** below the root after a search that reaches no limit, and stands beside
an expression that was there at first. -/
theorem exists_member {number : ExprId} {form : Expr} {operator : PhysicalOp}
    (stored : reference.context.memo.exprs[number]? = some form)
    (physical : form.operator = .physical operator)
    (reaches : implemented.context.memo.Reaches root form.group) :
    ∃ (id place : ExprId) (source twin : Expr), memo.exprs[id]? = some source ∧
      form.children = source.children ∧ implemented.context.memo.exprs[place]? = some twin ∧
      twin.operator = form.operator ∧ twin.children = source.children ∧
      twin.group = form.group := by
  rcases (implemented_made still one).added stored with old | ⟨_, later, starts, made⟩
  · have logical := built.isPhysical_eq old
    rw [physical] at logical
    cases logical
  obtain ⟨trials, ⟨id, rule⟩, source, listed, tried, there, gives⟩ := made
  have reaches : implemented.context.memo.Reaches root source.group := gives.group ▸ reaches
  obtain ⟨member, again, after, derived, applied⟩ :=
    exists_applied_again still one sameDepth implementing other few room starts listed tried there
      reaches
  obtain ⟨_, develops⟩ := other.implemented_continues.develops
  have now : implemented.context.memo.exprs[id]? = some source := develops.grows.exprs there
  obtain ⟨family, arity, pattern⟩ := Rule.implementing_overLeaves rule member
  have before := derived.develops.formed
  obtain ⟨binding, alternatives, _, drawn, shown, _, groups, transformed, resolved⟩ :=
    applied.exists_binding before.toValid before.logicalFirst pattern isLeaf_of_replicate now
  -- The rule proposes the same for both bindings.
  obtain ⟨context, another, others, like, likeGroups, done, proposed⟩ := gives.proposes
  have uniform : rule.Uniform := Rule.implementing_uniform rule member
  have same : rule.transform again.context binding = .ok others :=
    (uniform (shown.trans like.symm) (groups.trans likeGroups.symm)).trans done
  obtain rfl := Except.ok.inj (transformed.symm.trans same)
  have implements : rule.Implements := Rule.implementing_implements rule member
  obtain ⟨chosen, implemented, same⟩ := implements drawn transformed _ proposed
  obtain ⟨kindly, _⟩ := Proposal.overGroups_inj same
  obtain rfl := Operator.physical.inj (physical.symm.trans kindly)
  obtain ⟨place, twin, stands, same, children, group⟩ :=
    exists_form develops.formed now (shown.symm.trans implemented)
      (physical ▸ resolved _ proposed)
  exact ⟨id, place, source, twin, there, gives.children, stands, same.trans physical.symm, children,
    group.trans gives.group.symm⟩

/-- **The memo of the other search covers** the one of the search that explores nothing. -/
theorem covers_reference :
    Plan.Covers (implemented.context.memo.Reaches root)
      (Plan.Setting.ofMemo reference.context.memo catalog reference.context.guard model)
      (Plan.Setting.ofMemo implemented.context.memo catalog implemented.context.guard model) where
  model := rfl
  statistics {id value} given := by
    obtain ⟨_, develops⟩ := one.implemented_continues.develops
    obtain ⟨_, developsToo⟩ := other.implemented_continues.develops
    have after := develops.formed
    have there := (Plan.statistics_ofMemo_iff after.toValid after.laid after.logicalFirst).1 given
    have size := (implemented_made still one).size_eq
    have inside : id < memo.groups.size := size ▸ there.1.inside
    rw [Plan.statistics_developed_iff one.formed develops inside] at given
    exact (Plan.statistics_developed_iff one.formed developsToo inside).2 given
  members {number form operator} stored physical inside := by
    obtain ⟨id, place, source, twin, there, children, stands, same, childrenToo, group⟩ :=
      exists_member built still one sameDepth implementing other few room stored physical inside
    obtain ⟨_, develops⟩ := one.implemented_continues.develops
    obtain ⟨_, developsToo⟩ := other.implemented_continues.develops
    have linked := one.formed.toLinked
    have below : implemented.context.memo.relationalChildren twin =
        reference.context.memo.relationalChildren form := by
      have own := develops.grows.relationalChildren linked there
      have others := developsToo.grows.relationalChildren linked there
      unfold relationalChildren at own others ⊢
      rw [childrenToo, children]
      exact others.trans own.symm
    refine ⟨place, twin, stands, same, group, below, fun child member => ?_⟩
    have relational := other.relational.mono developsToo.grows
    exact (group ▸ inside).child developsToo.formed.toLinked stands relational (below ▸ member)

end Comparison

/-! ### Both plans -/

/-- **Exploration never costs the plan.** A search from a memo of well-formed logical expressions gives a
plan, all exploring rules switched off. Then a search from the same memo, with whatever exploring rules
and at least the same implementing ones, gives a plan that costs no more, if it is not stopped and
reaches no limit. -/
theorem optimize_explored_atMost {memo : Memo} {catalog : Catalog} {plain full : Config}
    {model : CostModel} (built : memo.Built) (sameDepth : plain.maxDepth = full.maxDepth)
    (still : ∀ rule ∈ Rule.standard, rule.kind = .exploration → plain.isDisabled rule.name = true)
    (implementing : ∀ rule ∈ Rule.standard, rule.kind = .implementation →
      plain.isDisabled rule.name = false → full.isDisabled rule.name = false)
    (lawful : ∀ memo guard, Plan.Lawful (Plan.Setting.ofMemo memo catalog guard model)) {plan : Plan}
    (planned : optimize model root (ofMemo memo catalog Rule.standard plain) =
      .ok (.ok (some plan), final))
    (unstopped : ∀ abort last, abort.stopsSearch = true →
      optimize model root (ofMemo memo catalog Rule.standard full) ≠ .ok (.error abort, last))
    (unhit : ∀ outcome last,
      optimize model root (ofMemo memo catalog Rule.standard full) = .ok (outcome, last) →
        last.iterations < last.config.maxIterations ∧ last.isFull = false) :
    ∃ better last, optimize model root (ofMemo memo catalog Rule.standard full) =
      .ok (.ok (some better), last) ∧ Plan.AtMost better.cost plan.cost := by
  obtain ⟨breadth, formed⟩ := built.formed
  obtain ⟨derived, reference, one, given, -⟩ := goesThrough_of_optimize built formed planned
  obtain ⟨outcome, last, done, ends⟩ := one.optimize_ends built model full
  cases outcome with
  | error abort => exact absurd done (unstopped abort last ends)
  | ok found =>
  obtain ⟨few, room⟩ := unhit _ _ done
  obtain ⟨explored, implemented, other, chosen, rfl⟩ := goesThrough_of_optimize built formed done
  have room : implemented.isFull = false := isFull_close.symm.trans room
  have covers : Plan.Covers (implemented.context.memo.Reaches root) (reference.setting model)
      (implemented.setting model) := by
    unfold setting
    rw [one.extends.catalog, other.extends.catalog]
    exact covers_reference built still one sameDepth implementing other few room
  have tree : Plan.Tree (reference.setting model) root plan :=
    (right_of_cheapest one.implemented_continues one.relational given).1.tree plan rfl
  -- The tree has a twin, so the other search finds a plan, and it is the best one.
  obtain ⟨_, develops⟩ := other.implemented_continues.develops
  have linked := develops.formed.toLinked
  have rooted := (linked.reaches_closed (other.relational.mono develops.grows)).1
  obtain ⟨twin, there, _⟩ := tree.exists_twin covers rooted
  have some : found.isSome = true :=
    (isSome_iff_planned other.implemented_continues other.relational chosen).2 there.planned
  obtain ⟨better, rfl⟩ := Option.isSome_iff_exists.1 some
  have ordered : Plan.Lawful (implemented.setting model) := by
    unfold setting
    rw [other.extends.catalog]
    exact lawful _ _
  have best : Plan.Optimal (implemented.setting model) root better :=
    (right_of_cheapest other.implemented_continues other.relational chosen).2.optimal linked ordered
  exact ⟨better, _, done, covers.atMost best.isLeast tree rooted⟩

/-- All exploring rules switched off. -/
def unexplored : Config where
  disabledRules := (Rule.standard.filter fun rule => rule.kind == .exploration).map Rule.name

/-- Items of orders, and offers below their prices. The upper join is no equality, and another order of
the tables has an equality at its top. -/
def itemsWithOffers : List (Operator × List GroupId) :=
  [(.logical (.get ⟨"shop", "orders"⟩ [⟨1, none, "item"⟩]), []),
    (.logical (.get ⟨"shop", "items"⟩ [⟨2, none, "price"⟩]), []),
    (.logical (.get ⟨"shop", "offers"⟩ [⟨3, none, "price"⟩]), []),
    (.scalar (.column ⟨1, none, "item"⟩), []), (.scalar (.column ⟨2, none, "price"⟩), []),
    (.scalar (.column ⟨3, none, "price"⟩), []),
    (.scalar (.binary .eq), [3, 4]), (.logical (.join .inner), [0, 1, 6]),
    (.scalar (.binary .lt), [5, 4]), (.logical (.join .inner), [7, 2, 8])]

/-- What the end of a search shows: the operator of the plan, and whether no limit was reached. -/
def choiceOf (root : GroupId) (memo : Memo) (config : Config) : Option (PhysicalOp × Bool) :=
  (optimize Plan.byOperator root (ofMemo memo {} Rule.standard config)).toOption.bind fun ended =>
    ended.1.toOption.bind fun found => found.map fun plan =>
      (plan.operator, ended.2.iterations < ended.2.config.maxIterations && !ended.2.isFull)

theorem exists_choice {memo : Memo} {config : Config} {operator : PhysicalOp} {below : Bool}
    (shown : choiceOf root memo config = some (operator, below)) :
    ∃ plan final, optimize Plan.byOperator root (ofMemo memo {} Rule.standard config) =
        .ok (.ok (some plan), final) ∧ plan.operator = operator ∧
      (below = true → final.iterations < final.config.maxIterations ∧ final.isFull = false) := by
  obtain ⟨⟨outcome, final⟩, done, ended⟩ := Option.bind_eq_some_iff.1 shown
  obtain ⟨found, given, ended⟩ := Option.bind_eq_some_iff.1 ended
  obtain ⟨plan, rfl, same⟩ := Option.map_eq_some_iff.1 ended
  obtain ⟨rfl, rfl⟩ := Prod.mk.inj same
  obtain rfl : outcome = .ok (some plan) := toOption_eq_some_iff.1 given
  refine ⟨plan, final, toOption_eq_some_iff.1 done, rfl, fun unhit => ?_⟩
  obtain ⟨few, room⟩ := Bool.and_eq_true_iff.1 unhit
  exact ⟨of_decide_eq_true few, by simpa using room⟩

/-- Exploration finds an order of the joins with an equality at its top, which can be hashed. -/
theorem optimize_explored_atMost_itemsWithOffers :
    ∃ memo plan final better last, Memo.empty.build? itemsWithOffers = some memo ∧
      optimize Plan.byOperator 9 (ofMemo memo {} Rule.standard unexplored) =
        .ok (.ok (some plan), final) ∧ plan.operator = .nestedLoopJoin .inner ∧
      optimize Plan.byOperator 9 (ofMemo memo {} Rule.standard {}) =
        .ok (.ok (some better), last) ∧ better.operator = .hashJoin .inner ∧
      Plan.AtMost better.cost plan.cost := by
  have shown : (Memo.empty.build? itemsWithOffers).map (fun memo =>
      (choiceOf 9 memo unexplored, choiceOf 9 memo {})) =
      some (some (.nestedLoopJoin .inner, true), some (.hashJoin .inner, true)) := by
    decide +kernel
  obtain ⟨memo, made, shown⟩ := Option.map_eq_some_iff.1 shown
  obtain ⟨first, second⟩ := Prod.mk.inj shown
  obtain ⟨plan, final, planned, nested, _⟩ := exists_choice first
  obtain ⟨hashed, last, done, hash, unhit⟩ := exists_choice second
  have still : ∀ rule ∈ Rule.standard, rule.kind = .exploration →
      unexplored.isDisabled rule.name = true := by decide
  have sameDepth : unexplored.maxDepth = Config.maxDepth {} := rfl
  have built : memo.Built := Built.empty.build? made
  obtain ⟨better, _, again, most⟩ := optimize_explored_atMost built sameDepth still
    (fun _ _ _ _ => rfl) (fun _ _ => Plan.byOperator_lawful) planned
    (fun abort other _ stopped => by
      rw [done] at stopped
      cases stopped)
    (fun outcome other same => by
      rw [done] at same
      cases same
      exact unhit rfl)
  rw [done] at again
  cases again
  exact ⟨memo, plan, final, hashed, last, made, planned, nested, done, hash, most⟩

end Cascades.Search
