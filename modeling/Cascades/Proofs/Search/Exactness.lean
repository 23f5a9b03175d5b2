/-
**Implementation is exact.**

A phase of implementation starts from a memo of well-formed logical expressions, in which a group may be
below itself. What its rules look at stays while physical forms are added, so in whatever round a rule
comes to an expression, it finds the same. A phase that reaches no limit comes to all expressions below
the root with all rules, so in the end the physical members of their groups are exactly the images of
their logical members.

* `Untouched`: the memos it starts from; `ImageOf`: a physical form that is an image;
* `Implementing`: what holds in all rounds; `Implementing.round`, `Starts.implementing`;
* `Implementing.image_of_made`, `Implementing.exists_source`: each form that is added is an image;
* `Implementing.isMarked`: what the rules for all images of an expression leave on it;
* `Applied.exists_formed`: a rule that was applied to an expression leaves its operator in the memo;
* `implement_exact`: both directions.
-/

import Cascades.Proofs.Rule.Image
import Cascades.Proofs.Search.Comparison

namespace Cascades

variable {memo next first : Memo} {root id : GroupId} {number : ExprId} {source form expr : Expr}
  {made : Expr → Prop}

namespace Memo

/-! ### Memos of logical expressions -/

/-- **A memo of well-formed expressions with which nothing was done yet**: none is physical, and no rule
was applied. Any group may be below any other one. -/
structure Untouched (memo : Memo) : Prop extends memo.Valid where
  laid : memo.Laid
  unimplemented : ∀ {id : ExprId} {expr : Expr}, memo.exprs[id]? = some expr →
    expr.operator.isPhysical = false
  unmarked : ∀ id mark, memo.isMarked id mark = false

/-- Its relational groups begin with logical members, for they have no other ones. -/
theorem Untouched.logicalFirst (untouched : memo.Untouched) : memo.LogicalFirst := by
  intro id group there family
  have place := Array.getElem?_eq_getElem (untouched.inhabited there)
  obtain ⟨expr, stored, rfl, _⟩ := untouched.listed there place
  have relational := (untouched.family stored there).trans family
  have plain := untouched.unimplemented stored
  cases shown : expr.operator with
  | logical operator => exact ⟨_, expr, operator, place, stored, shown⟩
  | physical operator =>
    rw [shown] at plain
    cases plain
  | scalar operator =>
    rw [shown] at relational
    cases relational

/-- Whether a memo is such a one, as far as expressions and marks show it. -/
def isUntouched (memo : Memo) : Bool :=
  memo.marks.isEmpty && memo.exprs.toList.all fun expr =>
    !expr.operator.isPhysical && decide (memo.Fits expr.operator expr.children)

theorem Valid.untouched (valid : memo.Valid) (checked : memo.isUntouched = true) :
    memo.Untouched := by
  obtain ⟨unmarked, each⟩ := Bool.and_eq_true_iff.1 checked
  have all : ∀ {id : ExprId} {expr : Expr}, memo.exprs[id]? = some expr →
      expr.operator.isPhysical = false ∧ memo.Fits expr.operator expr.children := by
    intro id expr stored
    have listed := Array.mem_toList_iff.2 (Array.mem_of_getElem? stored)
    simpa using List.all_eq_true.1 each expr listed
  refine ⟨valid, fun stored => (all stored).2, fun stored => (all stored).1, fun id mark => ?_⟩
  unfold isMarked
  rw [Std.TreeMap.getD_of_isEmpty unmarked]
  rfl

/-! ### Memos with images -/

/-- **A physical form that is an image** of an expression and stands beside it. -/
def ImageOf (first : Memo) (form : Expr) : Prop :=
  ∃ (number : ExprId) (source : Expr) (operator : PhysicalOp), first.exprs[number]? = some source ∧
    first.Image source operator ∧ form.operator = .physical operator ∧ form.group = source.group ∧
    form.children = source.children

/-- Where only physical forms are added, relational groups still begin with logical members. -/
theorem AddsForms.logicalFirst (adds : AddsForms made first next) (valid : first.Valid)
    (headed : first.LogicalFirst) : next.LogicalFirst := by
  intro id group there family
  obtain ⟨before, old⟩ := group_of_lt (adds.size_eq ▸ lt_of_group there)
  obtain ⟨again, same, families, _⟩ := adds.grows.groups old
  obtain rfl := Option.some.inj (there.symm.trans same)
  have relational : first.Relational id := ⟨before, old, families.symm.trans family⟩
  obtain ⟨expr, found⟩ := valid.exists_firstMember relational.inside
  obtain ⟨operator, logical, _⟩ := LogicalFirst.firstLogical_eq headed relational found
  obtain ⟨_, member, same, place, stored⟩ := firstMember_ok_iff.1 (adds.grows.firstMember found)
  obtain rfl := Option.some.inj (there.symm.trans same)
  exact ⟨member, expr, operator, place, stored, logical⟩

section Images

variable (adds : AddsForms first.ImageOf first next)
include adds

/-- Images take the children that their expressions take. -/
theorem AddsForms.laid (valid : first.Valid) (laid : first.Laid) : next.Laid := by
  have families : ∀ {number : ExprId} {source : Expr}, first.exprs[number]? = some source →
      source.children.map next.isScalarGroup = source.children.map first.isScalarGroup :=
    fun stored => List.map_congr_left fun child member =>
      adds.grows.isScalarGroup_eq (valid.childExists stored member)
  intro number expr stored
  rcases adds.added stored with old | ⟨_, _, source, operator, old, image, physical, _, children⟩
  · obtain ⟨inputs, breadth, same, takes⟩ := laid old
    exact ⟨inputs, breadth, same.trans (families old).symm, takes⟩
  · obtain ⟨inputs, breadth, same, takes⟩ := laid old
    rw [(image_iff.1 image).1] at takes
    rw [physical, children]
    refine ⟨inputs, breadth, same.trans (families old).symm, ?_⟩
    cases takes with
    | logical takes => exact .physical takes

/-- What lies below an image lies below its expression. -/
theorem AddsForms.groupsBelow_iff (valid : first.Valid) {upper child : GroupId} :
    child ∈ next.groupsBelow upper ↔ child ∈ first.groupsBelow upper := by
  have linked := valid.toLinked
  rw [adds.valid.mem_groupsBelow_iff, linked.mem_groupsBelow_iff]
  constructor
  · rintro ⟨number, expr, stored, rfl, below⟩
    rcases adds.added stored with old | ⟨_, other, source, _, old, _, _, group, children⟩
    · exact ⟨number, expr, old, rfl, adds.grows.relationalChildren linked old ▸ below⟩
    · refine ⟨other, source, old, group.symm, ?_⟩
      rw [← adds.grows.relationalChildren linked old]
      unfold relationalChildren at below ⊢
      rwa [← children]
  · rintro ⟨number, expr, stored, rfl, below⟩
    exact ⟨number, expr, adds.grows.exprs stored, rfl,
      (adds.grows.relationalChildren linked stored).symm ▸ below⟩

/-- **The same groups are below a root.** -/
theorem AddsForms.reaches_iff (valid : first.Valid) : next.Reaches root id ↔ first.Reaches root id := by
  constructor
  · intro reaches
    have relational : first.Relational root := by
      obtain ⟨group, there, family⟩ := reaches.relational
      obtain ⟨before, old⟩ := group_of_lt (adds.size_eq ▸ lt_of_group there)
      obtain ⟨again, same, families, _⟩ := adds.grows.groups old
      obtain rfl := Option.some.inj (there.symm.trans same)
      exact ⟨before, old, families.symm.trans family⟩
    obtain ⟨rooted, closed⟩ := valid.reaches_closed relational
    exact reaches.least rooted fun reached below =>
      closed reached ((adds.groupsBelow_iff valid).1 below)
  · intro reaches
    obtain ⟨rooted, closed⟩ := adds.valid.reaches_closed (reaches.relational.mono adds.grows)
    exact reaches.least rooted fun reached below =>
      closed reached ((adds.groupsBelow_iff valid).2 below)

end Images

end Memo

namespace Search

open Memo

variable {search derived final : Search}

/-! ### Rounds of implementation -/

/-- **What holds in all rounds of implementation**: physical forms were added, images all of them, and
nothing that is known is out of date. -/
structure Implementing (first : Memo) (search : Search) : Prop where
  standard : search.rules = Rule.standard
  fresh : search.context.Fresh
  adds : AddsForms first.ImageOf first search.context.memo

theorem Implementing.refl (untouched : search.context.memo.Untouched)
    (current : search.context.Current) (standard : search.rules = Rule.standard) :
    Implementing search.context.memo search :=
  ⟨standard, ⟨untouched.toValid, untouched.logicalFirst, current⟩, .refl untouched.toValid⟩

theorem Implementing.derive (implementing : Implementing first search) {outcome : Except Abort PUnit}
    (derives : onContext Context.deriveAll search = .ok (outcome, derived)) :
    Implementing first derived := by
  obtain ⟨context, done, rfl⟩ := Action.onPart_eq_ok_iff.1 derives
  obtain ⟨log, derivations⟩ := Context.deriveAll_derives implementing.fresh.valid done
  have same := derivations.sameMemo.memo
  exact ⟨implementing.standard, implementing.fresh.derive derivations, same ▸ implementing.adds⟩

section Rounds

variable (valid : first.Valid) (laid : first.Laid)
include valid laid

/-- **A form that a trial makes** is an image: the rule judged the expression to be worth it. -/
theorem Implementing.image_of_made (implementing : Implementing first derived)
    (makes : Made first root derived form) : first.ImageOf form := by
  obtain ⟨trials, ⟨number, rule⟩, source, listed, member, stored, gives⟩ := makes
  obtain ⟨_, known, eligible, promise, judged, worth⟩ := (mem_trials_iff listed).1 member
  have implements : rule ∈ Rule.implementing :=
    Rule.mem_implementing rule (implementing.standard ▸ known) eligible.sameKind
  obtain ⟨context, binding, alternatives, like, _, transformed, proposed⟩ := gives.proposes
  obtain ⟨operator, physical, rfl, shown⟩ := Rule.exists_forming implements transformed proposed
  obtain ⟨grows, after⟩ := And.intro implementing.adds.grows implementing.adds.valid
  have image := (Rule.forming_worth_iff implementing.fresh (implementing.adds.laid valid laid)
    (grows.exprs stored) (like.symm.trans shown) judged).1 worth
  exact ⟨number, source, operator, stored, (grows.image_iff valid after stored).1 image, physical,
    gives.group, gives.children⟩

/-- **A round of implementation** adds images only. -/
theorem Implementing.round (implementing : Implementing first search) (headed : first.LogicalFirst)
    {more : Bool} (done : round .implementation root search = .ok (.ok more, final)) :
    Implementing first final := by
  obtain ⟨log, worked⟩ := round_worked done
  obtain ⟨adds, rules, _⟩ := worked.addsForms (implementing.standard ▸ fun _ listed => listed)
    implementing.adds fun derived derives form makes =>
      (implementing.derive derives).image_of_made valid laid makes
  refine ⟨rules.trans implementing.standard, ?_, adds⟩
  rcases round_cases done with ⟨_, same, _⟩ | ⟨derived, trials, derives, _, ends⟩
  · cases same
  have before := (implementing.derive derives).fresh
  rcases ends with ⟨_, _, rfl⟩ | ⟨results, count, _, _, commits, _⟩
  · exact before
  -- What is known stays as it is while trials are carried out.
  have onward : ∀ trial proposals one added two, (trial, .ok proposals) ∈ results →
      Committed one trial proposals added two →
        derived.context.Extends one.context ∧ one.context.facts = derived.context.facts →
        derived.context.Extends two.context ∧ two.context.facts = derived.context.facts :=
    fun _ _ _ _ _ _ committed kept =>
      ⟨committed.extends kept.1, committed.facts_eq.trans kept.2⟩
  have extending := commitAll_relates (fun _ kept => kept)
    (fun _ _ _ first second kept => second (first kept)) onward commits ⟨.refl before.valid, rfl⟩
  exact before.grow extending.1 extending.2 (adds.logicalFirst valid headed)

theorem Implementing.rounds (implementing : Implementing first search) (headed : first.LogicalFirst)
    {fuel : Nat} (done : rounds .implementation root fuel search = .ok (.ok ⟨⟩, final)) :
    Implementing first final := by
  induction fuel generalizing search with
  | zero =>
    cases done
    exact implementing
  | succ fuel ih =>
    rcases rounds_cases done with one | ⟨next, one, others⟩
    · exact implementing.round valid laid headed one
    · exact ih (implementing.round valid laid headed one) others

theorem Starts.implementing (starts : Starts .implementation root search derived)
    (implementing : Implementing first search) (headed : first.LogicalFirst) :
    Implementing first derived := by
  induction starts with
  | first derives => exact implementing.derive derives
  | later one _ ih => exact ih (implementing.round valid laid headed one)

end Rounds

/-! ### Applied rules -/

/-- **A rule that was applied to an expression** leaves its operator over the inputs in the memo. -/
theorem Applied.exists_formed {operator : PhysicalOp}
    (applied : Applied .implementation root derived final number (Rule.forming operator))
    (valid : derived.context.memo.Valid) (headed : derived.context.memo.LogicalFirst)
    (after : final.context.memo.Valid) (stored : final.context.memo.exprs[number]? = some source)
    (shown : source.operator = .logical operator.logical) :
    ∃ (other : ExprId) (form : Expr), final.context.memo.exprs[other]? = some form ∧
      form.operator = .physical operator ∧ form.children = source.children := by
  obtain ⟨kind, arity, pattern⟩ := Rule.forming_overLeaves operator
  obtain ⟨binding, alternatives, _, drawn, like, _, groups, transformed, resolved⟩ :=
    applied.exists_binding valid headed pattern isLeaf_of_replicate stored
  obtain rfl := Rule.forming_proposes drawn (like.trans shown) transformed
  obtain ⟨ids, other, form, below, there, equal, children, _⟩ :=
    (resolved _ List.mem_cons_self).exists_expr after
  rw [materializeAll_groups] at below
  cases below
  exact ⟨other, form, there, Operator.eq_of_beq equal rfl, children.trans groups⟩

/-- An image has a rule, which matches its expression. -/
theorem forming_matching_of_image {operator : PhysicalOp} (laid : first.Laid)
    (stored : first.exprs[number]? = some source) (image : first.Image source operator) :
    (Rule.forming operator).pattern.matchesRoot source.operator source.arity = true := by
  have shown := (image_iff.1 image).1
  obtain ⟨inputs, breadth, same, takes⟩ := laid stored
  have count := congrArg List.length same
  rw [List.length_map, List.length_map] at count
  rw [shown] at takes ⊢
  unfold Expr.arity
  rw [← count]
  cases takes with
  | logical takes => exact Rule.forming_matching takes

/-! ### Whole phases -/

section Whole

variable (untouched : first.Untouched)
include untouched

/-- **A physical form is an image**: an untouched memo has none, and only images were added. -/
theorem Implementing.exists_source (implementing : Implementing first search) {operator : PhysicalOp}
    (stored : search.context.memo.exprs[number]? = some form)
    (physical : form.operator = .physical operator) :
    ∃ (other : ExprId) (source : Expr), first.exprs[other]? = some source ∧
      first.Image source operator ∧ form.group = source.group ∧ form.children = source.children := by
  rcases implementing.adds.added stored with old | ⟨_, other, source, again, old, image, same, beside⟩
  · have plain := untouched.unimplemented old
    rw [physical] at plain
    cases plain
  · obtain rfl := Operator.physical.inj (physical.symm.trans same)
    exact ⟨other, source, old, image, beside⟩

/-- **In the end every expression below the root** has the mark of each rule that makes an image of it:
the rule was worth trying in the last round. -/
theorem Implementing.isMarked (implementing : Implementing first derived)
    (finished : Finished .implementation root derived final)
    (enabled : ∀ rule ∈ Rule.standard, final.config.isDisabled rule.name = false)
    (standard : final.rules = Rule.standard) (ended : Implementing first final)
    (stored : first.exprs[number]? = some source) (reaches : first.Reaches root source.group)
    {operator : PhysicalOp} (image : first.Image source operator) :
    final.context.memo.isMarked number (Rule.forming operator).mark = true := by
  have valid := untouched.toValid
  have laid : first.Laid := untouched.laid
  have shown := (image_iff.1 image).1
  have there := ended.adds.grows.exprs stored
  have below := ((ended.adds.reaches_iff valid).2 reaches).below ended.adds.valid.toLinked there shown
  have known := Rule.forming_mem operator
  refine (finished.isMarked_or_skips below (standard ▸ known) (Rule.forming_kind operator)
    (enabled _ known) there (forming_matching_of_image laid stored image)).resolve_right fun skips => ?_
  have last := (implementing.adds.grows.image_iff valid implementing.adds.valid stored).2 image
  exact (Rule.forming_worth_iff implementing.fresh (implementing.adds.laid valid laid)
    (implementing.adds.grows.exprs stored) shown skips).2 last rfl

end Whole

/-- **Implementation is exact.** It starts from a memo of well-formed logical expressions with which
nothing was done yet, with all standard rules, and is neither stopped nor reaches a limit, or leaves
nothing to try. Then the same groups are below the root as before. The physical members of such a group
are exactly the images of its logical members, each of them over the same inputs. -/
theorem implement_exact (untouched : search.context.memo.Untouched)
    (current : search.context.Current) (standard : search.rules = Rule.standard)
    (enabled : ∀ rule ∈ Rule.standard, search.config.isDisabled rule.name = false)
    (done : implement root search = .ok (.ok ⟨⟩, final))
    (unhit : (final.iterations < final.config.maxIterations ∧ final.isFull = false) ∨
      final.trials .implementation root = .ok []) :
    (∀ id, final.context.memo.Reaches root id ↔ search.context.memo.Reaches root id) ∧
    ∀ id, search.context.memo.Reaches root id → ∀ (operator : PhysicalOp) (children : List GroupId),
      (∃ (number : ExprId) (form : Expr), final.context.memo.exprs[number]? = some form ∧
        form.group = id ∧ form.operator = .physical operator ∧ form.children = children) ↔
      ∃ (number : ExprId) (source : Expr), search.context.memo.exprs[number]? = some source ∧
        source.group = id ∧ source.children = children ∧
        search.context.memo.Image source operator := by
  have valid := untouched.toValid
  have laid : search.context.memo.Laid := untouched.laid
  have headed : search.context.memo.LogicalFirst := untouched.logicalFirst
  have begun : Implementing search.context.memo search := .refl untouched current standard
  have ended : Implementing search.context.memo final := begun.rounds valid laid headed done
  have accounts := rounds_accounts (standard ▸ standard_distinct) valid done
  refine ⟨fun _ => ended.adds.reaches_iff valid, fun id reaches operator children => ⟨?_, ?_⟩⟩
  · rintro ⟨number, form, stored, rfl, physical, rfl⟩
    obtain ⟨other, source, old, image, group, same⟩ := ended.exists_source untouched stored physical
    exact ⟨other, source, old, group.symm, same.symm, image⟩
  · rintro ⟨number, source, old, rfl, rfl, image⟩
    obtain ⟨last, implementing, finished⟩ : ∃ last, Implementing search.context.memo last ∧
        Finished .implementation root last final := by
      rcases unhit with ⟨few, room⟩ | none
      · obtain ⟨last, starts, finished⟩ := rounds_finish (Nat.lt_succ_self _) done few room
        exact ⟨last, starts.implementing valid laid begun headed, finished⟩
      · exact ⟨final, ended, .of_no_trials none⟩
    have known : Rule.forming operator ∈ search.rules := standard ▸ Rule.forming_mem operator
    have marked := implementing.isMarked untouched finished (accounts.config ▸ enabled)
      (accounts.rules.trans standard) ended old reaches image
    -- So the rule was applied in some round.
    rcases accounts.marked number _ known marked with before | ⟨derived, starts, applied⟩
    · rw [untouched.unmarked] at before
      cases before
    have round := starts.implementing valid laid begun headed
    have shown := (image_iff.1 image).1
    obtain ⟨other, form, stands, physical, children⟩ := applied.exists_formed round.fresh.valid
      round.fresh.headed ended.adds.valid (ended.adds.grows.exprs old) shown
    -- The form is an image of this expression and of no other one, so it stands beside it.
    obtain ⟨twin, again, oldToo, imageToo, group, same⟩ :=
      ended.exists_source untouched stands physical
    have equal : (again.operator == source.operator) = true := by
      rw [(image_iff.1 imageToo).1, shown]
      exact ReflBEq.rfl
    obtain rfl := valid.unique oldToo old equal (same.symm.trans children)
    obtain rfl := Option.some.inj (oldToo.symm.trans old)
    exact ⟨other, form, stands, group, physical, children⟩

/-- A join of orders and items, a selection of it, and a selection of that one, which is put into the
group of the join. So the groups of the join and of the first selection are below each other. -/
def selectedAgain : List Request :=
  [.insert (.logical (.get ⟨"shop", "orders"⟩ [⟨1, none, "item"⟩])) [],
    .insert (.logical (.get ⟨"shop", "items"⟩ [⟨2, none, "number"⟩])) [],
    .insert (.scalar (.column ⟨1, none, "item"⟩)) [],
    .insert (.scalar (.column ⟨2, none, "number"⟩)) [],
    .insert (.scalar (.binary .eq)) [2, 3],
    .insert (.logical (.join .inner)) [0, 1, 4],
    .insert .truth [],
    .insert (.logical .select) [5, 6],
    .insertInto 5 (.logical .select) [7, 6]]

/-- What the phase shows: whether it started from an untouched memo and reached no limit, the groups below
the root, and group, inputs and operator of the forms with some numbers. -/
structure ImplementedEnding where
  unhit : Bool
  reached : Option (List GroupId)
  places : List (Option (GroupId × List GroupId))
  operators : Bool
  deriving DecidableEq

/-- The end of the phase for such a selection. -/
def implementedEnding (memo : Memo) (final : Search) : ImplementedEnding where
  unhit := memo.isUntouched && decide (final.iterations < final.config.maxIterations) && !final.isFull
  reached := (memo.reachable 7).toOption
  places := [11, 13].map fun number => final.context.memo.exprs[number]?.map fun form =>
    (form.group, form.children)
  operators := final.context.memo.hasOperator (· == .physical (.hashJoin .inner)) 11 &&
    final.context.memo.hasOperator (· == .physical .filter) 13

/-- Among the physical members of the group of the join are a hash join and a filter. They come from the
join and from the upper selection. -/
theorem implement_exact_selectedAgain :
    ∃ memo final, Memo.empty.performAll selectedAgain = .ok memo ∧
      implement 7 (ofMemo memo {} Rule.standard {}) = .ok (.ok ⟨⟩, final) ∧
      (∃ (number : ExprId) (source : Expr), memo.exprs[number]? = some source ∧ source.group = 5 ∧
        source.children = [0, 1, 4] ∧ memo.Image source (.hashJoin .inner)) ∧
      ∃ (number : ExprId) (source : Expr), memo.exprs[number]? = some source ∧ source.group = 5 ∧
        source.children = [7, 6] ∧ memo.Image source .filter := by
  have results : ((Memo.empty.performAll selectedAgain).toOption.bind fun memo =>
      (implement 7 (ofMemo memo {} Rule.standard {})).toOption.bind fun ended =>
        ended.1.toOption.map fun _ => implementedEnding memo ended.2) =
      some ⟨true, some [0, 1, 5, 7], [some (5, [0, 1, 4]), some (5, [7, 6])], true⟩ := by
    decide +kernel
  obtain ⟨memo, history, results⟩ := Option.bind_eq_some_iff.1 results
  obtain ⟨⟨outcome, final⟩, run, results⟩ := Option.bind_eq_some_iff.1 results
  obtain ⟨_, done, shown⟩ := Option.map_eq_some_iff.1 results
  simp only [implementedEnding, ImplementedEnding.mk.injEq, Bool.and_eq_true, decide_eq_true_eq, Bool.not_eq_true',
    List.map_cons, List.map_nil, List.cons.injEq, and_true] at shown
  obtain ⟨⟨⟨checked, few⟩, room⟩, reached, ⟨one, two⟩, oneIs, twoIs⟩ := shown
  obtain rfl : outcome = .ok ⟨⟩ := toOption_eq_some_iff.1 done
  have history := toOption_eq_some_iff.1 history
  have run := toOption_eq_some_iff.1 run
  have valid : memo.Valid := (performAll_keeps history Memo.empty_valid).1
  obtain ⟨_, exact⟩ := implement_exact (valid.untouched checked) Context.current_of_blank rfl
    (fun _ _ => rfl) run (Or.inl ⟨few, room⟩)
  have below : memo.Reaches 7 5 := ⟨_, toOption_eq_some_iff.1 reached, by decide⟩
  have member : ∀ {number : ExprId} {operator : PhysicalOp} {children : List GroupId},
      (final.context.memo.exprs[number]?.map fun form => (form.group, form.children)) =
        some (5, children) →
      final.context.memo.hasOperator (· == .physical operator) number = true →
        ∃ (number : ExprId) (source : Expr), memo.exprs[number]? = some source ∧ source.group = 5 ∧
          source.children = children ∧ memo.Image source operator := by
    intro number operator children place kind
    obtain ⟨form, stored, same⟩ := Option.map_eq_some_iff.1 place
    obtain ⟨group, inputs⟩ := Prod.mk.inj same
    obtain ⟨_, again, equal⟩ := hasOperator_iff.1 kind
    obtain rfl := Option.some.inj (stored.symm.trans again)
    exact (exact 5 below operator children).1
      ⟨number, form, stored, group, Operator.eq_of_beq equal rfl, inputs⟩
  exact ⟨memo, final, history, run, member one oneIs, member two twoIs⟩

end Search

end Cascades
