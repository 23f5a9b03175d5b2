/-
**The shape of a plan.**

A plan that is found has a physical member at each node, over plans of its relational children in their
order, and no group occurs twice on the way down to a leaf. A group on the path of the search is not
settled, while all groups of a settled plan are; so a settled plan never leads back to the path, although
it was found below other groups.

* `Plan.Holds`, `Plan.IsBranch`: the plans that a plan is made of, and the groups on its way down;
* `Plan.Follows`: the root is a physical member, with its children, statistics and cost;
* `Settled.Clean`, `Tidy`, `cheapestWithin_leads`: what is settled has no group of the path in it;
* `ofGroup?_shaped`: every search ends, and a plan that it gives has this shape.
-/

import Cascades.Proofs.Plan.Depth
import Cascades.Proofs.Plan.Memory
import Mathlib.Data.List.Nodup

namespace Cascades.Plan

variable {setting : Setting} {id : GroupId} {plan : Plan} {path branch : List GroupId}

/-! ### Parts and branches -/

/-- A plan or a plan somewhere below it. -/
inductive Holds : Plan → Plan → Prop
  | self {plan : Plan} : Holds plan plan
  | input {plan input part : Plan} : input ∈ plan.inputs → Holds input part → Holds plan part

/-- The groups on a way from the root of a plan down to a leaf. -/
inductive IsBranch : Plan → List GroupId → Prop
  | leaf {plan : Plan} : plan.inputs = [] → IsBranch plan [plan.group]
  | input {plan input : Plan} {branch : List GroupId} : input ∈ plan.inputs →
      IsBranch input branch → IsBranch plan (plan.group :: branch)

/-- A group on a way down is the group of a part. -/
theorem IsBranch.exists_part (down : plan.IsBranch branch) (member : id ∈ branch) :
    ∃ part, plan.Holds part ∧ part.group = id := by
  induction down with
  | leaf _ => exact ⟨_, .self, (List.mem_singleton.1 member).symm⟩
  | @input plan input branch inside _ ih =>
    rcases List.mem_cons.1 member with rfl | member
    · exact ⟨plan, .self, rfl⟩
    · obtain ⟨part, held, same⟩ := ih member
      exact ⟨part, .input inside held, same⟩

/-! ### Nodes -/

/-- **The root of a plan follows a physical member** of its group: it has the operator of the member,
a plan for each of its relational children in their order, and the cost that the model gives to the
operator over their costs and the statistics of the groups. -/
structure Follows (memo : Memo) (catalog : Catalog) (model : CostModel) (plan : Plan) : Prop where
  member : plan.expr ∈ memo.physicalAt plan.group
  stored : ∃ expr, memo.exprs[plan.expr]? = some expr ∧
    expr.operator = .physical plan.operator ∧
    plan.inputs.map Plan.group = memo.relationalChildren expr
  costed : ∃ output statistics, Statistics.ofGroup memo catalog plan.group = .ok output ∧
    (plan.inputs.map Plan.group).mapM (Statistics.ofGroup memo catalog) = .ok statistics ∧
    plan.cost = model plan.operator output statistics (plan.inputs.map Plan.cost) ∧
    plan.rows = output.rows

/-- The parts of a tree are trees. -/
theorem Tree.of_holds {part : Plan} (tree : Tree setting id plan) (held : plan.Holds part) :
    Tree setting part.group part := by
  induction held generalizing id with
  | self => exact tree.group_eq ▸ tree
  | @input plan input part inside _ ih =>
    obtain ⟨_, _, _, _, _, _, _, inputs, _⟩ := tree.cases
    obtain ⟨child, pair⟩ := exists_mem_zip inputs.length_eq.symm inside
    have below : Tree setting child input := (List.forall₂_iff_zip.1 inputs.flip).2 pair
    exact ih below

/-! ### What is settled -/

namespace Settled

/-- What is settled stays so. -/
def Extends (settled later : Settled) : Prop :=
  ∀ id found, settled.get? id = some found → later.get? id = some found

instance : IsPreorder Settled Extends where
  refl _ _ _ there := there
  trans _ _ _ one two id found there := two id found (one id found there)

/-- All parts of a plan are of settled groups, and no group is twice on a way down. -/
structure Clean (settled : Settled) (plan : Plan) : Prop where
  settled : ∀ part, plan.Holds part → ∃ found, settled.get? part.group = some found
  distinct : ∀ branch, plan.IsBranch branch → branch.Nodup

variable {settled later : Settled} {best : Option Plan}

theorem Clean.extends (clean : settled.Clean plan) (extended : settled.Extends later) :
    later.Clean plan := by
  refine ⟨fun part held => ?_, clean.distinct⟩
  obtain ⟨found, there⟩ := clean.settled part held
  exact ⟨found, extended _ _ there⟩

/-- Above inputs that are clean, a group that is not settled is on no way down twice. -/
theorem nodup_of_inputs (new : settled.get? plan.group = none)
    (inputs : ∀ input ∈ plan.inputs, settled.Clean input) (down : plan.IsBranch branch) :
    branch.Nodup := by
  cases down with
  | leaf _ => exact List.nodup_singleton _
  | @input _ input branch inside down =>
    refine List.nodup_cons.2 ⟨fun again => ?_, (inputs input inside).distinct branch down⟩
    obtain ⟨part, held, same⟩ := down.exists_part again
    obtain ⟨found, there⟩ := (inputs input inside).settled part held
    rw [same, new] at there
    cases there

theorem get?_insert {other : GroupId} :
    (settled.insert id best).get? other = if id = other then some best else settled.get? other := by
  have lookup : (settled.insert id best)[other]? = _ := Std.TreeMap.getElem?_insert
  simp only [Std.LawfulEqOrd.compare_eq_iff_eq] at lookup
  exact lookup

/-- A group that is settled anew. -/
theorem extends_insert (new : settled.get? id = none) : settled.Extends (settled.insert id best) := by
  intro other found there
  rw [get?_insert, if_neg]
  · exact there
  · rintro rfl
    rw [new] at there
    cases there

/-- **No group of the path is settled**, and settled plans are clean. -/
structure Tidy (path : List GroupId) (settled : Settled) : Prop where
  unsettled : ∀ above ∈ path, settled.get? above = none
  clean : ∀ {id : GroupId} {plan : Plan}, settled.get? id = some (some plan) → settled.Clean plan

theorem tidy_empty : Tidy [] {} :=
  ⟨fun _ none => absurd none List.not_mem_nil, fun there => by simp at there⟩

/-- What is known of the best plan of a group so far. -/
def Under (id : GroupId) (best : Option Plan) (settled : Settled) : Prop :=
  ∀ plan, best = some plan → plan.group = id ∧ ∀ input ∈ plan.inputs, settled.Clean input

theorem Under.extends (under : Under id best settled) (extended : settled.Extends later) :
    Under id best later := fun plan same =>
  ⟨(under plan same).1, fun input inside => ((under plan same).2 input inside).extends extended⟩

/-- The plan that is settled for a group is clean. -/
theorem Under.clean (under : Under id (some plan) settled) (new : settled.get? id = none) :
    Clean (settled.insert id (some plan)) plan := by
  obtain ⟨rfl, inputs⟩ := under plan rfl
  refine ⟨fun part held => ?_, fun branch down => nodup_of_inputs new inputs down⟩
  cases held with
  | self => exact ⟨some plan, by rw [get?_insert, if_pos rfl]⟩
  | input inside held =>
    obtain ⟨found, there⟩ := (inputs _ inside).settled part held
    exact ⟨found, extends_insert new _ _ there⟩

/-- **A group is settled** and leaves the path. -/
theorem Tidy.settle (tidy : Tidy (id :: path) settled) (under : Under id best settled)
    (fresh : id ∉ path) : Tidy path (settled.insert id best) := by
  have new := tidy.unsettled id List.mem_cons_self
  refine ⟨fun above member => ?_, fun {other plan} there => ?_⟩
  · rw [get?_insert, if_neg fun same : id = above => fresh (same ▸ member)]
    exact tidy.unsettled above (List.mem_cons_of_mem _ member)
  · rw [get?_insert] at there
    split at there
    · cases there
      exact under.clean new
    · exact (tidy.clean there).extends (extends_insert new)

end Settled

/-! ### The search -/

open Settled

/-- A plan over clean inputs, or the best one so far. -/
theorem under_better {number : ExprId} {operator : PhysicalOp} {output : Statistics}
    {inputs : List Plan} {settled : Settled} {best : Option Plan} (under : Under id best settled)
    (clean : ∀ input ∈ inputs, settled.Clean input)
    (made : ofInputs setting id number operator output inputs = .ok plan) :
    Under id (some (better best plan)) settled := by
  obtain ⟨statistics, _, same⟩ := bind_eq_ok_iff.1 made
  obtain rfl := pure_eq_ok_iff.1 same
  intro chosen same
  obtain rfl := Option.some.inj same
  unfold better
  split
  · exact ⟨rfl, clean⟩
  · split
    · exact ⟨rfl, clean⟩
    · exact under _ rfl

/-- While the members of a group are gone through, it is on the path. -/
def Sifting (path : List GroupId) (id : GroupId) (best : Option Plan) (settled : Settled) : Prop :=
  Tidy (id :: path) settled ∧ Under id best settled

/-- **The search settles clean plans only**, and what it gives is clean. -/
theorem cheapestWithin_advances (room : Nat) : ∀ path id,
    Advances Extends (Tidy path) (cheapestWithin setting room path id) fun found settled =>
      Tidy path settled ∧ ∀ plan, found = some plan → settled.Clean plan := by
  induction room with
  | zero => exact fun path id => Advances.throw
  | succ room ih =>
    intro path id
    unfold cheapestWithin
    by_cases cancelled : setting.guard.cancelled = true
    · simp only [if_pos cancelled]
      exact Advances.bind Advances.throw fun _ _ _ _ (none : False) => none.elim
    simp only [if_neg cancelled]
    refine Advances.bind_get fun settled tidy => ?_
    split
    · rename_i found there
      refine Advances.pure fun state same => ?_
      subst same
      exact ⟨tidy, fun plan given => tidy.clean (given ▸ there)⟩
    rename_i new
    by_cases met : path.contains id = true
    · rw [if_pos met]
      refine Advances.pure fun state same => ?_
      subst same
      exact ⟨tidy, fun _ none => by cases none⟩
    rw [if_neg met]
    have fresh : id ∉ path := fun member => met (List.contains_iff_mem.2 member)
    refine Advances.bind_lift fun output _ => Advances.bind_lift fun group _ => ?_
    refine Advances.bind (Advances.foldlM (Sifting path id) (fun member _ best => ?_) ?_) fun best => ?_
    · refine Advances.bind_lift fun expr _ => ?_
      split
      · have each : ∀ child ∈ setting.memo.relationalChildren expr,
            Advances Extends (Sifting path id best) (cheapestWithin setting room (id :: path) child)
              fun found state => Sifting path id best state ∧
                ∀ plan, found = some plan → state.Clean plan :=
          fun child _ => (ih (id :: path) child).beside (fun up under => under.extends up)
            fun _ _ given under => ⟨⟨given.1, under⟩, given.2⟩
        refine Advances.bind (Advances.mapM_option (fun up clean => clean.extends up) each)
          fun inputs => ?_
        cases inputs with
        | none => exact Advances.pure fun _ sofar => sofar.1
        | some inputs =>
          refine Advances.bind_lift fun plan made => Advances.pure fun state sofar => ?_
          have clean := sofar.2 inputs rfl
          refine ⟨sofar.1.1, under_better sofar.1.2 (fun input inside => ?_)
            (lift_fault_eq_ok_iff.1 made)⟩
          obtain ⟨child, pair⟩ := exists_mem_zip clean.length_eq.symm inside
          exact (List.forall₂_iff_zip.1 clean.flip).2 pair
      · exact Advances.pure fun _ sofar => sofar
    · rintro state rfl
      exact ⟨⟨List.forall_mem_cons.2 ⟨new, tidy.unsettled⟩, tidy.clean⟩, fun _ none => by cases none⟩
    · intro before found after sifting done
      have unsettled := sifting.1.unsettled id List.mem_cons_self
      cases done
      refine ⟨extends_insert unsettled, sifting.1.settle sifting.2 fresh, fun plan same => ?_⟩
      subst same
      exact sifting.2.clean unsettled

/-- Only relational groups are given a plan. -/
theorem relational_of_plan (sound : setting.Sound)
    (done : cheapest? setting id = .ok (some plan)) : setting.memo.Relational id := by
  obtain ⟨last, run⟩ := run'_eq_ok_iff.1 done
  unfold Guard.room cheapestWithin at run
  by_cases cancelled : setting.guard.cancelled = true
  · simp only [if_pos cancelled] at run
    cases run
  simp only [if_neg cancelled] at run
  obtain ⟨⟨output, _⟩, looked, _⟩ := bind_eq_ok_iff.1 run
  have ends := sound id
  cases known : setting.statistics id with
  | error cause =>
    rw [known] at looked
    cases looked
  | ok statistics =>
    rw [known] at ends
    exact ends

/-! ### Plans of a memo -/

variable {memo : Memo} {catalog : Catalog} {guard : Guard} {model : CostModel}

/-- The root of a tree follows a physical member. -/
theorem Tree.follows (valid : memo.Valid) (headed : memo.LogicalFirst)
    (tree : Tree (Setting.ofMemo memo catalog guard model) id plan) :
    plan.Follows memo catalog model := by
  have looked : ∀ group, (Setting.ofMemo memo catalog guard model).statistics group =
      Statistics.ofGroup memo catalog group := fun _ =>
    Statistics.ofGroupFrom_eq valid headed (Statistics.ofAll_known valid headed)
  have member := tree.mem_physicalAt valid.toLinked
  obtain ⟨expr, operator, output, stored, physical, _, known, inputs, made⟩ := tree.cases
  obtain ⟨statistics, found, same⟩ := bind_eq_ok_iff.1 made
  have root := pure_eq_ok_iff.1 same
  have named : operator = plan.operator := congrArg Plan.operator root
  obtain rfl : id = plan.group := congrArg Plan.group root
  refine ⟨member, ⟨expr, stored, named ▸ physical, map_group_eq inputs⟩, output, statistics, ?_, ?_, ?_,
    (congrArg Plan.rows root).symm⟩
  · rw [← looked]
    exact known
  · rw [List.mapM_map, ← found]
    exact mapM_congr fun input _ => (looked input.group).symm
  · rw [← named]
    exact (congrArg Plan.cost root).symm

/-- **Every search for a plan ends, and its plan is well formed**, also where groups use themselves. A
guard that permits as many levels as there are relational groups, and one more, does not stop the
search, and what it permits beyond does not matter; statistics end. In a plan that is given, each part
follows a physical member of its group, and no group is twice on a way down. -/
theorem ofGroup?_shaped (valid : memo.Valid) (headed : memo.LogicalFirst) :
    (guard.cancelled = false → memo.relationalGroups.length + 1 ≤ guard.room →
      (∀ abort, ofGroup? memo catalog guard model id ≠ .error (.abort abort)) ∧
      ∀ other : Guard, other.cancelled = false → memo.relationalGroups.length + 1 ≤ other.room →
        ofGroup? memo catalog other model id = ofGroup? memo catalog guard model id) ∧
    (∀ group, ofGroup? memo catalog guard model id ≠ .error (.fault (.endlessDerivation group))) ∧
    ∀ plan, ofGroup? memo catalog guard model id = .ok (some plan) →
      plan.group = id ∧ (∀ part, plan.Holds part → part.Follows memo catalog model) ∧
      ∀ branch, plan.IsBranch branch → branch.Nodup := by
  have sound : ∀ guard, (Setting.ofMemo memo catalog guard model).Sound :=
    fun _ _ => statistics_ofMemo_ends valid headed
  have fits : ∀ {guard : Guard}, guard.cancelled = false →
      memo.relationalGroups.length + 1 ≤ guard.room →
      Fits (Setting.ofMemo memo catalog guard model) [] guard.room := fun running enough =>
    ⟨running, List.nodup_nil, fun _ none => absurd none List.not_mem_nil, by
      rw [List.length_nil, Nat.zero_add]
      exact enough⟩
  have ends : ∀ aborts : Prop, (aborts ∨ Fits (Setting.ofMemo memo catalog guard model) [] guard.room) →
      Ends (Fails aborts) (ofGroup? memo catalog guard model id) fun _ => True :=
    fun aborts either => Runs.run' (cheapestWithin_ends (sound guard) guard.room [] id either) trivial
  refine ⟨fun running enough => ⟨fun abort stopped => ?_, fun other goes permits => ?_⟩,
    fun group failed => ?_, fun plan done => ?_⟩
  · have never := ends False (Or.inr (fits running enough))
    rw [stopped] at never
    exact never
  · have same : cheapestWithin (Setting.ofMemo memo catalog other model) other.room [] id =
        cheapestWithin (Setting.ofMemo memo catalog guard model) guard.room [] id :=
      cheapestWithin_eq_of_fits (sound guard) guard.room other.room [] id (fits running enough)
        (fits goes permits)
    exact congrArg (StateT.run' · {}) same
  · have final := ends True (Or.inl trivial)
    rw [failed] at final
    exact final group rfl
  · have relational : memo.Relational id := relational_of_plan (sound guard) done
    obtain ⟨last, run⟩ := run'_eq_ok_iff.1 done
    have right : Ends (MayFail _) (ofGroup? memo catalog guard model id)
        (Right (Setting.ofMemo memo catalog guard model) id) :=
      cheapest?_right valid.toLinked relational
    rw [done] at right
    have tree := right.tree plan rfl
    obtain ⟨_, _, clean⟩ := cheapestWithin_advances guard.room [] id {} _ last tidy_empty run
    exact ⟨tree.group_eq, fun part held => (tree.of_holds held).follows valid headed,
      (clean plan rfl).distinct⟩

/-- Two tables filter each other, and a guard lets a search through three relational groups pass. -/
theorem ofGroup?_shaped_mutualFilters :
    ∃ memo plan, Memo.empty.performAll mutualFilters = .ok memo ∧
      (∀ other : Guard, other.cancelled = false → 4 ≤ other.room →
        ofGroup? memo {} other byOperator 1 = .ok (some plan)) ∧
      plan.group = 1 ∧ (∀ part, plan.Holds part → part.Follows memo {} byOperator) ∧
      ∀ branch, plan.IsBranch branch → branch.Nodup := by
  have shown : (Memo.empty.performAll mutualFilters).toOption.map (fun memo =>
      (memo.isLogicalFirst, memo.relationalGroups.length,
        (ofGroup? memo {} { maxDepth := 3 } byOperator 1).toOption.map Option.isSome)) =
      some (true, 3, some true) := by
    decide +kernel
  obtain ⟨memo, history, shown⟩ := Option.map_eq_some_iff.1 shown
  have history := toOption_eq_some_iff.1 history
  simp only [Prod.mk.injEq] at shown
  obtain ⟨headed, groups, planned⟩ := shown
  obtain ⟨found, done, given⟩ := Option.map_eq_some_iff.1 planned
  have done := toOption_eq_some_iff.1 done
  obtain ⟨plan, rfl⟩ := Option.isSome_iff_exists.1 given
  have valid : memo.Valid := (Memo.performAll_keeps history Memo.empty_valid).1
  have enough : memo.relationalGroups.length + 1 ≤ (⟨3, false⟩ : Guard).room := groups ▸ le_rfl
  obtain ⟨deep, _, shape⟩ :=
    @ofGroup?_shaped 1 memo {} ⟨3, false⟩ byOperator valid (Memo.logicalFirst_of_isLogicalFirst headed)
  obtain ⟨_, same⟩ := deep rfl enough
  refine ⟨memo, plan, history, fun other running enough => ?_, shape plan done⟩
  exact (same other running (by rw [groups]; exact enough)).trans done

end Cascades.Plan
