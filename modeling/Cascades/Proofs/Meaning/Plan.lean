/-
**Plans keep the meaning.**

A plan means what its physical operator does to the plans of its relational inputs and to the scalar
groups of its expression. The cheapest plan of a group means what the group means.

* `Plan.sense`: the meaning of a plan;
* `Plan.cheapestWithin_means`: every plan that is found or settled means what its group means;
* `Plan.ofGroup?_means`: so does the cheapest plan of a group.
-/

import Cascades.Plan
import Cascades.Proofs.Action
import Cascades.Proofs.Meaning.Sound
import Cascades.Proofs.Stateful

namespace Cascades

open Memo Interpretation

variable {V : Type} {I : Interpretation V} {memo : Memo}

/-- What the children of an expression mean if inputs take the place of the relational ones. -/
noncomputable def Memo.childSenses (I : Interpretation V) (memo : Memo) :
    List GroupId → List (Sense V) → List (Sense V)
  | [], _ => []
  | child :: rest, inputs =>
    if memo.isScalarGroup child then memo.sense I child :: childSenses I memo rest inputs
    else
      match inputs with
      | [] => []
      | input :: others => input :: childSenses I memo rest others

theorem Memo.childSenses_eq {children : List GroupId} :
    memo.childSenses I children
      ((children.filter fun child => !memo.isScalarGroup child).map (memo.sense I)) =
      children.map (memo.sense I) := by
  induction children with
  | nil => rfl
  | cons child rest ih =>
    unfold childSenses
    by_cases scalar : memo.isScalarGroup child = true
    · have skipped : (child :: rest).filter (fun child => !memo.isScalarGroup child) =
          rest.filter fun child => !memo.isScalarGroup child :=
        List.filter_cons_of_neg (by simp [scalar])
      rw [if_pos scalar, skipped, ih, List.map_cons]
    · have taken : (child :: rest).filter (fun child => !memo.isScalarGroup child) =
          child :: rest.filter fun child => !memo.isScalarGroup child :=
        List.filter_cons_of_pos (by simp [scalar])
      rw [if_neg scalar, taken, List.map_cons, List.map_cons]
      simp only [ih]

namespace Plan

mutual

/-- **The meaning of a plan.** -/
noncomputable def sense (I : Interpretation V) (memo : Memo) : Plan → Sense V
  | node operator _ expr _ _ inputs =>
    I.sense (.physical operator) (memo.childSenses I
      ((memo.exprs[expr]?.map Expr.children).getD []) (senses I memo inputs))

/-- What some plans mean. -/
noncomputable def senses (I : Interpretation V) (memo : Memo) : List Plan → List (Sense V)
  | [] => []
  | plan :: rest => sense I memo plan :: senses I memo rest

end

/-- Plans that mean what some groups mean. -/
theorem senses_of_groups {groups : List GroupId} {plans : List Plan}
    (means : List.Forall₂ (fun id (plan : Plan) => plan.sense I memo = memo.sense I id) groups plans) :
    senses I memo plans = groups.map (memo.sense I) := by
  induction means with
  | nil => rfl
  | cons one _ ih => rw [senses, one, ih, List.map_cons]

/-- A plan, if there is one, means what a group means. -/
def IsFor (I : Interpretation V) (memo : Memo) (id : GroupId) (found : Option Plan) : Prop :=
  ∀ plan, found = some plan → plan.sense I memo = memo.sense I id

/-- All settled plans mean what their groups mean. -/
def AreFor (I : Interpretation V) (memo : Memo) (settled : Settled) : Prop :=
  ∀ id found, settled.get? id = some found → IsFor I memo id found

variable {setting : Setting} {id : GroupId}

/-- The plan of a physical member over plans that mean what its relational groups mean. -/
theorem ofInputs_means (sound : setting.memo.Sound I) {group : Group}
    (there : setting.memo.groups[id]? = some group) {member : ExprId} (inside : member ∈ group.members)
    {expr : Expr} (stored : setting.memo.exprs[member]? = some expr) {operator : PhysicalOp}
    (physical : expr.operator = .physical operator) {inputs : List Plan}
    (means : List.Forall₂ (fun child (plan : Plan) =>
      plan.sense I setting.memo = setting.memo.sense I child)
      (setting.memo.relationalChildren expr) inputs) {output : Statistics} {plan : Plan}
    (done : ofInputs setting id member operator output inputs = .ok plan) :
    plan.sense I setting.memo = setting.memo.sense I id := by
  obtain ⟨statistics, _, done⟩ := bind_eq_ok_iff.1 done
  have same := pure_eq_ok_iff.1 done
  subst same
  obtain ⟨position, place⟩ := Array.mem_iff_getElem?.1 inside
  obtain ⟨same, again, owner, _⟩ := sound.listed there place
  obtain rfl : expr = same := Option.some.inj (stored.symm.trans again)
  rw [sense, stored, senses_of_groups means]
  show I.sense (.physical operator) (setting.memo.childSenses I expr.children _) = _
  unfold relationalChildren
  rw [childSenses_eq, ← owner, ← sound.same stored, exprSense, physical]

theorem better_isFor {best : Option Plan} {next : Plan} (known : IsFor I memo id best)
    (found : next.sense I memo = memo.sense I id) : IsFor I memo id (some (better best next)) := by
  intro plan same
  obtain rfl := Option.some.inj same
  unfold better
  split
  · exact found
  · split
    · exact found
    · exact known _ rfl

theorem insert_areFor {settled : Settled} {best : Option Plan} (known : AreFor I memo settled)
    (found : IsFor I memo id best) : AreFor I memo (settled.insert id best) := by
  intro other result there
  change (settled.insert id best)[other]? = some result at there
  rw [Std.TreeMap.getElem?_insert] at there
  split at there
  · rename_i same
    cases there
    exact Std.LawfulEqOrd.compare_eq_iff_eq.1 same ▸ found
  · exact known other result there

/-- **The cheapest plan means what its group means**, and so does every plan that is settled on the
way. -/
theorem cheapestWithin_means (sound : setting.memo.Sound I) (room : Nat) :
    ∀ path id, Carries (AreFor I setting.memo) (cheapestWithin setting room path id)
      (IsFor I setting.memo id) := by
  induction room with
  | zero => exact fun path id => Carries.throw
  | succ room ih =>
    intro path id
    unfold cheapestWithin
    by_cases cancelled : setting.guard.cancelled = true
    · simp only [if_pos cancelled]
      exact Carries.bind Carries.throw fun value (given : False) => given.elim
    simp only [if_neg cancelled]
    refine Carries.bind Carries.get fun settled known => ?_
    split
    · rename_i found settledThere
      exact Carries.pure (known id found settledThere)
    by_cases above : path.contains id = true
    · rw [if_pos above]
      exact Carries.pure fun plan same => nomatch same
    rw [if_neg above]
    refine Carries.bind (Carries.lift fun _ => trivial) fun output (_ : True) => ?_
    have groups : ∀ {group : Group}, (liftM (setting.memo.group id) : Except Failure Group) =
        .ok group → setting.memo.groups[id]? = some group :=
      fun given => group_ok_iff.1 (lift_fault_eq_ok_iff.1 given)
    have exprs : ∀ {member : ExprId} {expr : Expr},
        (liftM (setting.memo.expr member) : Except Failure Expr) = .ok expr →
          setting.memo.exprs[member]? = some expr :=
      fun given => expr_ok_iff.1 (lift_fault_eq_ok_iff.1 given)
    refine Carries.bind (Carries.lift groups) fun group there => ?_
    refine Carries.bind (Carries.foldlM (IsFor I setting.memo id) ?_ fun plan none => nomatch none)
      fun best known => ?_
    · intro member among best known
      have inside : member ∈ group.members := Array.mem_toList_iff.1 (List.mem_filter.1 among).1
      refine Carries.bind (Carries.lift exprs) fun expr stored => ?_
      split
      · rename_i operator physical
        refine Carries.bind (Carries.mapM_option fun child _ => ih (id :: path) child)
          fun found inputs => ?_
        cases found with
        | none => exact Carries.pure known
        | some plans =>
          refine Carries.bind (Carries.lift fun given => ?_) fun plan found =>
            Carries.pure (better_isFor known found)
          exact ofInputs_means sound there inside stored physical (inputs plans rfl)
            (lift_fault_eq_ok_iff.1 given)
      · exact Carries.pure known
    · exact Carries.bind (Carries.modify fun settled => insert_areFor settled known)
        fun _ _ => Carries.pure known

/-- **The cheapest plan of a group** means what the group means. -/
theorem ofGroup?_means (sound : memo.Sound I) {catalog : Catalog} {guard : Guard}
    {model : CostModel} {plan : Plan}
    (done : ofGroup? memo catalog guard model id = .ok (some plan)) :
    plan.sense I memo = memo.sense I id := by
  obtain ⟨settled, found⟩ := run'_eq_ok_iff.1 done
  have none : AreFor I memo {} := by
    intro other result there
    simp at there
  exact (cheapestWithin_means sound _ _ _ _ _ _ none found).2 plan rfl

end Plan

end Cascades
