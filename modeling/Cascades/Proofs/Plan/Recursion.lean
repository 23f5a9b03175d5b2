/-
**The search for plans as a plain recursion.**

The cheapest plan of a group is looked for with a memory of settled groups and with a path of groups
that may not be met again. Without both, the search goes through the physical members of a group and
takes the cheapest plan of each input. On a group below which no group uses itself both give the same
plan, whatever path leads to the group and whatever is settled already.

* `Plan.Sifts`, `Plan.Chosen`: the plain recursion, which has one result at most;
* `Chosen.isSome_iff`: it gives a plan if and only if there is a tree;
* `Plan.Right`: a plan is a tree, and the one of the plain recursion where that ends;
* `cheapestWithin_runs`: all plans that are found or settled are right.
-/

import Cascades.Proofs.Action
import Cascades.Proofs.Plan.Tree
import Cascades.Proofs.Stateful

namespace Cascades

open Relation

/-! ### Physical members -/

namespace Memo

variable {memo : Memo} {id : GroupId} {member : ExprId}

/-- The physical members of a group in the order of their insertion. -/
def physicalAt (memo : Memo) (id : GroupId) : List ExprId :=
  (memo.groups[id]?.map memo.physicalMembers).getD []

theorem physicalAt_eq {group : Group} (there : memo.groups[id]? = some group) :
    memo.physicalAt id = memo.physicalMembers group := by
  unfold physicalAt
  rw [there]
  rfl

theorem Linked.mem_physicalAt_iff (linked : memo.Linked) :
    member ∈ memo.physicalAt id ↔ ∃ (expr : Expr) (operator : PhysicalOp),
      memo.exprs[member]? = some expr ∧ expr.operator = .physical operator ∧ expr.group = id := by
  constructor
  · intro listed
    cases there : memo.groups[id]? with
    | none =>
      rw [physicalAt, there] at listed
      cases listed
    | some group =>
      rw [physicalAt_eq there] at listed
      obtain ⟨inside, physical⟩ := List.mem_filter.1 listed
      obtain ⟨expr, stored, kind⟩ := hasOperator_iff.1 physical
      obtain ⟨position, place⟩ := Array.mem_iff_getElem?.1 (Array.mem_toList_iff.1 inside)
      obtain ⟨same, again, named, _⟩ := linked.listed there place
      obtain rfl : expr = same := Option.some.inj (stored.symm.trans again)
      cases shown : expr.operator with
      | physical operator => exact ⟨expr, operator, stored, shown, named⟩
      | logical operator =>
        rw [shown] at kind
        cases kind
      | scalar operator =>
        rw [shown] at kind
        cases kind
  · rintro ⟨expr, operator, stored, physical, rfl⟩
    obtain ⟨group, there, place⟩ := linked.placed stored
    rw [physicalAt_eq there]
    refine List.mem_filter.2 ⟨Array.mem_toList_iff.2 (Array.mem_of_getElem? place), ?_⟩
    exact hasOperator_iff.2 ⟨expr, stored, by rw [physical]; rfl⟩

/-- A physical member all of whose inputs have trees. -/
def PlannedBy (memo : Memo) (member : ExprId) : Prop :=
  ∃ (expr : Expr) (operator : PhysicalOp), memo.exprs[member]? = some expr ∧
    expr.operator = .physical operator ∧ ∀ child ∈ memo.relationalChildren expr, memo.Planned child

theorem Linked.planned_iff (linked : memo.Linked) :
    memo.Planned id ↔ ∃ member ∈ memo.physicalAt id, memo.PlannedBy member := by
  constructor
  · intro planned
    cases planned with
    | member stored physical below =>
      exact ⟨_, linked.mem_physicalAt_iff.2 ⟨_, _, stored, physical, rfl⟩, _, _, stored, physical,
        below⟩
  · rintro ⟨member, listed, expr, operator, stored, physical, below⟩
    obtain ⟨_, _, again, _, rfl⟩ := linked.mem_physicalAt_iff.1 listed
    rw [stored] at again
    cases again
    exact .member stored physical below

end Memo

namespace Plan

variable {setting : Setting} {id : GroupId}

/-! ### The plain recursion -/

/-- Going through some physical members of a group, with the best plan so far: a member is skipped
where an input has no plan. -/
inductive Sifts (setting : Setting) : GroupId → List ExprId → Option Plan → Option Plan → Prop
  | nil {id : GroupId} {best : Option Plan} : Sifts setting id [] best best
  | skip {id child : GroupId} {member : ExprId} {rest : List ExprId} {expr : Expr}
      {operator : PhysicalOp} {best found : Option Plan} :
      setting.memo.exprs[member]? = some expr → expr.operator = .physical operator →
      child ∈ setting.memo.relationalChildren expr →
      Sifts setting child (setting.memo.physicalAt child) none none →
      Sifts setting id rest best found → Sifts setting id (member :: rest) best found
  | take {id : GroupId} {member : ExprId} {rest : List ExprId} {expr : Expr}
      {operator : PhysicalOp} {output : Statistics} {inputs : List Plan} {plan : Plan}
      {best found : Option Plan} :
      setting.memo.exprs[member]? = some expr → expr.operator = .physical operator →
      setting.statistics id = .ok output →
      (setting.memo.relationalChildren expr).length = inputs.length →
      (∀ {child : GroupId} {input : Plan},
        (child, input) ∈ (setting.memo.relationalChildren expr).zip inputs →
          Sifts setting child (setting.memo.physicalAt child) none (some input)) →
      ofInputs setting id member operator output inputs = .ok plan →
      Sifts setting id rest (some (better best plan)) found →
      Sifts setting id (member :: rest) best found

/-- **The result of the plain recursion** for a group. -/
def Chosen (setting : Setting) (id : GroupId) (found : Option Plan) : Prop :=
  Sifts setting id (setting.memo.physicalAt id) none found

theorem Sifts.append {front back : List ExprId} {best middle found : Option Plan}
    (first : Sifts setting id front best middle) (second : Sifts setting id back middle found) :
    Sifts setting id (front ++ back) best found := by
  induction first with
  | nil => exact second
  | skip stored physical below none _ _ ih => exact .skip stored physical below none (ih second)
  | take stored physical known count below made _ _ ih =>
    exact .take stored physical known count below made (ih second)

/-- Lists of partners of the same values are equal if each value has one partner only. -/
theorem eq_of_mem_zip {α β : Type} {values : List α} {firsts seconds : List β}
    (count : values.length = firsts.length) (counts : values.length = seconds.length)
    (unique : ∀ {value : α} {first second : β}, (value, first) ∈ values.zip firsts →
      (value, second) ∈ values.zip seconds → first = second) : firsts = seconds := by
  refine List.ext_getElem (count.symm.trans counts) fun place here there => ?_
  have inside : place < values.length := count ▸ here
  have pair : ∀ {partners : List β} (within : place < partners.length),
      (values[place], partners[place]) ∈ values.zip partners := by
    intro partners within
    have paired : (values.zip partners)[place]? = some (values[place], partners[place]) :=
      List.getElem?_zip_eq_some.2
        ⟨List.getElem?_eq_getElem inside, List.getElem?_eq_getElem within⟩
    exact List.mem_of_getElem? paired
  exact unique (pair here) (pair there)

/-- **The plain recursion has one result** at most. -/
theorem Sifts.unique {members : List ExprId} {best found other : Option Plan}
    (sifts : Sifts setting id members best found) (again : Sifts setting id members best other) :
    found = other := by
  induction sifts generalizing other with
  | nil =>
    cases again
    rfl
  | skip stored physical below _ _ none ih =>
    cases again with
    | skip _ _ _ _ rest => exact ih rest
    | take same _ _ count others _ _ =>
      rw [stored] at same
      cases same
      obtain ⟨input, pair⟩ := exists_mem_zip count below
      cases none (others pair)
  | take stored physical known count below made _ inputsUnique ih =>
    cases again with
    | skip same _ member none _ =>
      rw [stored] at same
      cases same
      obtain ⟨input, pair⟩ := exists_mem_zip count member
      cases inputsUnique pair none
    | take same kind found counts others built rest =>
      rw [stored] at same
      cases same
      rw [physical] at kind
      cases kind
      rw [known] at found
      cases found
      obtain rfl := eq_of_mem_zip count counts fun one two =>
        Option.some.inj (inputsUnique one (others two))
      rw [made] at built
      cases built
      exact ih rest

/-- Going through members gives a plan if there is one already or some member has a tree. -/
theorem Sifts.isSome_iff (linked : setting.memo.Linked) {members : List ExprId}
    {best found : Option Plan} (sifts : Sifts setting id members best found) :
    found.isSome = true ↔
      best.isSome = true ∨ ∃ member ∈ members, setting.memo.PlannedBy member := by
  induction sifts with
  | nil => simp
  | @skip id child member rest expr operator best found stored physical below _ _ none ih =>
    have unplanned : ¬ setting.memo.PlannedBy member := by
      rintro ⟨same, _, again, _, planned⟩
      obtain rfl : expr = same := Option.some.inj (stored.symm.trans again)
      have some := none.2 (Or.inr (linked.planned_iff.1 (planned child below)))
      cases some
    simp only [ih, List.mem_cons, exists_eq_or_imp, unplanned, false_or]
  | @take id member rest expr operator output inputs plan best found stored physical _ count _ _ _
      planned ih =>
    have planned : setting.memo.PlannedBy member := by
      refine ⟨expr, operator, stored, physical, fun child below => ?_⟩
      obtain ⟨input, pair⟩ := exists_mem_zip count below
      rcases (planned pair).1 rfl with none | some
      · cases none
      · exact linked.planned_iff.2 some
    simp [ih, planned]

/-- **The plain recursion gives a plan** if and only if the group has a tree. -/
theorem Chosen.isSome_iff (linked : setting.memo.Linked) {found : Option Plan}
    (chosen : Chosen setting id found) : found.isSome = true ↔ setting.memo.Planned id := by
  rw [linked.planned_iff]
  exact (Sifts.isSome_iff linked chosen).trans (or_iff_right Bool.false_ne_true)

/-! ### Memory and path -/

/-- A result of the search for a group: a plan is a tree, and where no group below uses itself, the
result is that of the plain recursion. -/
structure Right (setting : Setting) (id : GroupId) (found : Option Plan) : Prop where
  tree : ∀ plan, found = some plan → Tree setting id plan
  chosen : setting.memo.Grounded id → Chosen setting id found

/-- All settled results are right. -/
def AllRight (setting : Setting) (settled : Settled) : Prop :=
  ∀ id found, settled.get? id = some found → Right setting id found

theorem empty_allRight : AllRight setting {} := by
  intro id found there
  simp at there

theorem AllRight.insert {settled : Settled} {found : Option Plan}
    (known : AllRight setting settled) (right : Right setting id found) :
    AllRight setting (settled.insert id found) := by
  intro other result there
  change (settled.insert id found)[other]? = some result at there
  rw [Std.TreeMap.getElem?_insert] at there
  split at there
  · rename_i same
    cases there
    exact Std.LawfulEqOrd.compare_eq_iff_eq.1 same ▸ right
  · exact known other result there

/-- Every relational group has statistics. -/
def Setting.Complete (setting : Setting) : Prop :=
  ∀ id, setting.memo.Relational id → ∃ statistics, setting.statistics id = .ok statistics

/-- The search may fail where statistics are missing. -/
abbrev MayFail (setting : Setting) : Failure → Prop :=
  Failure.Allowed fun _ => ¬ Setting.Complete setting

theorem statistics_ends (relational : setting.memo.Relational id) :
    Ends (fun _ => ¬ Setting.Complete setting) (setting.statistics id)
      (setting.statistics id = .ok ·) := by
  cases found : setting.statistics id with
  | ok statistics => exact (rfl : Except.ok statistics = .ok statistics)
  | error cause =>
    intro complete
    obtain ⟨statistics, known⟩ := complete id relational
    rw [found] at known
    cases known

/-- The plan over trees of the inputs. -/
theorem ofInputs_ends (linked : setting.memo.Linked) {number : ExprId} {expr : Expr}
    {operator : PhysicalOp} {output : Statistics} {inputs : List Plan}
    (uses : ∀ child ∈ setting.memo.relationalChildren expr, setting.memo.Uses expr.group child)
    (trees : List.Forall₂ (Tree setting) (setting.memo.relationalChildren expr) inputs) :
    Ends (fun _ => ¬ Setting.Complete setting)
      (ofInputs setting expr.group number operator output inputs)
      (ofInputs setting expr.group number operator output inputs = .ok ·) := by
  cases made : ofInputs setting expr.group number operator output inputs with
  | ok plan => exact (rfl : Except.ok plan = .ok plan)
  | error cause =>
    intro complete
    have found : ∀ input ∈ inputs, ∃ statistics, setting.statistics input.group = .ok statistics := by
      intro input member
      obtain ⟨place, there⟩ := List.mem_iff_getElem?.1 member
      have inside := (List.getElem?_eq_some_iff.1 there).1
      obtain ⟨count, each⟩ := List.forall₂_iff_get.1 trees
      have tree := each place (count ▸ inside) inside
      rw [List.get_eq_getElem, List.get_eq_getElem, (List.getElem?_eq_some_iff.1 there).2] at tree
      rw [tree.group_eq]
      exact complete _ ((uses _ (List.getElem_mem _)).relational linked)
    obtain ⟨statistics, all⟩ := mapM_total found
    unfold ofInputs at made
    rw [all] at made
    cases made

/-- What is known of the best plan after some members: a plan is a tree, and where no group below uses
itself, going through the members gives it. -/
structure Sifted (setting : Setting) (id : GroupId) (done : List ExprId) (best : Option Plan) :
    Prop where
  tree : ∀ plan, best = some plan → Tree setting id plan
  sifts : setting.memo.Grounded id → Sifts setting id done none best

namespace Sifted

variable {done : List ExprId} {member : ExprId} {best : Option Plan} {expr : Expr}
  {operator : PhysicalOp}

theorem nil : Sifted setting id [] none :=
  ⟨fun _ same => (nomatch same), fun _ => .nil⟩

theorem right (sifted : Sifted setting id (setting.memo.physicalAt id) best) :
    Right setting id best := ⟨sifted.tree, sifted.sifts⟩

variable (sofar : Sifted setting expr.group done best)
  (stored : setting.memo.exprs[member]? = some expr) (physical : expr.operator = .physical operator)
include sofar stored physical

/-- A member is skipped if one of its inputs has no plan. -/
theorem skip {child : GroupId} (below : child ∈ setting.memo.relationalChildren expr)
    (missing : Right setting child none) : Sifted setting expr.group (done ++ [member]) best := by
  refine ⟨sofar.tree, fun grounded => ?_⟩
  have uses : setting.memo.Uses expr.group child :=
    ⟨member, expr, operator, stored, physical, rfl, below⟩
  exact (sofar.sifts grounded).append
    (.skip stored physical below (missing.chosen (grounded.below uses)) .nil)

/-- A member with plans for all of its inputs. -/
theorem take {output : Statistics} (statistics : setting.statistics expr.group = .ok output)
    {inputs : List Plan} (plans : List.Forall₂ (fun child input => Right setting child (some input))
      (setting.memo.relationalChildren expr) inputs) {plan : Plan}
    (made : ofInputs setting expr.group member operator output inputs = .ok plan) :
    Sifted setting expr.group (done ++ [member]) (some (better best plan)) := by
  obtain ⟨count, each⟩ := List.forall₂_iff_zip.1 plans
  refine ⟨fun next same => ?_, fun grounded => ?_⟩
  · have tree : Tree setting expr.group plan :=
      .member stored physical statistics count (fun pair => (each pair).tree _ rfl) made
    obtain rfl := Option.some.inj same
    unfold better
    split
    · exact tree
    · split
      · exact tree
      · exact sofar.tree _ rfl
  · refine (sofar.sifts grounded).append (.take stored physical statistics count ?_ made .nil)
    intro child input pair
    have uses : setting.memo.Uses expr.group child :=
      ⟨member, expr, operator, stored, physical, rfl, (List.of_mem_zip pair).1⟩
    exact (each pair).chosen (grounded.below uses)

end Sifted

/-- **The search is right**: from right results it goes to right results, along every path of groups
that use the next one. -/
theorem cheapestWithin_runs (linked : setting.memo.Linked) (room : Nat) :
    ∀ path id, setting.memo.Relational id →
      (∀ above ∈ path, TransGen setting.memo.Uses above id) →
        Runs (MayFail setting) (AllRight setting) (cheapestWithin setting room path id)
          (Right setting id) := by
  induction room with
  | zero => exact fun path id _ _ => Runs.throw Guard.refusal_stops
  | succ room ih =>
    intro path id relational above
    unfold cheapestWithin
    by_cases cancelled : setting.guard.cancelled = true
    · simp only [if_pos cancelled]
      exact Runs.bind (Runs.throw Guard.refusal_stops) fun _ (none : False) => none.elim
    simp only [if_neg cancelled]
    refine Runs.bind Runs.get fun settled known => ?_
    split
    · rename_i found there
      exact Runs.pure (known id found there)
    -- A group on the path uses itself, so nothing is claimed of its plan.
    by_cases met : path.contains id = true
    · rw [if_pos met]
      have again := above id (List.contains_iff_mem.1 met)
      exact Runs.pure ⟨fun plan same => (nomatch same),
        fun grounded => absurd again (grounded id .refl)⟩
    rw [if_neg met]
    obtain ⟨group, there, family⟩ := relational
    refine Runs.bind (Runs.lift (Ends.lift (statistics_ends ⟨group, there, family⟩)))
      fun output statistics => ?_
    refine Runs.bind_ok (lift_fault_eq_ok_iff.2 (Memo.group_ok_iff.2 there)) ?_
    refine Runs.bind (Runs.foldlM (Sifted setting id) [] ?_ Sifted.nil) fun best sifted => ?_
    · intro member listed done best sofar
      rw [← Memo.physicalAt_eq there] at listed
      obtain ⟨expr, operator, stored, physical, rfl⟩ := linked.mem_physicalAt_iff.1 listed
      have uses : ∀ child ∈ setting.memo.relationalChildren expr,
          setting.memo.Uses expr.group child :=
        fun child below => ⟨member, expr, operator, stored, physical, rfl, below⟩
      refine Runs.bind_ok (lift_fault_eq_ok_iff.2 (Memo.expr_ok_iff.2 stored)) ?_
      simp only [physical]
      have each : ∀ child ∈ setting.memo.relationalChildren expr,
          Runs (MayFail setting) (AllRight setting)
            (cheapestWithin setting room (expr.group :: path) child) (Right setting child) := by
        intro child below
        refine ih (expr.group :: path) child ((uses child below).relational linked) ?_
        intro upper onPath
        rcases List.mem_cons.1 onPath with rfl | onPath
        · exact .single (uses child below)
        · exact .tail (above upper onPath) (uses child below)
      refine Runs.bind (Runs.mapM_option each) fun found inputs => ?_
      cases found with
      | none =>
        obtain ⟨child, below, missing⟩ := inputs
        exact Runs.pure (sofar.skip stored physical below missing)
      | some plans =>
        have trees : List.Forall₂ (Tree setting) (setting.memo.relationalChildren expr) plans :=
          inputs.imp fun child plan right => right.tree plan rfl
        refine Runs.bind (Runs.lift (Ends.lift (ofInputs_ends linked uses trees)))
          fun plan made => ?_
        exact Runs.pure (sofar.take stored physical statistics inputs made)
    · rw [List.nil_append, ← Memo.physicalAt_eq there] at sifted
      exact Runs.bind (Runs.modify fun settled known => known.insert sifted.right)
        fun _ _ => Runs.pure sifted.right

end Plan

end Cascades
