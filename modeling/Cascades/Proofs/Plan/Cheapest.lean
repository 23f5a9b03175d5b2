/-
**The cheapest plan is the best tree.**

Where costs are ordered and do not fall when an input costs more, the plain recursion gives the best
tree of a group. So does the search with its memory and its path, as long as no group uses itself.

* `Lawful`: costs that are ordered, and monotone in the cost of each input;
* `Sifts.best`, `Chosen.optimal`: the plain recursion gives the best tree;
* `ofGroup?_optimal`: the cheapest plan of a memo in which no group uses itself;
* `ofGroup?_faults`: why the expressions of the memo have to be laid out.
-/

import Cascades.Proofs.Memo.History
import Cascades.Proofs.Plan.Recursion
import Cascades.Proofs.Statistics
import Mathlib.Data.Nat.Basic

namespace Cascades.Plan

open Relation

variable {setting : Setting} {id : GroupId} {plan other : Plan}

/-! ### Ordered costs -/

/-- The cost of some tree. -/
def IsCost (setting : Setting) (cost : Cost) : Prop :=
  ∃ id plan, Tree setting id plan ∧ plan.cost = cost

/-- The second cost is not lower than the first. -/
def AtMost (low high : Cost) : Prop := high.less low = false

/-- The costs of trees are totally ordered, and an operator over inputs that cost more does not cost
less. -/
structure Lawful (setting : Setting) : Prop where
  asymm : ∀ {one two : Cost}, IsCost setting one → IsCost setting two → one.less two = true →
    AtMost one two
  trans : ∀ {one two three : Cost}, IsCost setting one → IsCost setting two →
    IsCost setting three → AtMost one two → AtMost two three → AtMost one three
  monotone : ∀ {operator : PhysicalOp} {output : Statistics} {inputs : List Statistics}
    {low high : List Cost}, (∀ cost ∈ low, IsCost setting cost) →
    (∀ cost ∈ high, IsCost setting cost) → List.Forall₂ AtMost low high →
      AtMost (setting.model operator output inputs low) (setting.model operator output inputs high)

theorem Tree.isCost (tree : Tree setting id plan) : IsCost setting plan.cost := ⟨id, plan, tree, rfl⟩

theorem Lawful.lt_of_lt_of_atMost (lawful : Lawful setting) {one two three : Cost}
    (first : IsCost setting one) (second : IsCost setting two) (third : IsCost setting three)
    (lower : one.less two = true) (most : AtMost two three) : one.less three = true := by
  cases known : one.less three with
  | true => rfl
  | false =>
    have back : AtMost two one := lawful.trans second third first most known
    rw [AtMost, lower] at back
    cases back

/-! ### Trees through one member -/

theorem Tree.plannedBy (tree : Tree setting id plan) : setting.memo.PlannedBy plan.expr := by
  obtain ⟨expr, operator, _, stored, physical, _, _, inputs, _⟩ := tree.cases
  refine ⟨expr, operator, stored, physical, fun child member => ?_⟩
  obtain ⟨input, pair⟩ := exists_mem_zip inputs.length_eq member
  exact ((List.forall₂_iff_zip.1 inputs).2 pair).planned

theorem Tree.mem_physicalAt (linked : setting.memo.Linked) (tree : Tree setting id plan) :
    plan.expr ∈ setting.memo.physicalAt id := by
  obtain ⟨expr, operator, _, stored, physical, named, _⟩ := tree.cases
  exact linked.mem_physicalAt_iff.2 ⟨expr, operator, stored, physical, named⟩

theorem map_group_eq {children : List GroupId} {inputs : List Plan}
    (trees : List.Forall₂ (Tree setting) children inputs) : inputs.map Plan.group = children := by
  induction trees with
  | nil => rfl
  | cons tree _ ih => rw [List.map_cons, tree.group_eq, ih]

/-- The cost of a plan over its inputs. -/
theorem cost_of_ofInputs {number : ExprId} {operator : PhysicalOp} {output : Statistics}
    {inputs : List Plan} (made : ofInputs setting id number operator output inputs = .ok plan) :
    ∃ statistics, (inputs.map Plan.group).mapM setting.statistics = .ok statistics ∧
      plan.cost = setting.model operator output statistics (inputs.map Plan.cost) ∧
      plan.inputs = inputs ∧ plan.expr = number := by
  obtain ⟨statistics, found, same⟩ := bind_eq_ok_iff.1 made
  obtain rfl := pure_eq_ok_iff.1 same
  rw [List.mapM_map]
  exact ⟨statistics, found, rfl, rfl, rfl⟩

theorem isCost_of_mem {children : List GroupId} {inputs : List Plan}
    (trees : List.Forall₂ (Tree setting) children inputs) :
    ∀ cost ∈ inputs.map Plan.cost, IsCost setting cost := by
  induction trees with
  | nil => exact fun cost member => absurd member List.not_mem_nil
  | cons tree _ ih =>
    intro cost member
    rcases List.mem_cons.1 member with rfl | member
    · exact tree.isCost
    · exact ih cost member

/-- The best trees of some groups cost no more than any others. -/
theorem atMost_of_optimal {children : List GroupId} {firsts seconds : List Plan}
    (trees : List.Forall₂ (Tree setting) children firsts)
    (others : List.Forall₂ (Tree setting) children seconds)
    (best : ∀ input ∈ firsts, Optimal setting input.group input) :
    List.Forall₂ AtMost (firsts.map Plan.cost) (seconds.map Plan.cost) := by
  induction trees generalizing seconds with
  | nil =>
    cases others
    exact .nil
  | @cons child input children firsts first _ ih =>
    cases others with
    | @cons _ next _ seconds second others =>
      have optimal := best input List.mem_cons_self
      rw [first.group_eq] at optimal
      exact .cons (optimal.isLeast.least next second)
        (ih others fun rest member => best rest (List.mem_cons_of_mem _ member))

/-- Two trees through one member, the inputs of the first one the best: it costs no more. -/
theorem atMost_of_expr (lawful : Lawful setting) (tree : Tree setting id plan)
    (second : Tree setting id other) (same : other.expr = plan.expr)
    (best : ∀ input ∈ plan.inputs, Optimal setting input.group input) :
    AtMost plan.cost other.cost := by
  obtain ⟨expr, operator, output, stored, physical, _, known, inputs, made⟩ := tree.cases
  obtain ⟨_, _, _, again, kind, _, found, others, built⟩ := second.cases
  rw [same, stored] at again
  cases again
  rw [physical] at kind
  cases kind
  rw [known] at found
  cases found
  obtain ⟨statistics, first, cost, _⟩ := cost_of_ofInputs made
  obtain ⟨_, last, costs, _⟩ := cost_of_ofInputs built
  rw [map_group_eq inputs] at first
  rw [map_group_eq others, first] at last
  cases last
  rw [cost, costs]
  exact lawful.monotone (isCost_of_mem inputs) (isCost_of_mem others)
    (atMost_of_optimal inputs others best)

/-! ### The best tree among members -/

/-- The best tree through some members of a group. -/
structure BestAmong (setting : Setting) (id : GroupId) (members : List ExprId) (plan : Plan) :
    Prop where
  tree : Tree setting id plan
  inside : plan.expr ∈ members
  least : ∀ other, Tree setting id other → other.expr ∈ members → AtMost plan.cost other.cost
  earliest : ∀ other, Tree setting id other → other.expr ∈ members →
    placeOf setting.memo other.expr < placeOf setting.memo plan.expr →
      plan.cost.less other.cost = true
  inputs : ∀ input ∈ plan.inputs, Optimal setting input.group input

/-- The best tree through some members, or none where there is none. -/
def BestOf (setting : Setting) (id : GroupId) (members : List ExprId) : Option Plan → Prop
  | none => ∀ member ∈ members, ¬ setting.memo.PlannedBy member
  | some plan => BestAmong setting id members plan

variable {members : List ExprId} {member : ExprId} {best : Option Plan}

/-- A member without a tree changes nothing. -/
theorem BestOf.skip (sofar : BestOf setting id members best)
    (unplanned : ¬ setting.memo.PlannedBy member) : BestOf setting id (members ++ [member]) best := by
  have before : ∀ {other : Plan}, Tree setting id other → other.expr ∈ members ++ [member] →
      other.expr ∈ members := by
    intro other tree inside
    rcases List.mem_append.1 inside with inside | last
    · exact inside
    · exact absurd (List.mem_singleton.1 last ▸ tree.plannedBy) unplanned
  cases best with
  | none =>
    intro other inside
    rcases List.mem_append.1 inside with inside | last
    · exact sofar other inside
    · rw [List.mem_singleton.1 last]
      exact unplanned
  | some plan =>
    exact
      { tree := sofar.tree
        inside := List.mem_append_left _ sofar.inside
        least := fun other tree inside => sofar.least other tree (before tree inside)
        earliest := fun other tree inside => sofar.earliest other tree (before tree inside)
        inputs := sofar.inputs }

/-- The best tree through a later member takes the place of the best one so far if it costs less. -/
theorem BestOf.take (lawful : Lawful setting) (sofar : BestOf setting id members best)
    (ordered : ∀ earlier ∈ members, placeOf setting.memo earlier < placeOf setting.memo member)
    (tree : Tree setting id plan) (through : plan.expr = member)
    (inputs : ∀ input ∈ plan.inputs, Optimal setting input.group input) :
    BestOf setting id (members ++ [member]) (some (better best plan)) := by
  have last : ∀ {other : Plan}, Tree setting id other → other.expr = member →
      AtMost plan.cost other.cost :=
    fun second same => atMost_of_expr lawful tree second (same.trans through.symm) inputs
  have itself : plan.expr ∈ members ++ [member] := by simp [through]
  cases best with
  | none =>
    have only : ∀ {other : Plan}, Tree setting id other → other.expr ∈ members ++ [member] →
        other.expr = member := by
      intro other second inside
      rcases List.mem_append.1 inside with inside | last
      · exact absurd second.plannedBy (sofar _ inside)
      · exact List.mem_singleton.1 last
    refine ⟨tree, itself, fun other second inside => last second (only second inside), ?_, inputs⟩
    intro other second inside before
    rw [only second inside, ← through] at before
    exact absurd before (Nat.lt_irrefl _)
  | some old =>
    have costs := sofar.tree.isCost
    show BestAmong setting id _ (if plan.cost.less old.cost then plan else old)
    by_cases cheaper : plan.cost.less old.cost = true
    · rw [if_pos cheaper]
      -- An earlier tree costs no less than the old one, so it costs more than the new one.
      have above : ∀ {other : Plan}, Tree setting id other → other.expr ∈ members →
          plan.cost.less other.cost = true :=
        fun second inside => lawful.lt_of_lt_of_atMost tree.isCost costs second.isCost cheaper
          (sofar.least _ second inside)
      refine ⟨tree, itself, fun other second inside => ?_, fun other second inside before => ?_, inputs⟩
      · rcases List.mem_append.1 inside with inside | same
        · exact lawful.asymm tree.isCost second.isCost (above second inside)
        · exact last second (List.mem_singleton.1 same)
      · rcases List.mem_append.1 inside with inside | same
        · exact above second inside
        · rw [List.mem_singleton.1 same, ← through] at before
          exact absurd before (Nat.lt_irrefl _)
    · rw [if_neg cheaper]
      have most : AtMost old.cost plan.cost := Bool.eq_false_iff.2 cheaper
      refine ⟨sofar.tree, List.mem_append_left _ sofar.inside, fun other second inside => ?_,
        fun other second inside before => ?_, sofar.inputs⟩
      · rcases List.mem_append.1 inside with inside | same
        · exact sofar.least other second inside
        · exact lawful.trans costs tree.isCost second.isCost most
            (last second (List.mem_singleton.1 same))
      · rcases List.mem_append.1 inside with inside | same
        · exact sofar.earliest other second inside before
        · rw [List.mem_singleton.1 same] at before
          exact absurd (ordered _ sofar.inside) (Nat.lt_asymm before)

/-! ### The best tree of a group -/

/-- Physical members come in the order of their places. -/
theorem pairwise_physicalAt (linked : setting.memo.Linked) (id : GroupId) :
    (setting.memo.physicalAt id).Pairwise fun first second =>
      placeOf setting.memo first < placeOf setting.memo second := by
  cases there : setting.memo.groups[id]? with
  | none =>
    rw [Memo.physicalAt, there]
    exact .nil
  | some group =>
    rw [Memo.physicalAt_eq there]
    refine List.Pairwise.filter _ (List.pairwise_iff_getElem.2 fun place next inside within before => ?_)
    have placed : ∀ {position : Nat} (bound : position < group.members.toList.length),
        placeOf setting.memo group.members.toList[position] = position := by
      intro position bound
      have listed : group.members[position]? = some group.members.toList[position] := by
        rw [← Array.getElem?_toList, List.getElem?_eq_getElem bound]
      obtain ⟨expr, stored, _, same⟩ := linked.listed there listed
      unfold placeOf
      rw [stored]
      exact same
    rw [placed inside, placed within]
    exact before

/-- The best tree among all physical members is the best tree of the group. -/
theorem BestAmong.optimal (linked : setting.memo.Linked)
    (best : BestAmong setting id (setting.memo.physicalAt id) plan) : Optimal setting id plan :=
  .node
    { tree := best.tree
      least := fun other tree => best.least other tree (tree.mem_physicalAt linked)
      earliest := fun other tree => best.earliest other tree (tree.mem_physicalAt linked) }
    best.inputs

/-- Going through members finds the best tree among all that were gone through. -/
theorem Sifts.bestOf (linked : setting.memo.Linked) (lawful : Lawful setting)
    {found : Option Plan} (sifts : Sifts setting id members best found) :
    ∀ front, setting.memo.physicalAt id = front ++ members → BestOf setting id front best →
      BestOf setting id (setting.memo.physicalAt id) found := by
  induction sifts with
  | nil =>
    intro front whole sofar
    rw [List.append_nil] at whole
    exact whole ▸ sofar
  | @skip id child member rest expr operator best found stored _ below _ _ inputs ih =>
    intro front whole sofar
    have unplanned : ¬ setting.memo.PlannedBy member := by
      rintro ⟨same, _, again, _, planned⟩
      obtain rfl : expr = same := Option.some.inj (stored.symm.trans again)
      obtain ⟨number, listed, inner⟩ := linked.planned_iff.1 (planned child below)
      exact inputs [] rfl (fun _ none => absurd none List.not_mem_nil) number listed inner
    exact ih (front ++ [member]) (by simpa using whole) (sofar.skip unplanned)
  | @take id member rest expr operator output inputs plan best found stored physical known count _
      made _ each ih =>
    intro front whole sofar
    have listed : member ∈ setting.memo.physicalAt id := by simp [whole]
    obtain ⟨_, _, again, _, rfl⟩ := linked.mem_physicalAt_iff.1 listed
    rw [stored] at again
    cases again
    have optimal : ∀ {child : GroupId} {input : Plan},
        (child, input) ∈ (setting.memo.relationalChildren expr).zip inputs →
          Optimal setting child input := by
      intro child input pair
      have among : BestAmong setting child (setting.memo.physicalAt child) input :=
        each pair [] rfl fun _ none => absurd none List.not_mem_nil
      exact among.optimal linked
    have tree : Tree setting expr.group plan :=
      .member stored physical known count (fun pair => (optimal pair).isLeast.tree) made
    obtain ⟨_, _, _, shown, through⟩ := cost_of_ofInputs made
    have ordered := pairwise_physicalAt linked expr.group
    rw [whole] at ordered
    have taken := sofar.take lawful
      (fun earlier before => (List.pairwise_append.1 ordered).2.2 earlier before member
        List.mem_cons_self) tree through fun input member => ?_
    · exact ih (front ++ [member]) (by simpa using whole) taken
    · rw [shown] at member
      obtain ⟨place, there⟩ := List.mem_iff_getElem?.1 member
      have inside : place < (setting.memo.relationalChildren expr).length :=
        count ▸ (List.getElem?_eq_some_iff.1 there).1
      have pair : ((setting.memo.relationalChildren expr).zip inputs)[place]? =
          some ((setting.memo.relationalChildren expr)[place], input) :=
        List.getElem?_zip_eq_some.2 ⟨List.getElem?_eq_getElem _, there⟩
      have best := optimal (List.mem_of_getElem? pair)
      rwa [← best.isLeast.tree.group_eq] at best

/-- **The plain recursion gives the best tree.** -/
theorem Chosen.optimal (linked : setting.memo.Linked) (lawful : Lawful setting)
    (chosen : Chosen setting id (some plan)) : Optimal setting id plan := by
  have among : BestAmong setting id (setting.memo.physicalAt id) plan :=
    Sifts.bestOf linked lawful chosen [] rfl fun _ none => absurd none List.not_mem_nil
  exact among.optimal linked

/-! ### The cheapest plan of a memo -/

/-- What the search for the cheapest plan of a group of a memo looks at. -/
def Setting.ofMemo (memo : Memo) (catalog : Catalog) (guard : Guard) (model : CostModel) :
    Setting where
  memo
  guard
  statistics := Statistics.ofGroupFrom memo catalog (Statistics.ofAll memo catalog)
  model

variable {memo : Memo} {catalog : Catalog} {guard : Guard} {model : CostModel}

theorem Setting.complete_ofMemo (linked : memo.Linked) (laid : memo.Laid)
    (headed : memo.LogicalFirst) : (Setting.ofMemo memo catalog guard model).Complete :=
  fun _ relational => Statistics.ofGroupFrom_ok linked laid headed relational _

/-- The cheapest plan is right, or statistics are missing. -/
theorem cheapest?_right (linked : setting.memo.Linked) (relational : setting.memo.Relational id) :
    Ends (MayFail setting) (cheapest? setting id) (Right setting id) :=
  Runs.run' (cheapestWithin_runs linked setting.guard.room [] id relational
    fun _ none => absurd none List.not_mem_nil) empty_allRight

/-- A search that is not stopped ends well, or in a fault of a memo that is not laid out. -/
theorem ofGroup?_cases (linked : memo.Linked) (headed : memo.LogicalFirst)
    (relational : memo.Relational id)
    (unstopped : ∀ abort, ofGroup? memo catalog guard model id ≠ .error (.abort abort)) :
    (∃ found, ofGroup? memo catalog guard model id = .ok found ∧
      Right (Setting.ofMemo memo catalog guard model) id found) ∨
    (¬ memo.Laid ∧ ∃ cause, ofGroup? memo catalog guard model id = .error (.fault cause)) := by
  have ends : Ends (MayFail (Setting.ofMemo memo catalog guard model))
      (ofGroup? memo catalog guard model id) (Right (Setting.ofMemo memo catalog guard model) id) :=
    cheapest?_right linked relational
  cases done : ofGroup? memo catalog guard model id with
  | ok found =>
    rw [done] at ends
    exact Or.inl ⟨found, rfl, ends⟩
  | error failure =>
    rw [done] at ends
    cases failure with
    | abort abort => exact absurd done (unstopped abort)
    | fault cause =>
      exact Or.inr ⟨fun laid => ends (Setting.complete_ofMemo linked laid headed), cause, rfl⟩

/-- **The cheapest plan is the best tree.** In a memo in which no group uses itself, a search that is
not stopped gives a plan if and only if the group has a tree. The plan costs no more than any tree,
and less than each one through an earlier member; so do the plans of its inputs. Only a memo with an
expression that is not laid out may end it otherwise. -/
theorem ofGroup?_optimal (valid : memo.Valid) (headed : memo.LogicalFirst)
    (acyclic : ∀ id, ¬ TransGen memo.Uses id id) (relational : memo.Relational id)
    (lawful : Lawful (Setting.ofMemo memo catalog guard model))
    (unstopped : ∀ abort, ofGroup? memo catalog guard model id ≠ .error (.abort abort)) :
    (∃ found, ofGroup? memo catalog guard model id = .ok found ∧
      (found.isSome = true ↔ memo.Planned id) ∧
      ∀ plan, found = some plan → Optimal (Setting.ofMemo memo catalog guard model) id plan) ∨
    (¬ memo.Laid ∧ ∃ cause, ofGroup? memo catalog guard model id = .error (.fault cause)) := by
  have linked := valid.toLinked
  rcases ofGroup?_cases linked headed relational unstopped with ⟨found, done, right⟩ | malformed
  · have chosen := right.chosen fun below _ => acyclic below
    refine Or.inl ⟨found, done, chosen.isSome_iff linked, fun plan same => ?_⟩
    exact (same ▸ chosen).optimal linked lawful
  · exact Or.inr malformed

/-! ### Examples -/

/-- A join of two tables by hashing and, inserted before that, by nested loops. -/
def rivalJoins : List Memo.Request :=
  [.insert (.logical (.get ⟨"shop", "orders"⟩ [])) [],
    .insert (.logical (.get ⟨"shop", "items"⟩ [])) [],
    .insert .truth [],
    .insert (.logical (.join .inner)) [0, 1, 2],
    .insertInto 0 (.physical (.tableScan ⟨"shop", "orders"⟩ [])) [],
    .insertInto 1 (.physical (.tableScan ⟨"shop", "items"⟩ [])) [],
    .insertInto 3 (.physical (.nestedLoopJoin .inner)) [0, 1, 2],
    .insertInto 3 (.physical (.hashJoin .inner)) [0, 1, 2]]

/-- Operators have fixed costs, and nested loops are dear. -/
def byOperator : CostModel := fun operator _ _ _ =>
  match operator with
  | .nestedLoopJoin _ => ⟨2⟩
  | .hashJoin _ => ⟨1⟩
  | _ => ⟨0⟩

theorem byOperator_lawful {statistics : GroupId → Except Fault Statistics} :
    Lawful { memo, guard, statistics, model := byOperator } := by
  have known : ∀ {cost : Cost}, IsCost { memo, guard, statistics, model := byOperator } cost →
      cost = ⟨0⟩ ∨ cost = ⟨1⟩ ∨ cost = ⟨2⟩ := by
    rintro cost ⟨id, plan, tree, rfl⟩
    obtain ⟨_, operator, _, _, _, _, _, _, made⟩ := tree.cases
    obtain ⟨_, _, cost, _⟩ := cost_of_ofInputs made
    rw [cost]
    cases operator with
    | nestedLoopJoin _ => exact Or.inr (Or.inr rfl)
    | hashJoin _ => exact Or.inr (Or.inl rfl)
    | _ => exact Or.inl rfl
  have itself : ∀ operator output inputs low high,
      AtMost (byOperator operator output inputs low) (byOperator operator output inputs high) := by
    intro operator output inputs low high
    unfold AtMost
    cases operator <;> simp only [byOperator] <;> decide
  refine ⟨fun one two less => ?_, fun one two three first second => ?_,
    @fun operator output inputs low high _ _ _ => itself operator output inputs low high⟩
  · unfold AtMost
    rcases known one with rfl | rfl | rfl <;> rcases known two with rfl | rfl | rfl <;>
      revert less <;> decide
  · unfold AtMost at *
    rcases known one with rfl | rfl | rfl <;> rcases known two with rfl | rfl | rfl <;>
      rcases known three with rfl | rfl | rfl <;> revert first second <;> decide

/-- Whether every physical member takes older groups only. -/
def isOrdered (memo : Memo) : Bool :=
  memo.exprs.toList.all fun expr => !expr.operator.isPhysical ||
    (memo.relationalChildren expr).all (· < expr.group)

theorem acyclic_of_isOrdered (checked : isOrdered memo = true) (id : GroupId) :
    ¬ TransGen memo.Uses id id := by
  refine Memo.acyclic_of_rank (fun id => id) (fun {upper lower} uses => ?_) id
  obtain ⟨number, expr, operator, stored, physical, rfl, below⟩ := uses
  have all := List.all_eq_true.1 checked expr
    (Array.mem_toList_iff.2 (Array.mem_of_getElem? stored))
  rw [physical] at all
  exact of_decide_eq_true (List.all_eq_true.1 all lower below)

theorem ofGroup?_optimal_rivalJoins :
    ∃ memo plan, Memo.empty.performAll rivalJoins = .ok memo ∧
      ofGroup? memo {} {} byOperator 3 = .ok (some plan) ∧
      plan.operator = .hashJoin .inner ∧
      Optimal (Setting.ofMemo memo {} {} byOperator) 3 plan := by
  have shown : (Memo.empty.performAll rivalJoins).toOption.map (fun memo =>
      (memo.isLogicalFirst, isOrdered memo, memo.groups[3]?.map Group.isScalar,
        (ofGroup? memo {} {} byOperator 3).toOption.map (·.map operator))) =
      some (true, true, some false, some (some (.hashJoin .inner))) := by
    decide +kernel
  obtain ⟨memo, history, shown⟩ := Option.map_eq_some_iff.1 shown
  have history := toOption_eq_some_iff.1 history
  simp only [Prod.mk.injEq] at shown
  obtain ⟨headed, ordered, family, planned⟩ := shown
  obtain ⟨found, done, operators⟩ := Option.map_eq_some_iff.1 planned
  have done := toOption_eq_some_iff.1 done
  obtain ⟨plan, rfl, same⟩ := Option.map_eq_some_iff.1 operators
  have valid : memo.Valid := (Memo.performAll_keeps history Memo.empty_valid).1
  have best := ofGroup?_optimal valid (Memo.logicalFirst_of_isLogicalFirst headed)
    (acyclic_of_isOrdered ordered) (Option.map_eq_some_iff.1 family) byOperator_lawful
    fun abort stopped => by
      rw [done] at stopped
      cases stopped
  refine ⟨memo, plan, history, done, same, ?_⟩
  rcases best with ⟨_, again, _, optimal⟩ | ⟨_, _, failed⟩
  · rw [done] at again
    exact optimal plan (Except.ok.inj again).symm
  · rw [done] at failed
    cases failed

/-- Whether a group has a tree of no more than some levels. -/
def isPlannedWithin (memo : Memo) : (levels : Nat) → GroupId → Bool
  | 0, _ => false
  | levels + 1, id => (memo.physicalAt id).any fun member =>
    match memo.exprs[member]? with
    | some expr => (memo.relationalChildren expr).all (isPlannedWithin memo levels)
    | none => false

theorem planned_of_isPlannedWithin {memo : Memo} (linked : memo.Linked) {levels : Nat} :
    ∀ {id : GroupId}, isPlannedWithin memo levels id = true → memo.Planned id := by
  induction levels with
  | zero => exact fun checked => nomatch checked
  | succ levels ih =>
    intro id checked
    obtain ⟨member, listed, checked⟩ := List.any_eq_true.1 checked
    obtain ⟨expr, operator, stored, physical, _⟩ := linked.mem_physicalAt_iff.1 listed
    rw [stored] at checked
    refine linked.planned_iff.2 ⟨member, listed, expr, operator, stored, physical, ?_⟩
    exact fun child below => ih (List.all_eq_true.1 checked child below)

/-- A table and a selection without a predicate, each with a physical form. -/
def bareSelection : List Memo.Request :=
  [.insert (.logical (.get ⟨"shop", "orders"⟩ [])) [],
    .insert (.logical .select) [0],
    .insertInto 0 (.physical (.tableScan ⟨"shop", "orders"⟩ [])) [],
    .insertInto 1 (.physical .filter) [0]]

/-- **A search for the plan of an expression that is not laid out** may end in a fault, although its
group has a tree: the statistics of a selection need its predicate. -/
theorem ofGroup?_faults :
    ∃ memo, Memo.empty.performAll bareSelection = .ok memo ∧ memo.LogicalFirst ∧
      (∀ id, ¬ TransGen memo.Uses id id) ∧ memo.Relational 1 ∧ memo.Planned 1 ∧
      Lawful (Setting.ofMemo memo {} {} byOperator) ∧
      ofGroup? memo {} {} byOperator 1 = .error (.fault .indexOutOfBounds) := by
  have shown : (Memo.empty.performAll bareSelection).toOption.map (fun memo =>
      (memo.isLogicalFirst, isOrdered memo, memo.groups[1]?.map Group.isScalar,
        isPlannedWithin memo 2 1,
        match ofGroup? memo {} {} byOperator 1 with
        | .error (.fault .indexOutOfBounds) => true
        | _ => false)) =
      some (true, true, some false, true, true) := by
    decide +kernel
  obtain ⟨memo, history, shown⟩ := Option.map_eq_some_iff.1 shown
  have history := toOption_eq_some_iff.1 history
  simp only [Prod.mk.injEq] at shown
  obtain ⟨headed, ordered, family, planned, faults⟩ := shown
  have valid : memo.Valid := (Memo.performAll_keeps history Memo.empty_valid).1
  refine ⟨memo, history, Memo.logicalFirst_of_isLogicalFirst headed, acyclic_of_isOrdered ordered,
    Option.map_eq_some_iff.1 family, planned_of_isPlannedWithin valid.toLinked planned,
    byOperator_lawful, ?_⟩
  split at faults
  · assumption
  · cases faults

end Cascades.Plan
