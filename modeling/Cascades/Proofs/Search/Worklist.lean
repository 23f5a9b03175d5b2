/-
**A loop finds what can be reached.**

What can be reached from a root is found by a loop with a stack of the groups that it still has to look
at. A relation that it meets for the first time leaves the children of all its members on the stack, so
the relations that are not yet seen get fewer, or the stack gets shorter. Relations that lie below each
other are no obstacle.

* `worklistRound`, `worklist`: the loop; `worklist_push_new`: what becomes of the group on top of the stack;
* `Worked`: what a loop has found in the end; `Linked.worklist_ends`: every loop ends with that;
* `Linked.reachable_exact`: the loop ends with the relations that can be reached, and these are the least set
  that has the root and the inputs of its members.
-/

import Cascades.Proofs.Descent
import Cascades.Proofs.Memo.History
import Cascades.Proofs.Search.Reach
import Mathlib.Data.Finset.Card

namespace Cascades.Memo

variable {memo : Memo} {root id : GroupId} {stack : Array GroupId} {seen final : SortedSet GroupId}

/-! ### Inputs -/

/-- A relation below a member of a group. -/
def Input (memo : Memo) (upper lower : GroupId) : Prop :=
  memo.Relational lower ∧ ∃ (group : Group) (number : ExprId) (expr : Expr),
    memo.groups[upper]? = some group ∧ number ∈ group.members ∧
      memo.exprs[number]? = some expr ∧ lower ∈ expr.children

/-- The inputs of a group are the relations that are looked for below it. -/
theorem Linked.input_iff (linked : memo.Linked) {upper lower : GroupId} :
    memo.Input upper lower ↔ lower ∈ memo.groupsBelow upper := by
  rw [linked.mem_groupsBelow_iff]
  constructor
  · rintro ⟨relational, group, number, expr, there, listed, stored, below⟩
    obtain ⟨position, place⟩ := Array.mem_iff_getElem?.1 listed
    obtain ⟨_, again, named, _⟩ := linked.listed there place
    obtain rfl := Option.some.inj (stored.symm.trans again)
    exact ⟨number, expr, stored, named, List.mem_filter.2 ⟨below, by simp [(relational_iff.1 relational).2]⟩⟩
  · rintro ⟨number, expr, stored, rfl, below⟩
    obtain ⟨group, there, place⟩ := linked.placed stored
    obtain ⟨child, family⟩ := List.mem_filter.1 below
    exact ⟨relational_iff.2 ⟨linked.childExists stored child, by simpa using family⟩, group, number, expr,
      there, Array.mem_of_getElem? place, stored, child⟩

/-- The children of the members of a group, member after member. -/
def childrenOf (memo : Memo) (group : Group) : Except Fault (List GroupId) := do
  return (← group.members.toList.mapM memo.expr).flatMap Expr.children

/-- The children of the members of a group are there, and the relations among them are its inputs. -/
theorem Linked.childrenOf_ends (linked : memo.Linked) {group : Group}
    (there : memo.groups[id]? = some group) :
    ∃ children, memo.childrenOf group = .ok children ∧ (∀ child ∈ children, child < memo.groups.size) ∧
      ∀ child, memo.Input id child ↔ memo.Relational child ∧ child ∈ children := by
  have each : ∀ number ∈ group.members.toList, ∃ expr, memo.expr number = .ok expr := by
    intro number listed
    obtain ⟨position, place⟩ := Array.mem_iff_getElem?.1 (Array.mem_toList_iff.1 listed)
    obtain ⟨expr, stored, _⟩ := linked.listed there place
    exact ⟨expr, expr_ok_iff.2 stored⟩
  obtain ⟨exprs, found⟩ := mapM_total each
  refine ⟨_, bind_eq_ok_iff.2 ⟨exprs, found, rfl⟩, ?_, fun child => and_congr_right fun _ => ?_⟩
  · intro child member
    obtain ⟨expr, listed, below⟩ := List.mem_flatMap.1 member
    obtain ⟨number, _, stored⟩ := (mem_mapM_iff found).1 listed
    exact linked.childExists (expr_ok_iff.1 stored) below
  · rw [List.mem_flatMap]
    constructor
    · rintro ⟨_, number, expr, again, listed, stored, below⟩
      obtain rfl := Option.some.inj (there.symm.trans again)
      exact ⟨expr, (mem_mapM_iff found).2 ⟨number, Array.mem_toList_iff.2 listed, expr_ok_iff.2 stored⟩, below⟩
    · rintro ⟨expr, listed, below⟩
      obtain ⟨number, member, stored⟩ := (mem_mapM_iff found).1 listed
      exact ⟨group, number, expr, there, Array.mem_toList_iff.1 member, expr_ok_iff.1 stored, below⟩

/-! ### The loop -/

/-- A round of a loop with a stack of the groups that it still has to look at, and with the relations that it
has seen. -/
def worklistRound (memo : Memo) (state : Array GroupId × SortedSet GroupId) :
    Except Fault (SortedSet GroupId) ⊕ Array GroupId × SortedSet GroupId :=
  match state.1.back? with
  | none => .inl (.ok state.2)
  | some id =>
    match memo.group id with
    | .error cause => .inl (.error cause)
    | .ok group =>
      if group.isScalar || decide (id ∈ state.2) then .inr (state.1.pop, state.2)
      else
        match memo.childrenOf group with
        | .error cause => .inl (.error cause)
        | .ok children => .inr (state.1.pop ++ children.toArray, state.2.insert id)

/-- The relations that the loop ends with. -/
def worklist (memo : Memo) (stack : Array GroupId) (seen : SortedSet GroupId) :
    Part (Except Fault (SortedSet GroupId)) := loop memo.worklistRound (stack, seen)

theorem worklist_empty : memo.worklist #[] seen = Part.some (.ok seen) := loop_last rfl

/-- A group that is no relation, or was seen before, is left out. -/
theorem worklist_push_seen (inside : id < memo.groups.size) (known : memo.Relational id → id ∈ seen) :
    memo.worklist (stack.push id) seen = memo.worklist stack seen := by
  obtain ⟨group, there⟩ := group_of_lt inside
  have skipped : (group.isScalar || decide (id ∈ seen)) = true := by
    cases family : group.isScalar with
    | true => rfl
    | false => exact decide_eq_true (known ⟨group, there, family⟩)
  refine loop_next ?_
  unfold worklistRound
  simp only [Array.back?_push, Array.pop_push, group_ok_iff.2 there, if_pos skipped]

/-- A relation that was not seen before leaves the children of its members on the stack. -/
theorem worklist_push_new {group : Group} {children : List GroupId}
    (there : memo.groups[id]? = some group) (family : group.isScalar = false) (new : id ∉ seen)
    (below : memo.childrenOf group = .ok children) :
    memo.worklist (stack.push id) seen = memo.worklist (stack ++ children.toArray) (seen.insert id) := by
  have taken : ¬ (group.isScalar || decide (id ∈ seen)) = true := by
    simp [family, new]
  refine loop_next ?_
  unfold worklistRound
  simp only [Array.back?_push, Array.pop_push, group_ok_iff.2 there, if_neg taken, below]

/-! ### The end of the loop -/

/-- What a loop has found in the end: with what it had seen, the relations on its stack and the inputs of all
that it has found, and nothing that is not needed for that. -/
structure Worked (memo : Memo) (stack : Array GroupId) (seen final : SortedSet GroupId) : Prop where
  kept : ∀ {id : GroupId}, id ∈ seen → id ∈ final
  begun : ∀ {id : GroupId}, id ∈ stack → memo.Relational id → id ∈ final
  closed : ∀ {id child : GroupId}, id ∈ final → id ∉ seen → memo.Input id child → child ∈ final
  least : ∀ {holds : GroupId → Prop}, (∀ id ∈ stack, memo.Relational id → holds id) →
    (∀ {id child : GroupId}, holds id → memo.Input id child → holds child) →
      ∀ {id : GroupId}, id ∈ final → id ∈ seen ∨ holds id

theorem Worked.empty : memo.Worked #[] seen seen where
  kept := id
  begun member := absurd member (Array.not_mem_empty _)
  closed found new := absurd found new
  least _ _ _ found := Or.inl found

/-- A group that is left out adds nothing. -/
theorem Worked.skip (known : memo.Relational id → id ∈ seen) (worked : memo.Worked stack seen final) :
    memo.Worked (stack.push id) seen final where
  kept := worked.kept
  begun member relational := by
    rcases Array.mem_push.1 member with member | rfl
    · exact worked.begun member relational
    · exact worked.kept (known relational)
  closed := worked.closed
  least rooted := worked.least fun other member => rooted other (Array.mem_push.2 (Or.inl member))

/-- A relation adds itself and, by what it leaves on the stack, its inputs. -/
theorem Worked.visit {children : List GroupId} (relational : memo.Relational id)
    (inputs : ∀ child, memo.Input id child ↔ memo.Relational child ∧ child ∈ children)
    (worked : memo.Worked (stack ++ children.toArray) (seen.insert id) final) :
    memo.Worked (stack.push id) seen final where
  kept found := worked.kept (SortedSet.mem_insert.2 (Or.inr found))
  begun member relation := by
    rcases Array.mem_push.1 member with member | rfl
    · exact worked.begun (by simp [member]) relation
    · exact worked.kept (SortedSet.mem_insert.2 (Or.inl rfl))
  closed {upper child} found new input := by
    by_cases same : upper = id
    · subst same
      obtain ⟨relation, below⟩ := (inputs child).1 input
      exact worked.begun (by simp [below]) relation
    · exact worked.closed found (fun member => (SortedSet.mem_insert.1 member).elim same new) input
  least {holds} rooted inherited {other} found := by
    have self : holds id := rooted id Array.mem_push_self relational
    have others : ∀ other ∈ stack ++ children.toArray, memo.Relational other → holds other := by
      intro other member relation
      rcases Array.mem_append.1 member with member | below
      · exact rooted other (Array.mem_push.2 (Or.inl member)) relation
      · exact inherited self ((inputs other).2 ⟨relation, List.mem_toArray.1 below⟩)
    rcases worked.least others inherited found with member | right
    · rcases SortedSet.mem_insert.1 member with rfl | before
      · exact Or.inr self
      · exact Or.inl before
    · exact Or.inr right

/-- The groups that a loop has not seen. -/
def unseen (memo : Memo) (seen : SortedSet GroupId) : Finset GroupId :=
  (Finset.range memo.groups.size).filter (· ∉ seen)

theorem unseen_insert (inside : id < memo.groups.size) (new : id ∉ seen) :
    memo.unseen (seen.insert id) ⊂ memo.unseen seen := by
  have fewer : memo.unseen (seen.insert id) ⊆ memo.unseen seen := by
    intro other member
    obtain ⟨below, unknown⟩ := Finset.mem_filter.1 member
    exact Finset.mem_filter.2 ⟨below, fun known => unknown (SortedSet.mem_insert.2 (Or.inr known))⟩
  refine (Finset.ssubset_iff_of_subset fewer).2 ⟨id, ?_, fun still => ?_⟩
  · exact Finset.mem_filter.2 ⟨Finset.mem_range.2 inside, new⟩
  · exact (Finset.mem_filter.1 still).2 (SortedSet.mem_insert.2 (Or.inl rfl))

/-- **Every loop ends.** The induction is on the groups that it has not seen and, while these stay, on the
stack. -/
theorem Linked.worklist_ends (linked : memo.Linked) (stack : Array GroupId) (seen : SortedSet GroupId)
    (inside : ∀ id ∈ stack, id < memo.groups.size) :
    ∃ final, memo.worklist stack seen = Part.some (.ok final) ∧ memo.Worked stack seen final := by
  induction unknown : memo.unseen seen using Finset.strongInduction generalizing stack seen with
  | H set fewer =>
    subst unknown
    obtain ⟨list, rfl⟩ : ∃ list : List GroupId, stack = list.toArray := ⟨stack.toList, Array.toArray_toList.symm⟩
    induction list using List.reverseRecOn with
    | nil => exact ⟨seen, worklist_empty, Worked.empty⟩
    | append_singleton list id shorter =>
      rw [← List.push_toArray] at inside ⊢
      have present : id < memo.groups.size := inside id Array.mem_push_self
      have others : ∀ other ∈ list.toArray, other < memo.groups.size :=
        fun other member => inside other (Array.mem_push.2 (Or.inl member))
      by_cases known : memo.Relational id → id ∈ seen
      · obtain ⟨final, run, worked⟩ := shorter others
        exact ⟨final, (worklist_push_seen present known).trans run, worked.skip known⟩
      · obtain ⟨relational, new⟩ := Classical.not_imp.1 known
        obtain ⟨group, there, family⟩ := relational
        obtain ⟨children, found, bounded, inputs⟩ := linked.childrenOf_ends there
        have bound : ∀ other ∈ list.toArray ++ children.toArray, other < memo.groups.size := by
          intro other member
          rcases Array.mem_append.1 member with member | below
          · exact others other member
          · exact bounded other (List.mem_toArray.1 below)
        obtain ⟨final, run, worked⟩ := fewer _ (unseen_insert present new) _ _ bound rfl
        exact ⟨final, (worklist_push_new there family new found).trans run,
          worked.visit ⟨group, there, family⟩ inputs⟩

/-! ### What can be reached -/

/-- Groups are looked for in ascending order. -/
theorem ascending_of_reachable {ids : List GroupId} (found : memo.reachable root = .ok ids) :
    ids.Pairwise fun first second => compare first second = .lt := by
  obtain ⟨group, _, found⟩ := bind_eq_ok_iff.1 found
  cases family : group.isScalar with
  | true =>
    rw [family, if_pos rfl] at found
    rw [← pure_eq_ok_iff.1 found]
    exact List.Pairwise.nil
  | false =>
    rw [family] at found
    rw [← pure_eq_ok_iff.1 found]
    exact (List.pairwise_lt_range.imp compare_lt_iff_lt.2).filter _

/-- **What can be reached is found exactly**: by the loop, which ends, and in ascending order. It is the least
set of relations that has the root and the inputs of its members. -/
theorem Linked.reachable_exact (linked : memo.Linked) (relational : memo.Relational root) :
    ∃ ids : SortedSet GroupId,
      memo.worklist #[root] ∅ = Part.some (.ok ids) ∧ memo.reachable root = .ok ids.toList ∧
      ids.toList.Pairwise (· < ·) ∧
      (root ∈ ids ∧ (∀ id ∈ ids, memo.Relational id) ∧
        ∀ {id child : GroupId}, id ∈ ids → memo.Input id child → child ∈ ids) ∧
      ∀ {holds : GroupId → Prop}, holds root →
        (∀ {id child : GroupId}, holds id → memo.Input id child → holds child) → ∀ id ∈ ids, holds id := by
  obtain ⟨ids, run, worked⟩ := linked.worklist_ends #[root] ∅ fun id member => by
    rw [Array.mem_singleton.1 member]
    exact relational.inside
  have rooted : root ∈ ids := worked.begun (Array.mem_singleton.2 rfl) relational
  have closed : ∀ {id child : GroupId}, id ∈ ids → memo.Input id child → child ∈ ids :=
    fun found => worked.closed found (SortedSet.not_mem_empty _)
  have least : ∀ {holds : GroupId → Prop}, holds root →
      (∀ {id child : GroupId}, holds id → memo.Input id child → holds child) → ∀ id ∈ ids, holds id := by
    intro holds begun inherited id found
    refine (worked.least (fun other member _ => ?_) inherited found).resolve_left (SortedSet.not_mem_empty _)
    rw [Array.mem_singleton.1 member]
    exact begun
  -- Level by level nothing else is found.
  obtain ⟨again, reached⟩ := linked.reaches_closed relational
  have same : ∀ {id : GroupId}, id ∈ ids ↔ memo.Reaches root id := by
    intro id
    constructor
    · exact least again (fun found input => reached found (linked.input_iff.1 input)) id
    · exact Reaches.least rooted fun found below => closed found (linked.input_iff.2 below)
  have listed : memo.reachable root = .ok ids.toList := by
    obtain ⟨list, found, _⟩ := again
    have equal : (⟨list, ascending_of_reachable found⟩ : SortedSet GroupId) = ids := by
      refine SortedSet.ext fun id => Iff.trans ?_ same.symm
      exact ⟨fun member => ⟨list, found, member⟩, fun ⟨_, other, member⟩ => by
        rw [found] at other
        cases other
        exact member⟩
    rw [← equal]
    exact found
  refine ⟨ids, run, listed, ?_, ⟨rooted, ?_, closed⟩, least⟩
  · exact ids.ascending.imp compare_lt_iff_lt.1
  · exact least relational fun _ input => input.1

/-- A table and a selection of it that is also put into the group of the table, with a filter for the
selection. So both groups are below each other. The other table is apart. -/
def circularSelections : List Request :=
  [.insert (.logical (.get ⟨"shop", "orders"⟩ [])) [],
    .insert (.logical (.get ⟨"shop", "items"⟩ [])) [],
    .insert .truth [],
    .insert (.logical .select) [0, 2],
    .insertInto 0 (.logical .select) [3, 2],
    .insertInto 3 (.physical .filter) [0, 2]]

/-- From the selection both groups are reached, and nothing else. -/
theorem reachable_exact_circularSelections :
    ∃ memo, empty.performAll circularSelections = .ok memo ∧ memo.Input 0 3 ∧ memo.Input 3 0 ∧
      memo.reachable 3 = .ok [0, 3] ∧
      ∃ ids : SortedSet GroupId, memo.worklist #[3] ∅ = Part.some (.ok ids) ∧ ids.toList = [0, 3] := by
  have shown : (empty.performAll circularSelections).toOption.map (fun memo =>
      (memo.groups[3]?.map Group.isScalar, (memo.groupsBelow 0, memo.groupsBelow 3),
        (memo.reachable 3).toOption)) = some (some false, ([3], [0, 0]), some [0, 3]) := by
    decide +kernel
  obtain ⟨memo, history, shown⟩ := Option.map_eq_some_iff.1 shown
  have history := toOption_eq_some_iff.1 history
  simp only [Prod.mk.injEq] at shown
  obtain ⟨family, ⟨first, second⟩, found⟩ := shown
  have linked : memo.Linked := (performAll_keeps history empty_valid).1.toLinked
  have found := toOption_eq_some_iff.1 found
  obtain ⟨ids, run, again, _⟩ := linked.reachable_exact (Option.map_eq_some_iff.1 family)
  refine ⟨memo, history, linked.input_iff.2 ?_, linked.input_iff.2 ?_, found, ids, run, ?_⟩
  · rw [first]
    exact List.mem_cons_self
  · rw [second]
    exact List.mem_cons_self
  · rw [found] at again
    exact (Except.ok.inj again).symm

end Cascades.Memo
