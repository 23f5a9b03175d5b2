/-
**What can be reached.**

The groups below a root are looked for level by level. Every level but the last one finds a group
that was not seen before, so there are enough levels for all groups: with a group, the relational
groups below its members are found too.

* `Noted`: what one level finds; `reachFrom_closed`: what all levels find;
* `Reaches`: a group that is found; `reaches_closed`: the root is, and what lies below a group that is;
* `Reaches.least`: nothing else is;
* `Reaches.child`, `Reaches.below`: the inputs and the logical members of such a group.
-/

import Cascades.Proofs.Memo.Layout
import Cascades.Proofs.Search.Candidates
import Mathlib.Data.List.Induction

namespace Cascades.Memo

variable {memo : Memo} {root id : GroupId} {seen : Array Bool}

/-! ### One level -/

/-- Notes a group that was not seen before. -/
def note (found : Array Bool × List GroupId) (child : GroupId) : Array Bool × List GroupId :=
  if found.1.getD child true then found else (found.1.setIfInBounds child true, child :: found.2)

theorem reachFrom_succ {levels : Nat} {frontier : List GroupId} :
    memo.reachFrom (levels + 1) frontier seen =
      let found := (frontier.flatMap memo.groupsBelow).foldl note (seen, [])
      if found.2.isEmpty then found.1 else memo.reachFrom levels found.2 found.1 := rfl

/-- A group was seen. -/
def Seen (seen : Array Bool) (id : GroupId) : Prop := seen[id]? = some true

section Seen

variable {child : GroupId}

theorem seen_iff : Seen seen id ↔ seen.getD id false = true := by
  unfold Seen
  rw [Array.getD_eq_getD_getElem?]
  cases seen[id]? <;> simp

theorem seen_of_getD (known : seen.getD id true = true) (inside : id < seen.size) : Seen seen id := by
  have there : seen[id]? = some seen[id] := Array.getElem?_eq_getElem inside
  rw [Array.getD_eq_getD_getElem?, there, Option.getD_some] at known
  exact there.trans (congrArg some known)

/-- What counts as new is marked as not seen. -/
theorem unseen_of_getD (unknown : ¬ seen.getD id true = true) : seen[id]? = some false := by
  rw [Array.getD_eq_getD_getElem?] at unknown
  cases place : seen[id]? with
  | none =>
    rw [place] at unknown
    exact absurd rfl unknown
  | some mark =>
    rw [place, Option.getD_some, Bool.not_eq_true] at unknown
    rw [unknown]

theorem not_seen_replicate {size : Nat} : ¬ Seen (Array.replicate size false) id := by
  unfold Seen
  rw [Array.getElem?_replicate]
  split <;> exact nofun

theorem seen_setIfInBounds (inside : child < seen.size) :
    Seen (seen.setIfInBounds child true) id ↔ id = child ∨ Seen seen id := by
  unfold Seen
  rw [Array.getElem?_setIfInBounds]
  by_cases same : child = id
  · rw [if_pos same, if_pos inside]
    exact iff_of_true rfl (Or.inl same.symm)
  · rw [if_neg same]
    exact (or_iff_right (Ne.symm same)).symm

end Seen

/-- What is seen after some groups were noted, and which of it was not seen before. -/
structure Noted (seen : Array Bool) (children : List GroupId)
    (found : Array Bool × List GroupId) : Prop where
  size : found.1.size = seen.size
  kept : ∀ {id : GroupId}, Seen seen id → Seen found.1 id
  all : ∀ child ∈ children, child < seen.size → Seen found.1 child
  fresh : ∀ {id : GroupId}, Seen found.1 id → Seen seen id ∨ id ∈ found.2
  count : found.1.count true = seen.count true + found.2.length

theorem Noted.step {children : List GroupId} {found : Array Bool × List GroupId}
    (noted : Noted seen children found) (child : GroupId) :
    Noted seen (children ++ [child]) (note found child) := by
  obtain ⟨marks, next⟩ := found
  have size : marks.size = seen.size := noted.size
  have count : marks.count true = seen.count true + next.length := noted.count
  unfold note
  by_cases known : marks.getD child true = true
  · rw [if_pos known]
    refine ⟨size, noted.kept, fun other member inside => ?_, noted.fresh, count⟩
    rcases List.mem_append.1 member with before | last
    · exact noted.all other before inside
    · obtain rfl := List.mem_singleton.1 last
      exact seen_of_getD known (size.symm ▸ inside)
  · rw [if_neg known]
    obtain ⟨inside, unseen⟩ := Array.getElem?_eq_some_iff.1 (unseen_of_getD known)
    refine ⟨Array.size_setIfInBounds.trans size,
      fun before => (seen_setIfInBounds inside).2 (Or.inr (noted.kept before)),
      fun other member bound => (seen_setIfInBounds inside).2 ?_, fun after => ?_, ?_⟩
    · rcases List.mem_append.1 member with before | last
      · exact Or.inr (noted.all other before bound)
      · exact Or.inl (List.mem_singleton.1 last)
    · rcases (seen_setIfInBounds inside).1 after with rfl | before
      · exact Or.inr List.mem_cons_self
      · exact (noted.fresh before).imp_right (List.mem_cons_of_mem _)
    · rw [Array.setIfInBounds_def, dif_pos inside, Array.count_set, unseen, count, List.length_cons]
      rfl

/-- **What one level finds.** -/
theorem noted_foldl (children : List GroupId) :
    Noted seen children (children.foldl note (seen, [])) := by
  induction children using List.reverseRecOn with
  | nil => exact ⟨rfl, id, nofun, Or.inl, rfl⟩
  | append_singleton children child ih =>
    rw [List.foldl_append]
    exact ih.step child

/-! ### All levels -/

/-- **What all levels find** holds what was seen before and all groups below. -/
theorem reachFrom_closed {levels : Nat} {frontier : List GroupId}
    (inside : ∀ {id child : GroupId}, child ∈ memo.groupsBelow id → child < seen.size)
    (enough : seen.size < seen.count true + levels)
    (closed : ∀ {id : GroupId}, Seen seen id →
      id ∈ frontier ∨ ∀ child ∈ memo.groupsBelow id, Seen seen child) :
    (∀ {id : GroupId}, Seen seen id → Seen (memo.reachFrom levels frontier seen) id) ∧
      ∀ {id child : GroupId}, Seen (memo.reachFrom levels frontier seen) id →
        child ∈ memo.groupsBelow id → Seen (memo.reachFrom levels frontier seen) child := by
  induction levels generalizing frontier seen with
  | zero => exact absurd Array.count_le_size (Nat.not_le.2 enough)
  | succ levels ih =>
    have noted : Noted seen (frontier.flatMap memo.groupsBelow) _ := noted_foldl _
    rw [reachFrom_succ]
    generalize (frontier.flatMap memo.groupsBelow).foldl note (seen, []) = found at noted
    have below : ∀ {id child : GroupId}, Seen seen id → child ∈ memo.groupsBelow id →
        Seen found.1 child := by
      intro id child before member
      rcases closed before with waiting | done
      · exact noted.all child (List.mem_flatMap.2 ⟨id, waiting, member⟩) (inside member)
      · exact noted.kept (done child member)
    show (∀ {id : GroupId}, _ → Seen (if found.2.isEmpty then found.1 else _) id) ∧ _
    by_cases last : found.2.isEmpty = true
    · simp only [if_pos last]
      have nothing : found.2 = [] := List.isEmpty_iff.1 last
      refine ⟨noted.kept, fun {id child} after member => below ?_ member⟩
      exact (noted.fresh after).resolve_right (nothing ▸ List.not_mem_nil)
    · simp only [if_neg last]
      have more : 0 < found.2.length := List.length_pos_iff.2 fun none => last (by rw [none]; rfl)
      have size := noted.size
      have count := noted.count
      have bound : ∀ {id child : GroupId}, child ∈ memo.groupsBelow id → child < found.1.size :=
        fun member => size.symm ▸ inside member
      obtain ⟨kept, all⟩ := ih bound (by omega)
        fun after => (noted.fresh after).symm.imp_right fun before child => below before
      exact ⟨fun before => kept (noted.kept before), all⟩

/-- What one level finds is among what lies below. -/
theorem mem_of_noted {children : List GroupId} {found : Array Bool × List GroupId}
    (member : id ∈ (children.foldl note found).2) : id ∈ children ∨ id ∈ found.2 := by
  induction children generalizing found with
  | nil => exact Or.inr member
  | cons child children ih =>
    rcases ih member with later | now
    · exact Or.inl (List.mem_cons_of_mem _ later)
    · unfold note at now
      split at now
      · exact Or.inr now
      · rcases List.mem_cons.1 now with rfl | before
        · exact Or.inl List.mem_cons_self
        · exact Or.inr before

/-- **Nothing else is found**: what holds of all that was seen, and of what lies below where it holds,
holds of all that is found. -/
theorem reachFrom_least {levels : Nat} {frontier : List GroupId} {holds : GroupId → Prop}
    (closed : ∀ {id child : GroupId}, holds id → child ∈ memo.groupsBelow id → holds child)
    (begun : ∀ {id : GroupId}, Seen seen id → holds id) (waiting : ∀ id ∈ frontier, holds id)
    (found : Seen (memo.reachFrom levels frontier seen) id) : holds id := by
  induction levels generalizing frontier seen with
  | zero => exact begun found
  | succ levels ih =>
    have noted : Noted seen (frontier.flatMap memo.groupsBelow) _ := noted_foldl _
    have fresh : ∀ other ∈ ((frontier.flatMap memo.groupsBelow).foldl note (seen, [])).2,
        holds other := by
      intro other member
      obtain ⟨upper, among, below⟩ :=
        List.mem_flatMap.1 ((mem_of_noted member).resolve_right List.not_mem_nil)
      exact closed (waiting upper among) below
    have all : ∀ {other : GroupId},
        Seen ((frontier.flatMap memo.groupsBelow).foldl note (seen, [])).1 other → holds other :=
      fun seen => (noted.fresh seen).elim begun (fresh _)
    rw [reachFrom_succ] at found
    by_cases last : ((frontier.flatMap memo.groupsBelow).foldl note (seen, [])).2.isEmpty = true
    · simp only [if_pos last] at found
      exact all found
    · simp only [if_neg last] at found
      exact ih all fresh found

/-! ### Groups below a root -/

/-- A group that is found below a root. -/
def Reaches (memo : Memo) (root id : GroupId) : Prop :=
  ∃ ids, memo.reachable root = .ok ids ∧ id ∈ ids

/-- Where the search for groups begins: at the root. -/
def seenAt (memo : Memo) (root : GroupId) : Array Bool :=
  (Array.replicate memo.groups.size false).setIfInBounds root true

/-- What all levels find below the root. -/
def seenBelow (memo : Memo) (root : GroupId) : Array Bool :=
  memo.reachFrom memo.groups.size [root] (memo.seenAt root)

theorem size_seenAt : (memo.seenAt root).size = memo.groups.size := by
  simp [seenAt]

theorem seen_seenAt (inside : root < memo.groups.size) :
    Seen (memo.seenAt root) id ↔ id = root :=
  (seen_setIfInBounds (by simpa using inside)).trans (or_iff_left not_seen_replicate)

theorem reaches_iff (relational : memo.Relational root) :
    memo.Reaches root id ↔ id < memo.groups.size ∧ Seen (memo.seenBelow root) id := by
  obtain ⟨group, there, family⟩ := relational
  have found : memo.reachable root = .ok ((List.range memo.groups.size).filter fun id =>
      (memo.seenBelow root).getD id false) := by
    unfold reachable
    rw [group_ok_iff.2 there]
    show (if group.isScalar = true then _ else _) = _
    rw [family]
    rfl
  unfold Reaches
  rw [found, seen_iff]
  constructor
  · rintro ⟨_, same, member⟩
    cases same
    exact ⟨List.mem_range.1 (List.mem_filter.1 member).1, (List.mem_filter.1 member).2⟩
  · rintro ⟨inside, seen⟩
    exact ⟨_, rfl, List.mem_filter.2 ⟨List.mem_range.2 inside, seen⟩⟩

/-- Only below a relation are groups found. -/
theorem Reaches.relational (reaches : memo.Reaches root id) : memo.Relational root := by
  obtain ⟨ids, found, member⟩ := reaches
  obtain ⟨group, there, found⟩ := bind_eq_ok_iff.1 found
  cases family : group.isScalar with
  | true =>
    rw [family, if_pos rfl] at found
    rw [← pure_eq_ok_iff.1 found] at member
    cases member
  | false => exact ⟨group, group_ok_iff.1 there, family⟩

/-- **What holds of a root** and below all groups of which it holds holds of all that is found. -/
theorem Reaches.least {holds : GroupId → Prop} (rooted : holds root)
    (closed : ∀ {id child : GroupId}, holds id → child ∈ memo.groupsBelow id → holds child)
    (reaches : memo.Reaches root id) : holds id := by
  have relational := reaches.relational
  refine reachFrom_least closed (fun seen => ?_) (List.forall_mem_singleton.2 rooted)
    ((reaches_iff relational).1 reaches).2
  rw [(seen_seenAt relational.inside).1 seen]
  exact rooted

section Reaches

variable (linked : memo.Linked)
include linked

theorem Linked.mem_groupsBelow_iff {upper child : GroupId} :
    child ∈ memo.groupsBelow upper ↔ ∃ (number : ExprId) (expr : Expr),
      memo.exprs[number]? = some expr ∧ expr.group = upper ∧
        child ∈ memo.relationalChildren expr := by
  unfold groupsBelow
  constructor
  · intro member
    cases there : memo.groups[upper]? with
    | none =>
      rw [there] at member
      cases member
    | some group =>
      rw [there] at member
      obtain ⟨number, listed, member⟩ := List.mem_flatMap.1 member
      obtain ⟨position, place⟩ := Array.mem_iff_getElem?.1 (Array.mem_toList_iff.1 listed)
      obtain ⟨expr, stored, named, _⟩ := linked.listed there place
      rw [stored] at member
      exact ⟨number, expr, stored, named, member⟩
  · rintro ⟨number, expr, stored, rfl, below⟩
    obtain ⟨group, there, place⟩ := linked.placed stored
    rw [there]
    refine List.mem_flatMap.2 ⟨number, Array.mem_toList_iff.2 (Array.mem_of_getElem? place), ?_⟩
    rw [stored]
    exact below

/-- **A root is found, and all that lies below what is found.** -/
theorem Linked.reaches_closed (relational : memo.Relational root) :
    memo.Reaches root root ∧ ∀ {id child : GroupId}, memo.Reaches root id →
      child ∈ memo.groupsBelow id → memo.Reaches root child := by
  have bound := relational.inside
  have inside : ∀ {id child : GroupId}, child ∈ memo.groupsBelow id → child < memo.groups.size := by
    intro id child member
    obtain ⟨number, expr, stored, _, below⟩ := linked.mem_groupsBelow_iff.1 member
    exact linked.childExists stored (List.mem_filter.1 below).1
  have bounded : ∀ {id child : GroupId}, child ∈ memo.groupsBelow id →
      child < (memo.seenAt root).size := fun member => size_seenAt.symm ▸ inside member
  have rooted : Seen (memo.seenAt root) root := (seen_seenAt bound).2 rfl
  have some : 0 < (memo.seenAt root).count true :=
    Array.count_pos_iff.2 (Array.mem_of_getElem? rooted)
  have enough : (memo.seenAt root).size < (memo.seenAt root).count true + memo.groups.size := by
    rw [size_seenAt]
    omega
  obtain ⟨kept, closed⟩ := memo.reachFrom_closed bounded enough
    fun seen => Or.inl (List.mem_singleton.2 ((seen_seenAt bound).1 seen))
  refine ⟨(reaches_iff relational).2 ⟨bound, kept rooted⟩, fun reaches member => ?_⟩
  exact (reaches_iff relational).2
    ⟨inside member, closed ((reaches_iff relational).1 reaches).2 member⟩

variable {number : ExprId} {expr : Expr} (stored : memo.exprs[number]? = some expr)
include stored

/-- The inputs of the members of a group below a root are below the root. -/
theorem Reaches.child (relational : memo.Relational root) (reaches : memo.Reaches root expr.group)
    {child : GroupId} (below : child ∈ memo.relationalChildren expr) : memo.Reaches root child :=
  (linked.reaches_closed relational).2 reaches
    (linked.mem_groupsBelow_iff.2 ⟨number, expr, stored, rfl, below⟩)

/-- The logical members of a group below a root are below the root. -/
theorem Reaches.below (reaches : memo.Reaches root expr.group) {operator : LogicalOp}
    (logical : expr.operator = .logical operator) : memo.Below root number := by
  obtain ⟨ids, found, listed⟩ := reaches
  obtain ⟨group, there, place⟩ := linked.placed stored
  refine ⟨ids, expr.group, group, found, listed, there, List.mem_filter.2 ⟨?_, ?_⟩⟩
  · exact Array.mem_toList_iff.2 (Array.mem_of_getElem? place)
  · exact hasOperator_iff.2 ⟨expr, stored, by rw [logical]; rfl⟩

end Reaches

end Cascades.Memo
