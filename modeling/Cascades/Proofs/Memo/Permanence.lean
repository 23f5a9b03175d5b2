/-
**Nothing in a memo goes away, and what is closed stays so.**

Whatever is requested of a memo, its expressions stay where they are, its groups only get members at
their ends, and a shape that was found is found again. A closed group does not change any more, nor does a
closed memo, where shapes that are there are still given. A request that is refused has changed nothing:
where it consists of several insertions, those before the refused one stay.

* `Lasts`: what a memo keeps; `perform_lasts`, `performAll_lasts`: every request keeps it;
* `standing?`: the group of a proposal all of whose shapes are there; `materialize_of_standing`,
  `insertProposals_of_standing`: such a proposal adds nothing;
* `Change`: insertion in place, where a fault leaves the memo as it is then; `insert_settles`,
  `insertInto_settles`, `insertProposals_refused`: what is left;
* `performAll_permanent`: all of this for every history.
-/

import Cascades.Proofs.Memo.History
import Cascades.Proofs.Memo.Resolution

namespace Cascades.Memo

variable {memo next later : Memo}

/-! ### What stays -/

/-- In a memo that is closed every group is closed. -/
def Sealed (memo : Memo) : Prop :=
  memo.isOpen = false → ∀ {id : GroupId} {group : Group}, memo.groups[id]? = some group →
    group.isOpen = false

/-- **What a later memo keeps**: closed groups, and all of a closed memo. -/
structure Lasts (memo next : Memo) : Prop where
  closedGroups : ∀ {id : GroupId} {group : Group}, memo.groups[id]? = some group →
    group.isOpen = false → next.groups[id]? = some group
  closedMemo : memo.Sealed → memo.isOpen = false →
    next.isOpen = false ∧ next.groups = memo.groups ∧ next.exprs = memo.exprs
  sealed : memo.Sealed → next.Sealed

namespace Lasts

protected theorem refl (memo : Memo) : memo.Lasts memo where
  closedGroups there _ := there
  closedMemo _ closed := ⟨closed, rfl, rfl⟩
  sealed := id

theorem trans {last : Memo} (first : memo.Lasts next) (second : next.Lasts last) :
    memo.Lasts last where
  closedGroups there closed := second.closedGroups (first.closedGroups there closed) closed
  closedMemo fast closed := by
    obtain ⟨still, groups, exprs⟩ := first.closedMemo fast closed
    obtain ⟨ever, same, stored⟩ := second.closedMemo (first.sealed fast) still
    exact ⟨ever, same.trans groups, stored.trans exprs⟩
  sealed fast := second.sealed (first.sealed fast)

end Lasts

/-! ### One request -/

section Insertion

variable {operator : Operator} {children : List GroupId} {id : ExprId} {target : GroupId}

/-- A new expression goes to the end of an open group. -/
theorem append_lasts {group : Group} (there : memo.groups[target]? = some group)
    (room : group.isOpen = true) : memo.Lasts (memo.append target operator children) where
  closedGroups {place other} found closed := by
    rw [groups_append, if_neg, found]
    rintro rfl
    rw [there] at found
    cases found
    rw [room] at closed
    cases closed
  closedMemo fast closed := by
    rw [fast closed there] at room
    cases room
  sealed fast closed := by
    rw [fast closed there] at room
    cases room

theorem insert_lasts (done : memo.insert operator children = .ok (id, next)) : memo.Lasts next := by
  obtain ⟨_, ⟨_, rfl⟩ | ⟨_, room, _, rfl⟩⟩ := insert_cases done
  · exact .refl next
  · have wider : memo.Lasts (memo.appendGroup operator.isScalar) := by
      refine ⟨fun {place group} found _ => ?_, fun _ closed => ?_, fun _ closed => ?_⟩
      · rw [groups_appendGroup, if_neg (Nat.ne_of_lt (lt_of_group found)), found]
      all_goals
        rw [show memo.isOpen = false from closed] at room
        cases room
    have empty : (memo.appendGroup operator.isScalar).groups[memo.groups.size]? =
        some { isScalar := operator.isScalar } := by
      rw [groups_appendGroup, if_pos rfl]
    exact wider.trans (append_lasts empty rfl)

theorem insertInto_lasts (done : memo.insertInto target operator children = .ok (id, next)) :
    memo.Lasts next := by
  obtain ⟨_, ⟨_, rfl⟩ | ⟨_, _, rfl, group, there, room, _⟩⟩ := insertInto_cases done
  · exact .refl next
  · exact append_lasts there room

end Insertion

/-- Closing some groups, or a memo with all of its groups, changes nothing that is closed. -/
theorem shut_lasts (shut : GroupId → Bool) (exprs : next.exprs = memo.exprs)
    (groups : ∀ id : GroupId, next.groups[id]? =
      (memo.groups[id]?).map fun group => { group with isOpen := group.isOpen && !shut id })
    (whole : next.isOpen = memo.isOpen ∨ next.isOpen = false ∧ ∀ id, shut id = true) :
    memo.Lasts next := by
  have unchanged : ∀ {id : GroupId} {group : Group}, memo.groups[id]? = some group →
      group.isOpen = false → next.groups[id]? = some group := by
    intro id group there closed
    rw [groups, there, Option.map_some, closed, Bool.false_and, ← closed]
  refine ⟨unchanged, fun fast closed => ⟨?_, Array.ext_getElem? fun id => ?_, exprs⟩,
    fun fast closed id other found => ?_⟩
  · exact whole.elim (fun same => same.trans closed) And.left
  · cases there : memo.groups[id]? with
    | none => rw [groups, there, Option.map_none]
    | some group => exact unchanged there (fast closed there)
  · rw [groups] at found
    obtain ⟨group, there, rfl⟩ := Option.map_eq_some_iff.1 found
    rcases whole with same | ⟨_, every⟩
    · exact Bool.and_eq_false_iff.2 (.inl (fast (same ▸ closed) there))
    · exact Bool.and_eq_false_iff.2 (.inr (by rw [every, Bool.not_true]))

theorem closeGroup_lasts {id : GroupId} (done : memo.closeGroup id = .ok next) : memo.Lasts next := by
  unfold closeGroup at done
  obtain ⟨group, _, done⟩ := bind_eq_ok_iff.1 done
  cases pure_eq_ok_iff.1 done
  refine shut_lasts (fun other => decide (id = other)) rfl (fun other => ?_) (.inl rfl)
  rw [Array.getElem?_modify]
  split <;> rename_i same <;> cases memo.groups[other]? <;> simp [same]

theorem close_lasts : memo.Lasts memo.close := by
  refine shut_lasts (fun _ => true) rfl (fun id => ?_) (.inr ⟨rfl, fun _ => rfl⟩)
  show (memo.groups.map _)[id]? = _
  rw [Array.getElem?_map]
  simp

theorem mark_lasts {id : ExprId} {mark : Mark} : memo.Lasts (memo.mark id mark) := by
  unfold Memo.mark
  split
  · exact .refl memo
  · exact ⟨fun found _ => found, fun _ closed => ⟨closed, rfl, rfl⟩, fun fast => fast⟩

theorem insertProposals_lasts {target : GroupId} {proposals : List Proposal} {count : Nat}
    (done : memo.insertProposals target proposals = .ok (count, next)) : memo.Lasts next :=
  insertProposals_relates Lasts.refl Lasts.trans insert_lasts insertInto_lasts done

/-! ### Every request -/

theorem perform_lasts {request : Request} (done : memo.perform request = .ok next) :
    memo.Lasts next := by
  cases request with
  | insert operator children =>
    obtain ⟨⟨id, last⟩, inserted, done⟩ := bind_eq_ok_iff.1 done
    cases pure_eq_ok_iff.1 done
    exact insert_lasts inserted
  | insertInto group operator children =>
    obtain ⟨⟨id, last⟩, inserted, done⟩ := bind_eq_ok_iff.1 done
    cases pure_eq_ok_iff.1 done
    exact insertInto_lasts inserted
  | insertProposals group proposals =>
    obtain ⟨⟨count, last⟩, inserted, done⟩ := bind_eq_ok_iff.1 done
    cases pure_eq_ok_iff.1 done
    exact insertProposals_lasts inserted
  | closeGroup group => exact closeGroup_lasts done
  | close =>
    cases pure_eq_ok_iff.1 done
    exact close_lasts
  | mark expr mark =>
    cases pure_eq_ok_iff.1 done
    exact mark_lasts

theorem performAll_lasts {requests : List Request} (done : memo.performAll requests = .ok next) :
    memo.Lasts next :=
  foldlM_relates Lasts.refl Lasts.trans (fun _ step => perform_lasts step) done

theorem empty_sealed : Memo.empty.Sealed := by
  intro _ id group there
  simp [empty] at there

/-- A memo that was closed is closed. -/
theorem isOpen_of_close_mem {requests : List Request} (done : memo.performAll requests = .ok next)
    (fast : memo.Sealed) (closing : .close ∈ requests) : next.isOpen = false := by
  induction requests generalizing memo with
  | nil => cases closing
  | cons request rest ih =>
    unfold performAll at done
    rw [List.foldlM_cons] at done
    obtain ⟨middle, one, others⟩ := bind_eq_ok_iff.1 done
    have after := (perform_lasts one).sealed fast
    rcases List.mem_cons.1 closing with rfl | later
    · cases pure_eq_ok_iff.1 one
      exact ((performAll_lasts others).closedMemo after rfl).1
    · exact ih others after later

/-! ### Proposals that are there -/

mutual

/-- The group of a proposal all of whose shapes are in a memo, from the innermost ones on. -/
def standing? (memo : Memo) : Proposal → Option GroupId
  | .group id => some id
  | .node operator children => do
    let expr ← memo.lookup operator (← standingAll? memo children)
    (memo.exprs[expr]?).map Expr.group

/-- The groups of proposals all of whose shapes are in a memo. -/
def standingAll? (memo : Memo) : List Proposal → Option (List GroupId)
  | [] => some []
  | proposal :: rest => do
    let id ← standing? memo proposal
    (standingAll? memo rest).map (id :: ·)

end

/-- A shape that is found is given, whatever is closed. -/
theorem insert_of_lookup (valid : memo.Valid) {operator : Operator} {children : List GroupId}
    {id : ExprId} (found : memo.lookup operator children = some id) :
    memo.insert operator children = .ok (id, memo) := by
  obtain ⟨expr, stored, equal, same⟩ := valid.lookup_eq_some_iff.1 found
  exact insert_of_stored valid stored equal same

theorem insertInto_of_lookup (valid : memo.Valid) {operator : Operator} {children : List GroupId}
    {id : ExprId} (found : memo.lookup operator children = some id) (target : GroupId) :
    memo.insertInto target operator children = .ok (id, memo) := by
  obtain ⟨expr, stored, equal, same⟩ := valid.lookup_eq_some_iff.1 found
  exact insertInto_of_stored valid stored equal same

mutual

/-- A proposal that is there has its group and adds nothing. -/
theorem materialize_of_standing (valid : memo.Valid) {id : GroupId} : (proposal : Proposal) →
    memo.standing? proposal = some id → memo.materialize proposal = .ok (id, memo)
  | .group _, there => by
    cases there
    rfl
  | .node operator children, there => by
    unfold standing? at there
    obtain ⟨ids, below, there⟩ := Option.bind_eq_some_iff.1 there
    obtain ⟨number, found, there⟩ := Option.bind_eq_some_iff.1 there
    obtain ⟨expr, stored, rfl⟩ := Option.map_eq_some_iff.1 there
    unfold materialize
    rw [materializeAll_of_standing valid children below]
    show (memo.insert operator ids >>= _) = _
    rw [insert_of_lookup valid found]
    show (memo.expr number >>= _) = _
    rw [expr_ok_iff.2 stored]
    rfl

theorem materializeAll_of_standing (valid : memo.Valid) {ids : List GroupId} :
    (proposals : List Proposal) → memo.standingAll? proposals = some ids →
      memo.materializeAll proposals = .ok (ids, memo)
  | [], there => by
    cases there
    rfl
  | proposal :: rest, there => by
    unfold standingAll? at there
    obtain ⟨id, first, there⟩ := Option.bind_eq_some_iff.1 there
    obtain ⟨others, later, rfl⟩ := Option.map_eq_some_iff.1 there
    unfold materializeAll
    rw [materialize_of_standing valid proposal first]
    show (memo.materializeAll rest >>= _) = _
    rw [materializeAll_of_standing valid rest later]
    rfl

end

/-- **Proposals that are there add nothing**, whatever is closed. -/
theorem insertProposals_of_standing (valid : memo.Valid) {target : GroupId}
    {proposals : List Proposal}
    (there : ∀ proposal ∈ proposals, ∃ id, memo.standing? proposal = some id) :
    memo.insertProposals target proposals = .ok (0, memo) := by
  refine insertProposals_of_resolved fun proposal member => ?_
  obtain ⟨id, standing⟩ := there proposal member
  cases proposal with
  | group => rfl
  | node operator children =>
    unfold standing? at standing
    obtain ⟨ids, below, standing⟩ := Option.bind_eq_some_iff.1 standing
    obtain ⟨number, found, _⟩ := Option.bind_eq_some_iff.1 standing
    show (memo.materializeAll children >>= _) = _
    rw [materializeAll_of_standing valid children below]
    show (memo.insertInto target operator ids >>= _) = _
    rw [insertInto_of_lookup valid found]
    rfl

/-! ### Changes in place -/

/-- A change of a memo in place. A fault leaves the memo as it is at that time. -/
abbrev Change := ExceptT Fault (StateM Memo)

namespace Change

/-- `insert` in a memo that was looked at. -/
def insertAt (memo : Memo) (operator : Operator) (children : List GroupId) : Change ExprId := do
  memo.requireChildren operator children
  match memo.lookup operator children with
  | some existing => return existing
  | none =>
    if memo.isOpen then
      modify fun memo => memo.appendGroup operator.isScalar
      modify fun current => current.append memo.groups.size operator children
      return memo.exprs.size
    else throw (.memoClosed operator)

/-- `Memo.insert`, one write after another. -/
def insert (operator : Operator) (children : List GroupId) : Change ExprId := do
  insertAt (← get) operator children

/-- `insertInto` in a memo that was looked at. -/
def insertIntoAt (memo : Memo) (id : GroupId) (operator : Operator) (children : List GroupId) :
    Change ExprId := do
  memo.requireChildren operator children
  match memo.lookup operator children with
  | some existing => return existing
  | none =>
    let group ← (memo.group id : Except Fault Group)
    if !group.isOpen then throw (.groupClosed operator id)
    if group.isScalar != operator.isScalar then
      throw (.familyMismatch operator group.isScalar id)
    modify fun memo => memo.append id operator children
    return memo.exprs.size

/-- `Memo.insertInto`, one write after another. -/
def insertInto (id : GroupId) (operator : Operator) (children : List GroupId) : Change ExprId := do
  insertIntoAt (← get) id operator children

/-- The group of an expression. -/
def groupOf (id : ExprId) : Change GroupId := do
  return (← ((← get).expr id : Except Fault Expr)).group

mutual

/-- `Memo.materialize`, likewise. -/
def materialize : Proposal → Change GroupId
  | .group id => return id
  | .node operator children => do
    let children ← materializeAll children
    insert operator children >>= groupOf

/-- `Memo.materializeAll`, likewise. -/
def materializeAll : List Proposal → Change (List GroupId)
  | [] => return []
  | proposal :: rest => do
    let id ← materialize proposal
    let ids ← materializeAll rest
    return id :: ids

end

/-- `Memo.insertProposal`, likewise. -/
def insertProposal (group : GroupId) : Proposal → Change Unit
  | .group _ => return
  | .node operator children => do
    let children ← materializeAll children
    let _ ← insertInto group operator children

/-- The proposals of `Memo.insertProposals` one after another. -/
def insertAll (group : GroupId) : List Proposal → Change Unit
  | [] => return
  | proposal :: rest => do
    insertProposal group proposal
    insertAll group rest

/-- `Memo.insertProposals`, likewise. -/
def insertProposals (group : GroupId) (proposals : List Proposal) : Change Nat := do
  let memo ← get
  insertAll group proposals
  return (← get).exprs.size - memo.exprs.size

end Change

/-- A result in place: a fault leaves the memo as it was. -/
def settle {α : Type} (memo : Memo) : Except Fault (α × Memo) → Except Fault α × Memo
  | .ok (value, next) => (.ok value, next)
  | .error cause => (.error cause, memo)

/-- **An insertion that is refused changes nothing.** -/
theorem insert_settles (operator : Operator) (children : List GroupId) :
    Change.insert operator children memo = memo.settle (memo.insert operator children) := by
  show Change.insertAt memo operator children memo = _
  unfold Change.insertAt insert
  cases memo.requireChildren operator children with
  | error cause => rfl
  | ok =>
    cases memo.lookup operator children with
    | some existing => rfl
    | none => cases memo.isOpen <;> rfl

theorem insertInto_settles (id : GroupId) (operator : Operator) (children : List GroupId) :
    Change.insertInto id operator children memo =
      memo.settle (memo.insertInto id operator children) := by
  show Change.insertIntoAt memo id operator children memo = _
  unfold Change.insertIntoAt insertInto
  cases memo.requireChildren operator children with
  | error cause => rfl
  | ok =>
    cases memo.lookup operator children with
    | some existing => rfl
    | none =>
      cases memo.group id with
      | error cause => rfl
      | ok group =>
        obtain ⟨isScalar, members, isOpen⟩ := group
        generalize operator.isScalar = family
        cases isOpen <;> cases isScalar <;> cases family <;> rfl

/-! ### Refused proposals -/

/-- A memo to which insertions lead. -/
inductive Inserted : Memo → Memo → Prop
  | refl (memo : Memo) : Inserted memo memo
  | insert {memo next last : Memo} {operator : Operator} {children : List GroupId} {id : ExprId} :
      memo.insert operator children = .ok (id, next) → Inserted next last → Inserted memo last
  | insertInto {memo next last : Memo} {target : GroupId} {operator : Operator}
      {children : List GroupId} {id : ExprId} :
      memo.insertInto target operator children = .ok (id, next) → Inserted next last →
        Inserted memo last

namespace Inserted

theorem trans {last : Memo} (first : Inserted memo next) (second : Inserted next last) :
    Inserted memo last := by
  induction first with
  | refl => exact second
  | insert done _ ih => exact .insert done (ih second)
  | insertInto done _ ih => exact .insertInto done (ih second)

theorem keeps (inserted : Inserted memo next) : memo.Keeps next := by
  induction inserted with
  | refl memo => exact .refl memo
  | insert done _ ih => exact (insert_keeps done).trans ih
  | insertInto done _ ih => exact (insertInto_keeps done).trans ih

/-- Insertions change nothing in a memo that is closed. -/
theorem eq_of_closed (inserted : Inserted memo next) (fast : memo.Sealed)
    (closed : memo.isOpen = false) : next = memo := by
  induction inserted with
  | refl => rfl
  | insert done _ ih =>
    obtain ⟨_, ⟨_, rfl⟩ | ⟨_, room, _⟩⟩ := insert_cases done
    · exact ih fast closed
    · rw [closed] at room
      cases room
  | insertInto done _ ih =>
    obtain ⟨_, ⟨_, rfl⟩ | ⟨_, _, _, group, there, room, _⟩⟩ := insertInto_cases done
    · exact ih fast closed
    · rw [fast closed there] at room
      cases room

end Inserted

/-- A memo refuses to insert some expression. -/
def Refuses (memo : Memo) (cause : Fault) : Prop :=
  ∃ operator children, memo.insert operator children = .error cause ∨
    ∃ target, memo.insertInto target operator children = .error cause

/-- **A change in place does what a computation does.** Where it is refused, insertions led to the memo
that it leaves, and that memo refuses the next one. -/
def Performs {α : Type} (change : Change α) (computation : Memo → Except Fault (α × Memo)) : Prop :=
  ∀ memo : Memo, memo.Valid →
    (∃ value next, computation memo = .ok (value, next) ∧ change memo = (.ok value, next) ∧
      memo.Inserted next) ∨
    ∃ cause left, computation memo = .error cause ∧ change memo = (.error cause, left) ∧
      memo.Inserted left ∧ left.Refuses cause

namespace Performs

variable {α β : Type} {change : Change α} {computation : Memo → Except Fault (α × Memo)}

theorem pure (value : α) :
    Performs (Pure.pure value : Change α) fun memo => .ok (value, memo) :=
  fun memo _ => .inl ⟨value, memo, rfl, rfl, .refl memo⟩

theorem bind {more : α → Change β} {further : α → Memo → Except Fault (β × Memo)}
    (first : Performs change computation) (second : ∀ value, Performs (more value) (further value)) :
    Performs (change >>= more) fun memo => computation memo >>= fun found =>
      further found.1 found.2 := by
  intro memo valid
  have opened : (change >>= more) memo =
      match change memo with
      | (.ok value, next) => more value next
      | (.error cause, left) => (.error cause, left) := by
    show (_ : Except Fault β × Memo) = _
    simp only [Bind.bind, ExceptT.bind, ExceptT.mk, StateT.bind]
    rcases change memo with ⟨_ | _, _⟩ <;> rfl
  rw [opened]
  dsimp only
  rcases first memo valid with ⟨value, next, done, made, inserted⟩ |
    ⟨cause, left, failed, made, inserted, refuses⟩
  · rw [done, made]
    have further := second value next (inserted.keeps valid).1
    rcases further with ⟨result, last, done, made, again⟩ | ⟨cause, left, failed, made, again, refuses⟩
    · exact .inl ⟨result, last, done, made, inserted.trans again⟩
    · exact .inr ⟨cause, left, failed, made, inserted.trans again, refuses⟩
  · rw [failed, made]
    exact .inr ⟨cause, left, rfl, rfl, inserted, refuses⟩

end Performs

theorem insertInto_performs (target : GroupId) (operator : Operator) (children : List GroupId) :
    Performs (Change.insertInto target operator children) fun memo =>
      memo.insertInto target operator children := by
  intro memo _
  rw [insertInto_settles]
  cases done : memo.insertInto target operator children with
  | ok result => exact .inl ⟨result.1, result.2, done, rfl, .insertInto done (.refl _)⟩
  | error cause => exact .inr ⟨cause, memo, done, rfl, .refl memo, operator, children, .inr ⟨_, done⟩⟩

/-- A new expression with the group in which it is found. -/
theorem insert_groupOf_performs (operator : Operator) (children : List GroupId) :
    Performs (Change.insert operator children >>= Change.groupOf) fun memo => do
      let (id, memo) ← memo.insert operator children
      return ((← memo.expr id).group, memo) := by
  intro memo valid
  show (∃ value next, (memo.insert operator children >>= _) = _ ∧ _) ∨
    ∃ cause left, (memo.insert operator children >>= _) = _ ∧ _
  have opened : (Change.insert operator children >>= Change.groupOf) memo =
      match memo.settle (memo.insert operator children) with
      | (.ok value, next) => Change.groupOf value next
      | (.error cause, left) => (.error cause, left) := by
    rw [← insert_settles]
    simp only [Bind.bind, ExceptT.bind, ExceptT.mk, StateT.bind]
    rcases Change.insert operator children memo with ⟨_ | _, _⟩ <;> rfl
  rw [opened]
  cases done : memo.insert operator children with
  | ok result =>
    obtain ⟨id, next⟩ := result
    obtain ⟨expr, stored, _⟩ := insert_stored valid done
    have found := expr_ok_iff.2 stored
    refine .inl ⟨expr.group, next, ?_, ?_, .insert done (.refl _)⟩
    · show (next.expr id >>= _) = _
      rw [found]
      rfl
    · show (liftM (next.expr id) >>= _ : Change GroupId) next = _
      rw [found]
      rfl
  | error cause =>
    exact .inr ⟨cause, memo, rfl, rfl, .refl memo, operator, children, .inl done⟩

mutual

theorem materialize_performs : (proposal : Proposal) →
    Performs (Change.materialize proposal) fun memo => memo.materialize proposal
  | .group id => .pure id
  | .node operator children =>
    (materializeAll_performs children).bind fun ids => insert_groupOf_performs operator ids

theorem materializeAll_performs : (proposals : List Proposal) →
    Performs (Change.materializeAll proposals) fun memo => memo.materializeAll proposals
  | [] => .pure []
  | proposal :: rest =>
    (materialize_performs proposal).bind fun id =>
      (materializeAll_performs rest).bind fun ids => .pure (id :: ids)

end

theorem insertProposal_performs (target : GroupId) (proposal : Proposal) :
    Performs (Change.insertProposal target proposal) fun memo =>
      (memo.insertProposal target proposal).map fun next => (PUnit.unit, next) := by
  cases proposal with
  | group id => exact .pure PUnit.unit
  | node operator children =>
    have whole := (materializeAll_performs children).bind fun ids =>
      (insertInto_performs target operator ids).bind fun _ => Performs.pure PUnit.unit
    intro memo valid
    have same : ((memo.insertProposal target (.node operator children)).map fun next =>
        (PUnit.unit, next)) = memo.materializeAll children >>= fun found =>
          found.2.insertInto target operator found.1 >>= fun inserted => .ok (PUnit.unit, inserted.2) := by
      show (memo.materializeAll children >>= _).map _ = _
      cases memo.materializeAll children with
      | error cause => rfl
      | ok found =>
        show (found.2.insertInto target operator found.1 >>= _).map _ =
          found.2.insertInto target operator found.1 >>= _
        cases found.2.insertInto target operator found.1 <;> rfl
    dsimp only
    rw [same]
    exact whole memo valid

theorem insertAll_performs (target : GroupId) : (proposals : List Proposal) →
    Performs (Change.insertAll target proposals) fun memo =>
      (proposals.foldlM (fun (memo : Memo) proposal => memo.insertProposal target proposal) memo).map
        fun next => (PUnit.unit, next)
  | [] => .pure PUnit.unit
  | proposal :: rest => by
    have whole := (insertProposal_performs target proposal).bind fun _ => insertAll_performs target rest
    intro memo valid
    have same : ((proposal :: rest).foldlM (fun (memo : Memo) proposal => memo.insertProposal target proposal)
        memo).map (fun next => (PUnit.unit, next)) =
          ((memo.insertProposal target proposal).map fun next => (PUnit.unit, next)) >>= fun found =>
            (rest.foldlM (fun (memo : Memo) proposal => memo.insertProposal target proposal) found.2).map
              fun next => (PUnit.unit, next) := by
      rw [List.foldlM_cons]
      cases memo.insertProposal target proposal <;> rfl
    dsimp only
    rw [same]
    exact whole memo valid

/-- **Proposals that are refused** leave the insertions before the refused one, and nothing else. -/
theorem insertProposals_performs (target : GroupId) (proposals : List Proposal) :
    Performs (Change.insertProposals target proposals) fun memo =>
      memo.insertProposals target proposals := by
  intro memo valid
  have opened : Change.insertProposals target proposals memo =
      match Change.insertAll target proposals memo with
      | (.ok _, next) => (.ok (next.exprs.size - memo.exprs.size), next)
      | (.error cause, left) => (.error cause, left) := by
    show (Change.insertAll target proposals >>= _ : Change Nat) memo = _
    simp only [Bind.bind, ExceptT.bind, ExceptT.mk, StateT.bind]
    rcases Change.insertAll target proposals memo with ⟨_ | _, _⟩ <;> rfl
  have counted : memo.insertProposals target proposals =
      (proposals.foldlM (fun (memo : Memo) proposal => memo.insertProposal target proposal) memo).map
        fun next => (next.exprs.size - memo.exprs.size, next) := by
    unfold insertProposals
    cases proposals.foldlM (fun (memo : Memo) proposal => memo.insertProposal target proposal) memo <;>
      rfl
  have whole := insertAll_performs target proposals memo valid
  dsimp only at whole ⊢
  rw [opened, counted]
  generalize List.foldlM (fun (memo : Memo) proposal => memo.insertProposal target proposal) memo
    proposals = run at whole
  rcases whole with ⟨_, next, done, made, inserted⟩ | ⟨cause, left, failed, made, inserted, refuses⟩
  · rw [made]
    cases run with
    | error cause => cases done
    | ok last =>
      cases done
      exact .inl ⟨_, _, rfl, rfl, inserted⟩
  · rw [made]
    cases run with
    | error other =>
      cases failed
      exact .inr ⟨_, _, rfl, rfl, inserted, refuses⟩
    | ok last => cases failed

/-! ### Every history -/

/-- **Nothing in a memo goes away, and what is closed stays so.** Some requests lead from the empty memo
to one, and some more to a later one. -/
theorem performAll_permanent {requests more : List Request}
    (history : Memo.empty.performAll requests = .ok memo) (onward : memo.performAll more = .ok later) :
    -- Expressions stay as they are and where they are, and what was found is found.
    (∀ {id : ExprId} {expr : Expr}, memo.exprs[id]? = some expr → later.exprs[id]? = some expr) ∧
    (∀ {operator : Operator} {children : List GroupId} {id : ExprId},
      memo.lookup operator children = some id → later.lookup operator children = some id) ∧
    -- Groups stay, with their members in front of all later ones; closed ones do not change.
    (∀ {id : GroupId} {group : Group}, memo.groups[id]? = some group →
      ∃ after, later.groups[id]? = some after ∧ after.isScalar = group.isScalar ∧
        group.members.toList <+: after.members.toList ∧ (group.isOpen = false → after = group)) ∧
    -- Nothing is added to a closed memo.
    (.close ∈ requests → later.isOpen = false ∧ later.groups = memo.groups ∧ later.exprs = memo.exprs) ∧
    -- Shapes that are there are given, whatever is closed.
    ((∀ {operator : Operator} {children : List GroupId} {id : ExprId},
        later.lookup operator children = some id →
          later.insert operator children = .ok (id, later) ∧
            ∀ target, later.insertInto target operator children = .ok (id, later)) ∧
      ∀ target proposals, (∀ proposal ∈ proposals, ∃ id, later.standing? proposal = some id) →
        later.insertProposals target proposals = .ok (0, later)) ∧
    -- An insertion that is refused changes nothing; of several, those before it stay.
    ((∀ operator children, Change.insert operator children later =
        later.settle (later.insert operator children)) ∧
      (∀ target operator children, Change.insertInto target operator children later =
        later.settle (later.insertInto target operator children)) ∧
      ∀ {target : GroupId} {proposals : List Proposal} {cause : Fault},
        later.insertProposals target proposals = .error cause →
          ∃ left, Change.insertProposals target proposals later = (.error cause, left) ∧
            later.Inserted left ∧ left.Refuses cause ∧ (later.isOpen = false → left = later)) := by
  obtain ⟨valid, _⟩ := performAll_keeps history empty_valid
  obtain ⟨after, grows⟩ := performAll_keeps onward valid
  have fast := (performAll_lasts history).sealed empty_sealed
  have lasts := performAll_lasts onward
  refine ⟨grows.exprs, fun found => ?_, fun there => ?_, fun closing => ?_,
    ⟨fun found => ⟨insert_of_lookup after found, insertInto_of_lookup after found⟩,
      fun target proposals => insertProposals_of_standing after⟩,
    insert_settles, insertInto_settles, fun {target proposals cause} failed => ?_⟩
  · obtain ⟨expr, stored, equal, same⟩ := valid.lookup_eq_some_iff.1 found
    exact after.lookup_eq_some_iff.2 ⟨expr, grows.exprs stored, equal, same⟩
  · obtain ⟨next, found, family, members⟩ := grows.groups there
    refine ⟨next, found, family, members, fun closed => ?_⟩
    exact Option.some.inj (found.symm.trans (lasts.closedGroups there closed))
  · exact lasts.closedMemo fast (isOpen_of_close_mem history empty_sealed closing)
  · rcases insertProposals_performs target proposals later after with
      ⟨value, next, done, _⟩ | ⟨again, left, same, made, inserted, refuses⟩
    · cases failed.symm.trans done
    · cases failed.symm.trans same
      exact ⟨left, made, inserted, refuses, inserted.eq_of_closed (lasts.sealed fast)⟩

/-- Two tables and their join, whose group is closed, and then the memo. -/
def closedJoin : List Request :=
  [.insert (.logical (.get ⟨"shop", "orders"⟩ [])) [],
    .insert (.logical (.get ⟨"shop", "items"⟩ [])) [],
    .insert .truth [],
    .insert (.logical (.join .inner)) [0, 1, 2],
    .closeGroup 3, .close]

/-- Requests that a closed memo does not refuse: all of their shapes are there. -/
def closedMore : List Request :=
  [.insert (.logical (.join .inner)) [0, 1, 2],
    .insertProposals 0 [.node (.logical (.join .inner)) [.group 0, .group 1, .node .truth []]],
    .mark 3 (.rule "JoinCommutativity"), .closeGroup 1]

theorem performAll_permanent_closedJoin :
    ∃ memo later cause, Memo.empty.performAll closedJoin = .ok memo ∧
      memo.performAll closedMore = .ok later ∧
      (later.isOpen = false ∧ later.groups = memo.groups ∧ later.exprs = memo.exprs) ∧
      -- The other order of the tables is not there.
      later.insertInto 3 (.logical (.join .inner)) [1, 0, 2] = .error cause ∧
      Change.insertInto 3 (.logical (.join .inner)) [1, 0, 2] later = (.error cause, later) := by
  have fits : (Memo.empty.performAll closedJoin >>= fun memo => memo.performAll closedMore).toOption.any
      (fun later => (later.insertInto 3 (.logical (.join .inner)) [1, 0, 2]).toOption.isNone) = true := by
    decide +kernel
  cases history : Memo.empty.performAll closedJoin with
  | error cause =>
    rw [history] at fits
    cases fits
  | ok memo =>
    cases onward : memo.performAll closedMore with
    | error cause =>
      have ends : (Memo.empty.performAll closedJoin >>= fun memo => memo.performAll closedMore) =
          .error cause := by
        rw [history]
        exact onward
      rw [ends] at fits
      cases fits
    | ok later =>
      have ends : (Memo.empty.performAll closedJoin >>= fun memo => memo.performAll closedMore) =
          .ok later := by
        rw [history]
        exact onward
      rw [ends] at fits
      obtain ⟨_, _, _, closed, _, _, settles, _⟩ := performAll_permanent history onward
      cases refused : later.insertInto 3 (.logical (.join .inner)) [1, 0, 2] with
      | ok result =>
        rw [Except.toOption, Option.any_some, refused] at fits
        cases fits
      | error cause =>
        refine ⟨memo, later, cause, rfl, onward, closed ?_, refused, ?_⟩
        · exact List.mem_of_getElem? (i := 5) rfl
        · rw [settles, refused]
          rfl

end Cascades.Memo
