/-
**The cursor gives the listing.**

A binding that is handed back tells the cursor of a group at which member to go on, because a valid
memo places every expression once; it tells the cursor of an expression how its children stand. By
induction on the levels of recursion that are left:

* `gives_inExpr_succ`: the cursor of an expression gives the product of what the cursors of its
  children give;
* `gives_inGroup_succ`: the cursor of a group gives what the cursors of its members give, one after
  another;
* `gives_ofGroup`, `gives_ofExpr`: both give their listings and end like them.
-/

import Cascades.Proofs.Binding.Turning
import Cascades.Proofs.Memo.Valid

namespace Cascades.Cursor

variable {memo : Memo} {guard : Guard} {room : Nat} {pattern : Pattern}

/-! ### Turning the bindings of one expression -/

section Turns

variable {node : List Binding → Binding}

/-- What a cursor gives after a turn of the children. -/
def afterTurn (node : List Binding → Binding) :
    Except Failure Turn → Except Failure (Option Binding)
  | .ok (.moved children) => .ok (some (node children))
  | .ok _ => .ok none
  | .error failure => .error failure

theorem Cycles.gives {turnOn : List Binding → Except Failure Turn} {first current : List Binding}
    {rest : List (List Binding)} {failure : Option Failure} {next : Binding → Except Failure (Option Binding)}
    (cycles : Cycles turnOn first current rest failure)
    (step : ∀ combination ∈ current :: rest,
      next (node combination) = afterTurn node (turnOn combination)) :
    Gives next (next (node current)) (rest.map node) failure := by
  induction rest generalizing current with
  | nil =>
    rw [step current List.mem_cons_self]
    cases failure with
    | none =>
      rw [show turnOn current = _ from cycles]
      rfl
    | some cause =>
      rw [show turnOn current = _ from cycles]
      rfl
  | cons following rest ih =>
    rw [step current List.mem_cons_self, cycles.1]
    exact ⟨rfl, ih cycles.2 fun combination member => step combination (List.mem_cons_of_mem _ member)⟩

/-- A cursor that turns the children of a node gives the node over every combination. -/
theorem Turns.gives {begins : Except Failure (Option (List Binding))}
    {turnOn : List Binding → Except Failure Turn} {combinations : List (List Binding)}
    {failure : Option Failure} {next : Binding → Except Failure (Option Binding)}
    (turns : Turns begins turnOn combinations failure)
    (step : ∀ combination ∈ combinations,
      next (node combination) = afterTurn node (turnOn combination)) :
    Gives next (begins.map (·.map node)) (combinations.map node) failure := by
  cases combinations with
  | nil =>
    cases failure with
    | none =>
      rw [show begins = _ from turns]
      rfl
    | some cause =>
      rw [show begins = _ from turns]
      rfl
  | cons first rest =>
    rw [turns.1]
    exact ⟨rfl, turns.2.gives step⟩

end Turns

/-! ### The cursor of an expression -/

section Expr

variable {id : ExprId} {expr : Expr}

/-- The cursor of a child of a node. -/
def below (memo : Memo) (guard : Guard) (room : Nat) (pattern : Pattern) (arity position : Nat)
    (child : GroupId) (resume : Option Binding) : Except Failure (Option Binding) := do
  nextInGroup memo guard room child (← pattern.child position arity) resume

/-- The listing of a child of a node. -/
def listingBelow (memo : Memo) (guard : Guard) (room : Nat) (pattern : Pattern) (arity : Nat)
    (wheel : Wheel) : Listing Binding :=
  Listing.ofExcept do
    let below ← pattern.child wheel.2 arity
    return Listing.inGroup memo guard room wheel.1 below

/-- The node over bindings of the children of an expression. -/
def nodeOf (id : ExprId) (expr : Expr) (children : List Binding) : Binding :=
  .node id expr.group expr.operator children

theorem digits_eq (children : List GroupId) (current : List Binding) (offset : Nat) :
    (((children.zip current).zipIdx offset).map fun ((child, binding), position) =>
      (position, child, binding)) =
      List.zipWith (fun (wheel : Wheel) binding => (wheel.2, wheel.1, binding))
        (children.zipIdx offset) current := by
  induction children generalizing current offset with
  | nil => rfl
  | cons child children ih =>
    cases current with
    | nil => rfl
    | cons binding current =>
      rw [List.zip_cons_cons, List.zipIdx_cons, List.zipIdx_cons, List.map_cons, ih]
      rfl

variable (running : guard.cancelled = false) (stored : memo.exprs[id]? = some expr)
  (root : pattern.matchesRoot expr.operator expr.arity = true) (inner : pattern.isLeaf = false)
include running stored root inner

theorem nextInExpr_none :
    nextInExpr memo guard (room + 1) id pattern none =
      (firsts (below memo guard room pattern expr.arity) expr.children.zipIdx).map
        (·.map (nodeOf id expr)) := by
  rw [nextInExpr, running, Memo.expr_ok_iff.2 stored]
  show (if !pattern.matchesRoot expr.operator expr.arity then pure none
    else if pattern.isLeaf then _ else _) = _
  rw [root, inner]
  show (OptionT.run (expr.children.zipIdx.mapM _) >>= _) = Except.map _ (OptionT.run _)
  cases firsts (below memo guard room pattern expr.arity) expr.children.zipIdx <;> rfl

theorem nextInExpr_some {children : List Binding} (complete : children.length = expr.arity) :
    nextInExpr memo guard (room + 1) id pattern (some (nodeOf id expr children)) =
      afterTurn (nodeOf id expr)
        (turnOn (below memo guard room pattern expr.arity) expr.children.zipIdx children) := by
  have same : (id != id) = false := bne_self_eq_false id
  have full : ((nodeOf id expr children).arity != expr.arity) = false := by
    rw [show (nodeOf id expr children).arity = expr.arity from complete]
    exact bne_self_eq_false _
  rw [nextInExpr, running, Memo.expr_ok_iff.2 stored]
  show (if !pattern.matchesRoot expr.operator expr.arity then pure none
    else if pattern.isLeaf then _ else _) = _
  rw [root, inner]
  show (if (id != id) = true then _ else _) = _
  rw [same]
  show (if ((nodeOf id expr children).arity != expr.arity) = true then _ else _) = _
  rw [full]
  show (turn _ _ >>= _) = _
  rw [digits_eq]
  show (turnOn (below memo guard room pattern expr.arity) expr.children.zipIdx children >>= _) = _
  cases turnOn (below memo guard room pattern expr.arity) expr.children.zipIdx children with
  | error failure => rfl
  | ok turned => cases turned <;> rfl

omit running stored root inner in
/-- The cursor of a child gives the listing of the child if the cursors of groups do. -/
theorem gives_below {arity : Nat}
    (groups : ∀ child pattern, Gives
      (fun value => nextInGroup memo guard room child pattern (some value))
      (nextInGroup memo guard room child pattern none)
      (Listing.inGroup memo guard room child pattern).found
      (Listing.inGroup memo guard room child pattern).failure) (wheel : Wheel) :
    Gives (fun value => below memo guard room pattern arity wheel.2 wheel.1 (some value))
      (opening (below memo guard room pattern arity) wheel)
      (listingBelow memo guard room pattern arity wheel).found
      (listingBelow memo guard room pattern arity wheel).failure := by
  unfold opening below listingBelow
  cases pattern.child wheel.2 arity with
  | error cause => exact rfl
  | ok part => exact groups wheel.1 part

theorem inExpr_eq :
    Listing.inExpr memo guard (room + 1) id pattern =
      (Listing.product (opening (below memo guard room pattern expr.arity))
        (listingBelow memo guard room pattern expr.arity) expr.children.zipIdx).map
          (nodeOf id expr) := by
  rw [Listing.inExpr, running, stored]
  show (if (!pattern.matchesRoot expr.operator expr.arity) = true then _
    else if pattern.isLeaf = true then _ else _) = _
  rw [root, inner]
  rfl

omit root inner in
theorem inExpr_of_mismatch (room : Nat) (root : pattern.matchesRoot expr.operator expr.arity = false) :
    Listing.inExpr memo guard (room + 1) id pattern = Listing.nil ∧
      nextInExpr memo guard (room + 1) id pattern none = .ok none := by
  rw [Listing.inExpr, nextInExpr, running, Memo.expr_ok_iff.2 stored, stored]
  show (if (!pattern.matchesRoot expr.operator expr.arity) = true then _ else _) = _ ∧
    (if (!pattern.matchesRoot expr.operator expr.arity) = true then _ else _) = _
  rw [root]
  exact ⟨rfl, rfl⟩

omit inner in
theorem inExpr_of_leaf (room : Nat) (leaf : pattern.isLeaf = true) :
    Listing.inExpr memo guard (room + 1) id pattern = ⟨[nodeOf id expr []], none⟩ ∧
      ∀ previous, nextInExpr memo guard (room + 1) id pattern previous =
        .ok (if previous.isNone then some (nodeOf id expr []) else none) := by
  constructor
  · rw [Listing.inExpr, running, stored]
    show (if (!pattern.matchesRoot expr.operator expr.arity) = true then _
      else if pattern.isLeaf = true then _ else _) = _
    rw [root, leaf]
    rfl
  · intro previous
    rw [nextInExpr, running, Memo.expr_ok_iff.2 stored]
    show (if (!pattern.matchesRoot expr.operator expr.arity) = true then _
      else if pattern.isLeaf = true then _ else _) = _
    rw [root, leaf]
    rfl

end Expr

/-- **The cursor of an expression gives its listing**, if the cursors of groups below do. -/
theorem gives_inExpr_succ (id : ExprId)
    (groups : ∀ child pattern, Gives
      (fun value => nextInGroup memo guard room child pattern (some value))
      (nextInGroup memo guard room child pattern none)
      (Listing.inGroup memo guard room child pattern).found
      (Listing.inGroup memo guard room child pattern).failure) :
    Gives (fun value => nextInExpr memo guard (room + 1) id pattern (some value))
      (nextInExpr memo guard (room + 1) id pattern none)
      (Listing.inExpr memo guard (room + 1) id pattern).found
      (Listing.inExpr memo guard (room + 1) id pattern).failure := by
  cases running : guard.cancelled with
  | true =>
    rw [Listing.inExpr, nextInExpr, running]
    rfl
  | false =>
    cases stored : memo.exprs[id]? with
    | none =>
      rw [Listing.inExpr, nextInExpr, running, stored, Memo.expr, stored]
      rfl
    | some expr =>
      cases root : pattern.matchesRoot expr.operator expr.arity with
      | false =>
        obtain ⟨listing, start⟩ := inExpr_of_mismatch running stored room root
        rw [listing, start]
        rfl
      | true =>
        cases inner : pattern.isLeaf with
        | true =>
          obtain ⟨listing, next⟩ := inExpr_of_leaf running stored root room inner
          rw [listing, next]
          exact ⟨rfl, next _⟩
        | false =>
          rw [nextInExpr_none running stored root inner, inExpr_eq running stored root inner]
          refine (turns_product fun wheel _ => gives_below groups wheel).gives fun children member => ?_
          refine nextInExpr_some running stored root inner ?_
          rw [Listing.length_of_mem_product member, List.length_zipIdx]
          rfl

/-- A listing of an expression has that expression at every root. -/
theorem root_of_mem_inExpr {id : ExprId} {binding : Binding}
    (member : binding ∈ (Listing.inExpr memo guard room id pattern).found) :
    ∃ expr children, memo.exprs[id]? = some expr ∧ binding = nodeOf id expr children := by
  cases room with
  | zero => cases member
  | succ room =>
    cases running : guard.cancelled with
    | true =>
      rw [Listing.inExpr, running] at member
      cases member
    | false =>
      cases stored : memo.exprs[id]? with
      | none =>
        rw [Listing.inExpr, running, stored] at member
        cases member
      | some expr =>
        suffices ∃ children, binding = nodeOf id expr children by
          obtain ⟨children, same⟩ := this
          exact ⟨expr, children, rfl, same⟩
        cases root : pattern.matchesRoot expr.operator expr.arity with
        | false =>
          rw [(inExpr_of_mismatch running stored room root).1] at member
          cases member
        | true =>
          cases inner : pattern.isLeaf with
          | true =>
            rw [(inExpr_of_leaf running stored root room inner).1] at member
            exact ⟨[], List.mem_singleton.1 member⟩
          | false =>
            rw [inExpr_eq running stored root inner] at member
            obtain ⟨children, _, same⟩ := List.mem_map.1 member
            exact ⟨children, same.symm⟩

/-! ### The cursor of a group -/

section Group

variable {id : GroupId} {group : Group}

/-- The next binding of a member of a group, if the member is one to take. -/
def visit (memo : Memo) (guard : Guard) (room : Nat) (pattern : Pattern) (group : Group)
    (resume : Option Binding) (member : ExprId) : Except Failure (Option Binding) :=
  if group.isScalar || memo.hasOperator Operator.isLogical member then
    nextInExpr memo guard room member pattern resume
  else .ok none

/-- The first binding of some members of a group. -/
def firstOf (memo : Memo) (guard : Guard) (room : Nat) (pattern : Pattern) (group : Group)
    (members : List ExprId) : Except Failure (Option Binding) :=
  members.findSomeM? (visit memo guard room pattern group none)

theorem firstOf_cons {member : ExprId} {members : List ExprId} :
    firstOf memo guard room pattern group (member :: members) =
      orElse (visit memo guard room pattern group none member)
        (firstOf memo guard room pattern group members) := by
  show List.findSomeM? _ _ = _
  rw [List.findSomeM?_cons]
  cases visit memo guard room pattern group none member with
  | error failure => rfl
  | ok found => cases found <;> rfl

section Running

variable (running : guard.cancelled = false) (there : memo.groups[id]? = some group)
include running there

theorem nextInGroup_none :
    nextInGroup memo guard (room + 1) id pattern none =
      firstOf memo guard room pattern group group.members.toList := by
  rw [nextInGroup, running, Memo.group_ok_iff.2 there]
  rfl

theorem nextInGroup_some_of_scalar (scalar : group.isScalar = true) (room : Nat)
    (pattern : Pattern) (last : Binding) :
    nextInGroup memo guard (room + 1) id pattern (some last) = .ok none := by
  rw [nextInGroup, running, Memo.group_ok_iff.2 there]
  show (if group.isScalar = true then _ else _) = _
  rw [if_pos scalar]
  rfl

omit running there in
theorem lift_ok_bind {α β : Type} {value : α} {next : α → Except Failure β} :
    ((liftM (.ok value : Except Fault α) : Except Failure α) >>= next) = next value := rfl

/-- The cursor goes on at the member at which the binding that it gave last has its root. -/
theorem nextInGroup_some (last : Binding) {expr : Expr} {rest : List ExprId}
    (relational : group.isScalar = false) (home : last.group = id)
    (stored : memo.exprs[last.expr]? = some expr)
    (position : group.members.toList.drop expr.position = last.expr :: rest) :
    nextInGroup memo guard (room + 1) id pattern (some last) =
      orElse (visit memo guard room pattern group (some last) last.expr)
        (firstOf memo guard room pattern group rest) := by
  have same : (last.group != id) = false := by
    rw [home]
    exact bne_self_eq_false id
  rw [nextInGroup, running, Memo.group_ok_iff.2 there]
  show (if group.isScalar = true then _ else _) = _
  rw [if_neg (ne_true_of_eq_false relational)]
  show (if (last.group != id) = true then _ else _) = _
  rw [same]
  show (liftM (memo.expr last.expr) >>= _) = _
  rw [Memo.expr_ok_iff.2 stored]
  rw [lift_ok_bind]
  simp only [position]
  show (visit memo guard room pattern group (some last) last.expr >>= _) = _
  cases visit memo guard room pattern group (some last) last.expr with
  | error failure => rfl
  | ok found => cases found <;> rfl

theorem inGroup_eq (relational : group.isScalar = false) :
    Listing.inGroup memo guard (room + 1) id pattern =
      Listing.concatMap (fun member => Listing.inExpr memo guard room member pattern)
        (memo.logicalMembers group) := by
  rw [Listing.inGroup, running, there]
  show (if group.isScalar = true then _ else _) = _
  rw [if_neg (ne_true_of_eq_false relational)]

theorem inGroup_of_scalar (scalar : group.isScalar = true) :
    Listing.inGroup memo guard (room + 1) id pattern =
      Listing.ofExcept ((nextInGroup memo guard (room + 1) id pattern none).map
        fun first => ⟨first.toList, none⟩) := by
  rw [Listing.inGroup, running, there]
  show (if group.isScalar = true then _ else _) = _
  rw [if_pos scalar]
  cases nextInGroup memo guard (room + 1) id pattern none <;> rfl

/-- **From any of its members on, the cursor of a relational group gives the listings of the logical
members one after another**, if the cursors of the expressions do. -/
theorem gives_members (valid : memo.Valid) (relational : group.isScalar = false)
    (exprs : ∀ member, Gives
      (fun value => nextInExpr memo guard room member pattern (some value))
      (nextInExpr memo guard room member pattern none)
      (Listing.inExpr memo guard room member pattern).found
      (Listing.inExpr memo guard room member pattern).failure)
    {before after : List ExprId} (members : group.members.toList = before ++ after) :
    Gives (fun value => nextInGroup memo guard (room + 1) id pattern (some value))
      (firstOf memo guard room pattern group after)
      (Listing.concatMap (fun member => Listing.inExpr memo guard room member pattern)
        (after.filter (memo.hasOperator Operator.isLogical))).found
      (Listing.concatMap (fun member => Listing.inExpr memo guard room member pattern)
        (after.filter (memo.hasOperator Operator.isLogical))).failure := by
  induction after generalizing before with
  | nil => exact rfl
  | cons member after ih =>
    have split : group.members.toList = (before ++ [member]) ++ after := by
      rw [members, List.append_assoc]
      rfl
    have others := ih split
    rw [firstOf_cons]
    cases logical : memo.hasOperator Operator.isLogical member with
    | false =>
      have skipped : visit memo guard room pattern group none member = .ok none := by
        rw [visit, relational, logical]
        rfl
      rw [skipped, List.filter_cons_of_neg (ne_true_of_eq_false logical)]
      exact others
    | true =>
      have visited : ∀ resume, visit memo guard room pattern group resume member =
          nextInExpr memo guard room member pattern resume := by
        intro resume
        rw [visit, logical, Bool.or_true]
        rfl
      have place : group.members[before.length]? = some member := by
        rw [← Array.getElem?_toList, members, List.getElem?_append_right (Nat.le_refl _),
          Nat.sub_self]
        rfl
      obtain ⟨expr, stored, home, position⟩ := valid.listed there place
      have step : ∀ value ∈ (Listing.inExpr memo guard room member pattern).found,
          nextInGroup memo guard (room + 1) id pattern (some value) =
            orElse (nextInExpr memo guard room member pattern (some value))
              (firstOf memo guard room pattern group after) := by
        intro value found
        obtain ⟨same, children, again, rfl⟩ := root_of_mem_inExpr found
        rw [stored] at again
        cases again
        have rest : group.members.toList.drop expr.position = member :: after := by
          rw [position, members, List.drop_left]
        rw [nextInGroup_some running there (nodeOf member expr children) relational home stored rest]
        exact congrArg (orElse · _) (visited _)
      have gives := exprs member
      rw [visited, List.filter_cons_of_pos logical]
      cases failed : (Listing.inExpr memo guard room member pattern).failure with
      | none =>
        rw [failed] at gives
        rw [Listing.concatMap_cons_of_none
          (fun member => Listing.inExpr memo guard room member pattern) failed]
        exact gives.orElse step others
      | some cause =>
        rw [failed] at gives
        rw [Listing.concatMap_cons_of_failure
          (fun member => Listing.inExpr memo guard room member pattern) failed, failed]
        exact gives.orElse_failure step

end Running

end Group

/-! ### All cursors -/

/-- **The cursor of a group gives its listing**, if the cursors of expressions below do. -/
theorem gives_inGroup_succ (valid : memo.Valid) (id : GroupId)
    (exprs : ∀ member, Gives
      (fun value => nextInExpr memo guard room member pattern (some value))
      (nextInExpr memo guard room member pattern none)
      (Listing.inExpr memo guard room member pattern).found
      (Listing.inExpr memo guard room member pattern).failure) :
    Gives (fun value => nextInGroup memo guard (room + 1) id pattern (some value))
      (nextInGroup memo guard (room + 1) id pattern none)
      (Listing.inGroup memo guard (room + 1) id pattern).found
      (Listing.inGroup memo guard (room + 1) id pattern).failure := by
  cases running : guard.cancelled with
  | true =>
    rw [Listing.inGroup, nextInGroup, running]
    rfl
  | false =>
    cases there : memo.groups[id]? with
    | none =>
      rw [Listing.inGroup, nextInGroup, running, there, Memo.group, there]
      rfl
    | some group =>
      cases scalar : group.isScalar with
      | false =>
        rw [inGroup_eq running there scalar, nextInGroup_none running there]
        exact gives_members running there valid scalar exprs (List.nil_append _).symm
      | true =>
        have ended := nextInGroup_some_of_scalar running there scalar room pattern
        rw [inGroup_of_scalar running there scalar]
        cases nextInGroup memo guard (room + 1) id pattern none with
        | error failure => exact rfl
        | ok found =>
          cases found with
          | none => exact rfl
          | some first => exact ⟨rfl, ended first⟩

/-- **Cursors give listings**, at every level of recursion. -/
theorem gives (valid : memo.Valid) (guard : Guard) (room : Nat) :
    (∀ id pattern, Gives (fun value => nextInGroup memo guard room id pattern (some value))
      (nextInGroup memo guard room id pattern none)
      (Listing.inGroup memo guard room id pattern).found
      (Listing.inGroup memo guard room id pattern).failure) ∧
    (∀ id pattern, Gives (fun value => nextInExpr memo guard room id pattern (some value))
      (nextInExpr memo guard room id pattern none)
      (Listing.inExpr memo guard room id pattern).found
      (Listing.inExpr memo guard room id pattern).failure) := by
  induction room with
  | zero => exact ⟨fun id pattern => rfl, fun id pattern => rfl⟩
  | succ room ih =>
    exact ⟨fun id pattern => gives_inGroup_succ valid id fun member => ih.2 member pattern,
      fun id pattern => gives_inExpr_succ id ih.1⟩

/-- The cursor of a group gives the listing of the group. -/
theorem gives_ofGroup (valid : memo.Valid) (guard : Guard) (id : GroupId) (pattern : Pattern) :
    Gives (fun value => inGroup memo guard id pattern (some value))
      (inGroup memo guard id pattern none)
      (Listing.ofGroup memo guard id pattern).found
      (Listing.ofGroup memo guard id pattern).failure :=
  (gives valid guard guard.room).1 id pattern

/-- The cursor of an expression gives the listing of the expression. -/
theorem gives_ofExpr (valid : memo.Valid) (guard : Guard) (id : ExprId) (pattern : Pattern) :
    Gives (fun value => inExpr memo guard id pattern (some value))
      (inExpr memo guard id pattern none)
      (Listing.ofExpr memo guard id pattern).found
      (Listing.ofExpr memo guard id pattern).failure :=
  (gives valid guard guard.room).2 id pattern

end Cascades.Cursor
