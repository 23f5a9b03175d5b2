/-
**All bindings at once.**

A listing holds the bindings of a pattern in the order in which the cursor gives them, and the
failure, if any, at which the cursor ends. For one expression it is the product of the listings of
its child groups, the last child changing first; for a relational group the listings of its logical
members one after another; for a scalar group no more than one binding.

* `Listing.ofGroup`, `Listing.ofExpr`: the listing in a group or of an expression;
* `Listing.toExcept`: its bindings, if it ends without a failure.
-/

import Cascades.Binding.Cursor

namespace Cascades

/-- Values in order, and the failure that ends them. -/
structure Listing (α : Type) where
  found : List α
  failure : Option Failure := none
  deriving Inhabited

namespace Listing

variable {α β : Type}

/-! ### Operations -/

/-- No values. -/
def nil : Listing α := ⟨[], none⟩

/-- No values, and a failure. -/
def fail (failure : Failure) : Listing α := ⟨[], some failure⟩

/-- The listing of a computation. -/
def ofExcept (result : Except Failure (Listing α)) : Listing α :=
  match result with
  | .ok listing => listing
  | .error failure => fail failure

/-- The values of a listing, if it ends without a failure. -/
def toExcept (listing : Listing α) : Except Failure (List α) :=
  match listing.failure with
  | none => .ok listing.found
  | some failure => .error failure

/-- The listing with its values changed. -/
def map (change : α → β) (listing : Listing α) : Listing β :=
  ⟨listing.found.map change, listing.failure⟩

/-- The listings of some values one after another, up to the first failure. -/
def concatMap (list : β → Listing α) : List β → Listing α
  | [] => nil
  | head :: tail =>
    let first := list head
    match first.failure with
    | some _ => first
    | none =>
      let rest := concatMap list tail
      ⟨first.found ++ rest.found, rest.failure⟩

/-- All lists with one value from each child. `start` is the first value of a child and `list` its
listing, which is asked for only when the child moves on, after the children to its right have
ended. -/
def product (start : β → Except Failure (Option α)) (list : β → Listing α) :
    List β → Listing (List α)
  | [] => ⟨[[]], none⟩
  | child :: rest =>
    match start child with
    | .error failure => fail failure
    | .ok none => nil
    | .ok (some head) =>
      let tails := product start list rest
      match tails.failure, tails.found with
      | some failure, found => ⟨found.map (head :: ·), some failure⟩
      | none, [] => nil
      | none, found =>
        let heads := list child
        ⟨heads.found.flatMap fun head => found.map (head :: ·), heads.failure⟩

/-! ### Bindings -/

mutual

/-- The bindings of a pattern in a group, for a recursion with some levels left. -/
def inGroup (memo : Memo) (guard : Guard) :
    (room : Nat) → GroupId → Pattern → Listing Binding
  | 0, _, _ => fail (.abort guard.refusal)
  | room + 1, id, pattern =>
    if guard.cancelled then fail (.abort guard.refusal)
    else
      match memo.groups[id]? with
      | none => fail (.fault (.groupMissing id memo.groups.size))
      | some group =>
        if group.isScalar then
          ofExcept do
            let first ← Cursor.nextInGroup memo guard (room + 1) id pattern none
            return ⟨first.toList, none⟩
        else
          concatMap (fun member => inExpr memo guard room member pattern)
            (memo.logicalMembers group)

/-- The bindings of a pattern whose root is a given expression. -/
def inExpr (memo : Memo) (guard : Guard) :
    (room : Nat) → ExprId → Pattern → Listing Binding
  | 0, _, _ => fail (.abort guard.refusal)
  | room + 1, id, pattern =>
    if guard.cancelled then fail (.abort guard.refusal)
    else
      match memo.exprs[id]? with
      | none => fail (.fault (.exprMissing id memo.exprs.size))
      | some expr =>
        let node := Binding.node id expr.group expr.operator
        if !pattern.matchesRoot expr.operator expr.arity then nil
        else if pattern.isLeaf then ⟨[node []], none⟩
        else
          (product
            (fun (child, position) => do
              let below ← pattern.child position expr.arity
              Cursor.nextInGroup memo guard room child below none)
            (fun (child, position) => ofExcept do
              let below ← pattern.child position expr.arity
              return inGroup memo guard room child below)
            expr.children.zipIdx).map node

end

/-- The bindings of a pattern in a group. -/
def ofGroup (memo : Memo) (guard : Guard) (id : GroupId) (pattern : Pattern) : Listing Binding :=
  inGroup memo guard guard.room id pattern

/-- The bindings of a pattern whose root is a given expression. -/
def ofExpr (memo : Memo) (guard : Guard) (id : ExprId) (pattern : Pattern) : Listing Binding :=
  inExpr memo guard guard.room id pattern

end Listing

end Cascades
