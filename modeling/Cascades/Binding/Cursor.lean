/-
**The cursor: one binding after another.**

A cursor needs no state of its own: the binding that it gave last says where to go on. Members of a
group are taken in the order of their insertion, logical ones only in a relational group. The
children of a node turn like the wheels of a counter: the last one moves first, and a child that has
no further binding starts again when its left neighbour moves.

* `Cursor.nextInGroup`, `Cursor.nextInExpr`: the next binding in a group or of an expression;
* `Cursor.take`: the first bindings.
-/

import Cascades.Binding.Basic
import Cascades.Guard
import Cascades.Pattern

namespace Cascades.Cursor

/-- The outcome of a turn of the children of a node. -/
inductive Turn where
  /-- One child moved on; those to its right started again. -/
  | moved (children : List Binding)
  /-- No child could move on; all started again. -/
  | restarted (children : List Binding)
  /-- A child has no binding any more. -/
  | stuck

/-- Turns the children of a node, each given by its position, its group and its binding. The search
`next` for a child's binding goes on after a given one, or starts. -/
def turn (next : Nat → GroupId → Option Binding → Except Failure (Option Binding)) :
    List (Nat × GroupId × Binding) → Except Failure Turn
  | [] => return .restarted []
  | (position, group, current) :: rest => do
    match ← turn next rest with
    | .moved others => return .moved (current :: others)
    | .stuck => return .stuck
    | .restarted others =>
      match ← next position group (some current) with
      | some moved => return .moved (moved :: others)
      | none =>
        match ← next position group none with
        | some first => return .restarted (first :: others)
        | none => return .stuck

mutual

/-- The next binding of a pattern in a group, for a recursion with some levels left. In a scalar
group all members are equal in value, so it has one binding only. -/
def nextInGroup (memo : Memo) (guard : Guard) :
    (room : Nat) → GroupId → Pattern → Option Binding → Except Failure (Option Binding)
  | 0, _, _, _ => throw (.abort guard.refusal)
  | room + 1, id, pattern, previous => do
    if guard.cancelled then throw (.abort guard.refusal)
    let group ← memo.group id
    let visit (resume : Option Binding) (member : ExprId) :
        Except Failure (Option Binding) :=
      if group.isScalar || memo.hasOperator Operator.isLogical member then
        nextInExpr memo guard room member pattern resume
      else return none
    match previous with
    | none => group.members.toList.findSomeM? (visit none)
    | some last =>
      if group.isScalar then return none
      if last.group != id then throw (.fault (.resumedInGroup last.expr id))
      let position := (← memo.expr last.expr).position
      match group.members.toList.drop position with
      | [] => return none
      | member :: rest =>
        match ← visit (some last) member with
        | some found => return some found
        | none => rest.findSomeM? (visit none)

/-- The next binding of a pattern whose root is a given expression. -/
def nextInExpr (memo : Memo) (guard : Guard) :
    (room : Nat) → ExprId → Pattern → Option Binding → Except Failure (Option Binding)
  | 0, _, _, _ => throw (.abort guard.refusal)
  | room + 1, id, pattern, previous => do
    if guard.cancelled then throw (.abort guard.refusal)
    let expr ← memo.expr id
    let node := Binding.node id expr.group expr.operator
    if !pattern.matchesRoot expr.operator expr.arity then return none
    if pattern.isLeaf then return if previous.isNone then some (node []) else none
    let next (position : Nat) (child : GroupId) (resume : Option Binding) :
        Except Failure (Option Binding) := do
      nextInGroup memo guard room child (← pattern.child position expr.arity) resume
    match previous with
    | none =>
      let children ← (expr.children.zipIdx.mapM fun (child, position) =>
        OptionT.mk (next position child none)).run
      return children.map node
    | some last =>
      if last.expr != id then throw (.fault (.resumedAtExpr last.expr id))
      if last.arity != expr.arity then throw (.fault (.resumedWithArity id))
      let digits := (expr.children.zip last.children).zipIdx.map
        fun ((child, current), position) => (position, child, current)
      match ← turn next digits with
      | .moved children => return some (node children)
      | .restarted _ | .stuck => return none

end

/-- The binding in a group that follows a given one, or the first. -/
def inGroup (memo : Memo) (guard : Guard) (id : GroupId) (pattern : Pattern)
    (previous : Option Binding) : Except Failure (Option Binding) :=
  nextInGroup memo guard guard.room id pattern previous

/-- The binding of an expression that follows a given one, or the first. -/
def inExpr (memo : Memo) (guard : Guard) (id : ExprId) (pattern : Pattern)
    (previous : Option Binding) : Except Failure (Option Binding) :=
  nextInExpr memo guard guard.room id pattern previous

/-- The bindings that a cursor gives after a given one, up to a number of them. -/
def take (next : Option Binding → Except Failure (Option Binding)) :
    (count : Nat) → (previous : Option Binding) → Except Failure (List Binding)
  | 0, _ => return []
  | count + 1, previous => do
    match ← next previous with
    | none => return []
    | some binding => return binding :: (← take next count (some binding))

end Cascades.Cursor
