/-
**Memos in JSON.**

A memo is written with its groups and expressions in the order of their numbers, operators by their
texts.
-/

import Cascades.Json.Basic
import Cascades.Memo.Basic

namespace Cascades

/-- A group with its number. The members of each family are listed once more. -/
def Group.toJson (memo : Memo) (group : Group) (id : GroupId) : Json :=
  let ids := Json.ofList Json.ofNat
  .object [("id", .ofNat id), ("scalar", .bool group.isScalar), ("open", .bool group.isOpen),
    ("len", .ofNat group.members.size), ("empty", .bool group.members.isEmpty),
    ("exprs", ids group.members.toList),
    ("logical", ids (memo.logicalMembers group)),
    ("physical", ids (memo.physicalMembers group))]

/-- An expression with its number. -/
def Expr.toJson (expr : Expr) (id : ExprId) : Json :=
  .object [("id", .ofNat id), ("op", .string expr.operator.toText),
    ("children", Json.ofList Json.ofNat expr.children), ("group", .ofNat expr.group),
    ("pos", .ofNat expr.position)]

/-- A memo as it is written. -/
def Memo.toJson (memo : Memo) : Json :=
  .object [
    ("groups", .array (memo.groups.toList.mapIdx fun id group => group.toJson memo id)),
    ("exprs", .array (memo.exprs.toList.mapIdx fun id expr => expr.toJson id)),
    ("closed", .bool !memo.isOpen)]

end Cascades
