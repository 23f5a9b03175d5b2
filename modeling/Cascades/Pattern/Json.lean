/-
**Patterns in JSON.**

A node is a record of its matcher and the patterns of its children. Patterns without children, and
the common ones, are written as their names; a kind over a number of leaves has a short form for
reading, in which the number may be too great.
-/

import Cascades.Operator.Json
import Cascades.Pattern

namespace Cascades

namespace Matcher

/-- Reads a matcher. -/
def ofJson? : Json → Option Matcher
  | .string "AnyLogical" => some anyLogical
  | .string "AnyPhysical" => some anyPhysical
  | .string "AnyScalar" => some anyScalar
  | json => do
    match ← json.toTagged? with
    | ("Logical", kind) => return logical (← kind.toNamed? LogicalKind.all LogicalKind.name)
    | ("Physical", kind) => return physical (← kind.toNamed? PhysicalKind.all PhysicalKind.name)
    | ("Scalar", kind) => return scalar (← kind.toNamed? ScalarKind.all ScalarKind.name)
    | _ => none

/-- A matcher as it is written. -/
def toJson : Matcher → Json
  | logical kind => .tagged "Logical" (.string kind.name)
  | physical kind => .tagged "Physical" (.string kind.name)
  | scalar kind => .tagged "Scalar" (.string kind.name)
  | anyLogical => .string "AnyLogical"
  | anyPhysical => .string "AnyPhysical"
  | anyScalar => .string "AnyScalar"

end Matcher

namespace Pattern

/-! ### Reading -/

/-- The outcome of reading: nothing where the form is wrong, a fault where a number is too great. -/
abbrev Reading := ExceptT Fault Option

/-- The outcome for a form that may be wrong. -/
def Reading.ofOption {α : Type} (value : Option α) : Reading α := value.map Except.ok

/-- The outcome for a number that may be too great. -/
def Reading.ofExcept {α : Type} (value : Except Fault α) : Reading α := some value

/-- The pattern with a name. -/
def ofName? : String → Option Pattern
  | "Leaf" => some leaf
  | "MultiLeaf" => some leaves
  | "Tree" => some tree
  | "MultiTree" => some trees
  | "join" => some joinOfLeaves
  | "join_join_left" => some joinOfJoin
  | "nary_join" => some naryJoin
  | _ => none

/-- Reads a kind over a number of leaves. -/
def ofLeaves? : Json → Reading Pattern
  | .array [kind, arity] => do
    let kind ← .ofOption (kind.toNamed? LogicalKind.all LogicalKind.name)
    let arity ← .ofOption (arity.toNat? greatestCount)
    .ofExcept (overCount kind arity)
  | _ => .ofOption none

mutual

/-- Reads a pattern. -/
def ofJson? : Json → Reading Pattern
  | .string name => .ofOption (ofName? name)
  | .object fields =>
    match fields.lookup "with_leaves" with
    | some data => ofLeaves? data
    | none => do
      let matcher ← .ofOption ((fields.lookup "match").bind Matcher.ofJson?)
      return node matcher (← childrenOf? fields)
  | _ => .ofOption none

/-- Reads the children among the fields of a node. -/
def childrenOf? : List (String × Json) → Reading (List Pattern)
  | [] => .ofOption none
  | (name, value) :: rest =>
    if name = "children" then
      match value with
      | .array items => listOf? items
      | _ => .ofOption none
    else childrenOf? rest

/-- Reads some patterns. -/
def listOf? : List Json → Reading (List Pattern)
  | [] => return []
  | item :: rest => do return (← ofJson? item) :: (← listOf? rest)

end

/-! ### Writing -/

mutual

/-- A pattern as it is written. -/
def toJson : Pattern → Json
  | leaf => .string "Leaf"
  | leaves => .string "MultiLeaf"
  | tree => .string "Tree"
  | trees => .string "MultiTree"
  | node matcher children =>
    .object [("match", matcher.toJson), ("children", .array (listToJson children))]

/-- Some patterns as they are written. -/
def listToJson : List Pattern → List Json
  | [] => []
  | pattern :: rest => toJson pattern :: listToJson rest

end

end Pattern

end Cascades
