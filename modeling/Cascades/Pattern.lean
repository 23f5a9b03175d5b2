/-
**Patterns.**

A pattern is the shape that an expression must have for a rule to see it. A leaf is any expression
without what is below it, a tree any expression with all that is below it. In front of a node's
children either may be repeated any number of times.

* `matchesRoot`: whether an operator with a number of children can be the root; `checkRoot` is the
  same for any count of children;
* `child`: the pattern for one of its children.
-/

import Cascades.Count

namespace Cascades

/-- The operators that a node of a pattern accepts. -/
inductive Matcher where
  | logical (kind : LogicalKind)
  | physical (kind : PhysicalKind)
  | scalar (kind : ScalarKind)
  | anyLogical
  | anyPhysical
  | anyScalar
  deriving DecidableEq, Repr, Inhabited

/-- Whether a matcher accepts an operator. -/
def Matcher.accepts : Matcher → Operator → Bool
  | logical kind, .logical operator => operator.kind = kind
  | physical kind, .physical operator => operator.kind = kind
  | scalar kind, .scalar operator => operator.kind = kind
  | anyLogical, .logical _ => true
  | anyPhysical, .physical _ => true
  | anyScalar, .scalar _ => true
  | _, _ => false

/-- The shape of an expression. -/
inductive Pattern where
  | node (matcher : Matcher) (children : List Pattern)
  | leaf
  /-- Any number of leaves. -/
  | leaves
  | tree
  /-- Any number of trees. -/
  | trees
  deriving Inhabited

namespace Pattern

/-- Whether a pattern stops at an expression. -/
def isLeaf : Pattern → Bool
  | leaf | leaves => true
  | _ => false

/-- Whether a pattern takes in all that is below an expression. -/
def isTree : Pattern → Bool
  | tree | trees => true
  | _ => false

/-- Whether a pattern stands for any number of children. -/
def isRepeated : Pattern → Bool
  | leaves | trees => true
  | _ => false

/-- The pattern in front of some children, if it is repeated. -/
def repeatedFirst? : List Pattern → Option Pattern
  | first :: _ => if first.isRepeated then some first else none
  | [] => none

/-- Whether an operator with a number of children can be the root of a match. -/
def matchesRoot (pattern : Pattern) (operator : Operator) (arity : Nat) : Bool :=
  match pattern with
  | node matcher children =>
    matcher.accepts operator &&
      match repeatedFirst? children with
      | some _ => children.length ≤ arity + 1
      | none => arity = children.length
  | _ => true

/-- Whether an operator with any count of children can be the root of a match. Where a repeated
pattern may stand for no child at all, one child more has to be a count as well. -/
def checkRoot (pattern : Pattern) (operator : Operator) (arity : Nat) : Except Fault Bool := do
  if let node matcher children := pattern then
    if matcher.accepts operator && (repeatedFirst? children).isSome then
      let _ ← Count.add arity 1
  return pattern.matchesRoot operator arity

/-- The pattern for the child at a position below an expression with a number of children. A
repeated pattern in front takes every position but the last. -/
def child (pattern : Pattern) (position arity : Nat) : Except Fault Pattern :=
  if arity ≤ position then .error (.childOutOfRange position arity)
  else
    match pattern with
    | tree | trees => .ok pattern
    | leaf => .error (.leafExpanded false)
    | leaves => .error (.leafExpanded true)
    | node _ children =>
      let found :=
        match repeatedFirst? children with
        | some first => if position + 1 = arity then children.getLast? else some first
        | none => children[position]?
      match found with
      | some pattern => .ok pattern
      | none => .error .indexOutOfBounds

/-! ### Common patterns -/

/-- A logical operator of a kind over patterns. -/
def logical (kind : LogicalKind) (children : List Pattern) : Pattern :=
  node (.logical kind) children

/-- A logical operator of a kind over a number of leaves. -/
def overLeaves (kind : LogicalKind) (arity : Nat) : Pattern :=
  logical kind (List.replicate arity leaf)

/-- The greatest number of children that a pattern can be built with. -/
def greatestArity : Nat := 0x3ffffffffffffff

/-- A logical operator of a kind over a number of leaves that is given from outside. -/
def overCount (kind : LogicalKind) (count : Nat) : Except Fault Pattern :=
  if count ≤ greatestArity then .ok (overLeaves kind count) else .error .tooManyLeaves

/-- A join of two leaves with the tree of its predicate. -/
def joinOfLeaves : Pattern := logical .join [leaf, leaf, tree]

/-- A join whose left input is a join. -/
def joinOfJoin : Pattern := logical .join [joinOfLeaves, leaf, tree]

/-- A join of any number of leaves with the tree of its predicate. -/
def naryJoin : Pattern := logical .naryJoin [leaves, tree]

end Pattern

end Cascades
