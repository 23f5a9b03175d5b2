/-
**Bindings: expressions taken out of a memo.**

A binding is a tree in which every node was chosen among the members of a group.
-/

import Cascades.Memo.Basic

namespace Cascades

/-- A chosen expression, with its group and operator, over bindings of its child groups. A leaf has
no children, whatever its operator. -/
inductive Binding where
  | node (expr : ExprId) (group : GroupId) (operator : Operator) (children : List Binding)
  deriving Inhabited

namespace Binding

/-- The expression at the root. -/
def expr : Binding → ExprId
  | node expr _ _ _ => expr

/-- The group of the root. -/
def group : Binding → GroupId
  | node _ group _ _ => group

/-- The operator at the root. -/
def operator : Binding → Operator
  | node _ _ operator _ => operator

/-- The bindings below the root. -/
def children : Binding → List Binding
  | node _ _ _ children => children

/-- The number of bindings below the root. -/
def arity (binding : Binding) : Nat := binding.children.length

/-- The group of a binding below the root. -/
def childGroup (binding : Binding) (position : Nat) : Except Fault GroupId :=
  match binding.children[position]? with
  | some child => .ok child.group
  | none => .error .indexOutOfBounds

/-- The groups of the bindings below the root. -/
def childGroups (binding : Binding) : List GroupId := binding.children.map group

mutual

/-- Whether two bindings chose the same expression at every node. -/
def same : Binding → Binding → Bool
  | node first _ _ children, node second _ _ others => first == second && sameAll children others

/-- Whether two lists of bindings are the same one by one. -/
def sameAll : List Binding → List Binding → Bool
  | [], [] => true
  | first :: rest, second :: others => same first second && sameAll rest others
  | _, _ => false

end

instance : BEq Binding := ⟨same⟩

mutual

/-- The text of a binding on one line. -/
def toText : Binding → String
  | node _ _ operator [] => operator.toText
  | node _ _ operator (child :: rest) =>
    operator.toText ++ "(" ++ child.toText ++ restText rest ++ ")"

/-- The texts of the children after the first one. -/
def restText : List Binding → String
  | [] => ""
  | child :: rest => ", " ++ child.toText ++ restText rest

end

end Binding

end Cascades
