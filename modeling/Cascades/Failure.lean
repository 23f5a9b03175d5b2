/-
**Why an operation ends early.**

* `Abort`: a limit was reached or the input was refused; the state reached so far stays valid;
* `Fault`: an operation was called against its contract; there is no state to go on with;
* `Action`: a computation on a state that ends in a value, in an abort with the state it reached, or
  in a fault without one.
-/

import Cascades.Operator.Text

namespace Cascades

/-- The number of a group of a memo. -/
abbrev GroupId := Nat

/-- The number of an expression of a memo. -/
abbrev ExprId := Nat

/-! ### Aborts -/

/-- The ends that leave a valid state behind. -/
inductive Abort where
  | cancelled
  | depthExceeded (limit : Nat)
  | invalidJoinGraph (reason : String)
  deriving DecidableEq, Repr

namespace Abort

/-- The text of an abort. -/
def message : Abort → String
  | cancelled => "optimization cancelled"
  | depthExceeded limit => "recursion depth limit of " ++ toString limit ++ " exceeded"
  | invalidJoinGraph reason => "invalid join graph: " ++ reason

/-- Whether a running search was stopped, rather than an input refused. -/
def stopsSearch : Abort → Bool
  | cancelled | depthExceeded _ => true
  | invalidJoinGraph _ => false

end Abort

/-! ### Faults -/

/-- The ways to call an operation against its contract. -/
inductive Fault where
  | groupMissing (group groups : Nat)
  | exprMissing (expr exprs : Nat)
  | childMissing (child : GroupId) (operator : Operator)
  | memoClosed (operator : Operator)
  | groupClosed (operator : Operator) (group : GroupId)
  | familyMismatch (operator : Operator) (scalarGroup : Bool) (group : GroupId)
  | indexOutOfBounds
  | groupNotScalar (group : GroupId)
  | groupNotRelational (group : GroupId)
  | exprNotScalar (expr : ExprId) (operator : Operator) (group : GroupId)
  | scalarUnderived (group : GroupId)
  | relationalUnderived (group : GroupId)
  | noLogicalMember (group : GroupId)
  | statisticsOfScalar (group : GroupId)
  | endlessDerivation (group : GroupId)
  | resumedInGroup (expr : ExprId) (group : GroupId)
  | resumedAtExpr (expr other : ExprId)
  | resumedWithArity (expr : ExprId)
  | tooManyLeaves
  | childOutOfRange (position arity : Nat)
  | leafExpanded (repeated : Bool)
  | intersectedColumns (first second : ColumnId)
  | unitedColumns (first second : ColumnId)
  | sumTooGreat
  | differenceTooSmall
  deriving Inhabited

namespace Fault

/-- The text of a fault. -/
def message : Fault → String
  | groupMissing group groups =>
    "group " ++ toString group ++ " does not exist (" ++ toString groups ++ " groups)"
  | exprMissing expr exprs =>
    "expression " ++ toString expr ++ " does not exist (" ++ toString exprs ++ " expressions)"
  | childMissing child operator =>
    "child group " ++ toString child ++ " of " ++ operator.toText ++ " does not exist"
  | memoClosed operator => "insert of " ++ operator.toText ++ " into closed memo"
  | groupClosed operator group =>
    "insert of " ++ operator.toText ++ " into closed group " ++ toString group
  | familyMismatch operator scalarGroup group =>
    "operator " ++ operator.toText ++ " does not belong in "
      ++ (if scalarGroup then "scalar" else "relational") ++ " group " ++ toString group
  | indexOutOfBounds => "index out of bounds"
  | groupNotScalar group => "group " ++ toString group ++ " is not a scalar group"
  | groupNotRelational group =>
    "group " ++ toString group ++ " is scalar and has no relational properties"
  | exprNotScalar expr operator group =>
    "expression " ++ toString expr ++ " (" ++ operator.toText ++ ") in group "
      ++ toString group ++ " is not scalar"
  | scalarUnderived group =>
    "scalar properties of group " ++ toString group ++ " used before derivation"
  | relationalUnderived group =>
    "relational properties of group " ++ toString group ++ " used before derivation"
  | noLogicalMember group =>
    "relational group " ++ toString group ++ " has no logical expression"
  | statisticsOfScalar group => "statistics requested for scalar group " ++ toString group
  | endlessDerivation group => "derivation of group " ++ toString group ++ " does not end"
  | resumedInGroup expr group =>
    "binding of expression " ++ toString expr ++ " resumed in group " ++ toString group
  | resumedAtExpr expr other =>
    "binding of expression " ++ toString expr ++ " resumed at expression " ++ toString other
  | resumedWithArity expr =>
    "previous binding of expression " ++ toString expr ++ " has wrong arity"
  | tooManyLeaves => "capacity overflow"
  | childOutOfRange position arity =>
    "child position " ++ toString position ++ " out of range for arity " ++ toString arity
  | leafExpanded repeated =>
    "leaf pattern " ++ (if repeated then "MultiLeaf" else "Leaf") ++ " has no children to expand"
  | intersectedColumns first second =>
    "intersecting intervals on columns " ++ toString first ++ " and " ++ toString second
  | unitedColumns first second =>
    "unioning intervals on columns " ++ toString first ++ " and " ++ toString second
  | sumTooGreat => "attempt to add with overflow"
  | differenceTooSmall => "attempt to subtract with overflow"

end Fault

/-! ### Computations -/

/-- Either kind of early end. -/
inductive Failure where
  | abort (cause : Abort)
  | fault (cause : Fault)
  deriving Inhabited

instance : MonadLift (Except Fault) (Except Failure) where
  monadLift
    | .ok value => .ok value
    | .error cause => .error (.fault cause)

instance : MonadLift (Except Abort) (Except Failure) where
  monadLift
    | .ok value => .ok value
    | .error cause => .error (.abort cause)

/-- A computation on a state: an abort keeps the state it reached, a fault keeps none. -/
abbrev Action (State : Type) := ExceptT Abort (StateT State (Except Fault))

namespace Action

variable {State Part Value : Type}

/-- The action that gives a result without looking at the state. -/
def ofExcept (result : Except Failure Value) : Action State Value := fun state =>
  match result with
  | .ok value => .ok (.ok value, state)
  | .error (.abort cause) => .ok (.error cause, state)
  | .error (.fault cause) => .error cause

instance : MonadLift (Except Failure) (Action State) := ⟨ofExcept⟩

instance : MonadLift (Except Abort) (Action State) where
  monadLift result := ofExcept (monadLift result)

/-- An action on a part of the state. -/
def onPart (view : State → Part) (update : State → Part → State) (action : Action Part Value) :
    Action State Value := fun state =>
  match action (view state) with
  | .ok (result, part) => .ok (result, update state part)
  | .error cause => .error cause

end Action

end Cascades
