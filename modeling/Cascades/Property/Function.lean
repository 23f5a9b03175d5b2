/-
**What is known of a function.**

Three traits, each in an order from harmless to restrictive; `FunctionTraits.combine` takes the more
restrictive of each.
-/

namespace Cascades

/-- Whether a function may give different results for equal arguments. -/
inductive Volatility where
  | immutable | stable | volatile
  deriving DecidableEq, Repr, Inhabited

/-- What a function does with stored data. -/
inductive DataAccess where
  | noSql | containsSql | readsSql | modifiesSql
  deriving DecidableEq, Repr, Inhabited

namespace Volatility

/-- The place of a volatility, the harmless one first. -/
def rank : Volatility → Nat
  | immutable => 0
  | stable => 1
  | volatile => 2

/-- The more restrictive of two. -/
def max (first second : Volatility) : Volatility :=
  if first.rank ≤ second.rank then second else first

/-- The name of a volatility. -/
def name : Volatility → String
  | immutable => "Immutable"
  | stable => "Stable"
  | volatile => "Volatile"

end Volatility

namespace DataAccess

/-- The place of a kind of access, the harmless one first. -/
def rank : DataAccess → Nat
  | noSql => 0
  | containsSql => 1
  | readsSql => 2
  | modifiesSql => 3

/-- The more restrictive of two. -/
def max (first second : DataAccess) : DataAccess :=
  if first.rank ≤ second.rank then second else first

/-- The name of a kind of access. -/
def name : DataAccess → String
  | noSql => "NoSql"
  | containsSql => "ContainsSql"
  | readsSql => "ReadsSql"
  | modifiesSql => "ModifiesSql"

end DataAccess

/-- The traits of a function, or of all functions in an expression. -/
structure FunctionTraits where
  volatility : Volatility := .immutable
  access : DataAccess := .noSql
  returnsSet : Bool := false
  deriving DecidableEq, Repr, Inhabited

namespace FunctionTraits

/-- The traits of an expression without functions. -/
def harmless : FunctionTraits := {}

/-- The traits assumed for a function that the catalog does not know. -/
def unknown : FunctionTraits := ⟨.volatile, .containsSql, false⟩

/-- The more restrictive of each trait. -/
def combine (first second : FunctionTraits) : FunctionTraits where
  volatility := first.volatility.max second.volatility
  access := first.access.max second.access
  returnsSet := first.returnsSet || second.returnsSet

end FunctionTraits

end Cascades
