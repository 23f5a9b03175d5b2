/-
**Settings of a search.**

The limits on groups and on rule applications end a phase quietly; the limit on the depth of
recursion aborts. `Config.ofJson?` reads settings in which every field may be missing, and
`Config.toJson` writes them.
-/

import Cascades.Count
import Cascades.Json.Basic

namespace Cascades

/-- The settings of a search. -/
structure Config where
  /-- The number of groups at which a phase stops. -/
  maxGroups : Nat := 100000
  /-- The number of rule applications at which a phase stops. -/
  maxIterations : Nat := 1000000
  /-- The greatest depth of recursion. -/
  maxDepth : Nat := 512
  /-- Whether alternatives may be computed at the same time; results do not depend on it. -/
  parallel : Bool := false
  /-- The names of rules that never fire. -/
  disabledRules : List String := []
  deriving DecidableEq, Repr, Inhabited

namespace Config

/-- Whether a rule is switched off. -/
def isDisabled (config : Config) (rule : String) : Bool := config.disabledRules.contains rule

/-- The names of the fields, in the order of a list form. -/
def fieldNames : List String :=
  ["max_memo_groups", "max_iterations", "max_recursion_depth", "parallel", "disabled_xforms"]

/-- Reads settings; a missing field takes its default. -/
def ofJson? (json : Json) : Option Config := do
  let default : Config := {}
  let record ← Json.Record.ofJson? fieldNames json
  let limit := Json.toNat? greatestCount
  return {
    maxGroups := ← record.withDefault "max_memo_groups" default.maxGroups limit
    maxIterations := ← record.withDefault "max_iterations" default.maxIterations limit
    maxDepth := ← record.withDefault "max_recursion_depth" default.maxDepth limit
    parallel := ← record.withDefault "parallel" default.parallel Json.toBool?
    disabledRules := ← record.withDefault "disabled_xforms" default.disabledRules
      (Json.toList? Json.toString?) }

/-- Settings as they are written. -/
def toJson (config : Config) : Json :=
  .object [
    ("max_memo_groups", .ofNat config.maxGroups),
    ("max_iterations", .ofNat config.maxIterations),
    ("max_recursion_depth", .ofNat config.maxDepth),
    ("parallel", .bool config.parallel),
    ("disabled_xforms", Json.ofList .string config.disabledRules)]

end Config

end Cascades
