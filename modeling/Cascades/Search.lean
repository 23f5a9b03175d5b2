/-
**The search.**

A phase applies the rules of one kind in rounds, until a round finds nothing to try or adds nothing,
or until a limit on rule applications or groups is reached.

* A round derives the properties of all groups, lists what is still to be tried below the root,
  computes all proposals on the memo as it is, and only then inserts them one trial after another.
* `explore`, `implement`: the phases; `optimize`: both, the cheapest plan, and the end of the memo;
* an abort keeps the trials that were carried out before it.
-/

import Cascades.Plan
import Cascades.Property.Derivation
import Cascades.Rule.Implementation

namespace Cascades

/-! ### Reachable groups -/

/-- The relational groups below the members of a group. -/
def Memo.groupsBelow (memo : Memo) (id : GroupId) : List GroupId :=
  match memo.groups[id]? with
  | none => []
  | some group => group.members.toList.flatMap fun member =>
    match memo.exprs[member]? with
    | none => []
    | some expr => memo.relationalChildren expr

/-- Adds to the groups that were seen all that lie below some of them, level by level. -/
def Memo.reachFrom (memo : Memo) : (levels : Nat) → (frontier : List GroupId) → Array Bool →
    Array Bool
  | 0, _, seen => seen
  | levels + 1, frontier, seen =>
    let (seen, next) := (frontier.flatMap memo.groupsBelow).foldl
      (fun (seen, next) child =>
        if seen.getD child true then (seen, next)
        else (seen.setIfInBounds child true, child :: next))
      (seen, [])
    if next.isEmpty then seen else reachFrom memo levels next seen

/-- The relational groups that can be reached from a group through any members, in ascending
order. -/
def Memo.reachable (memo : Memo) (root : GroupId) : Except Fault (List GroupId) := do
  let group ← memo.group root
  if group.isScalar then return []
  let start := (Array.replicate memo.groups.size false).setIfInBounds root true
  let seen := memo.reachFrom memo.groups.size [root] start
  return (List.range memo.groups.size).filter fun id => seen.getD id false

/-! ### State -/

/-- A memo with what is known of it, the rules and settings, and the number of rule applications so
far. -/
structure Search where
  context : Context := {}
  rules : List Rule := Rule.standard
  config : Config := {}
  iterations : Nat := 0
  deriving Inhabited

/-- A rule to try on an expression. -/
abbrev Trial := ExprId × Rule

namespace Search

/-- A search over a memo. -/
def ofMemo (memo : Memo) (catalog : Catalog) (rules : List Rule) (config : Config) : Search where
  context := { memo, catalog, guard := { maxDepth := config.maxDepth } }
  rules
  config

/-- An action on the memo and what is known of it. -/
def onContext {α : Type} (action : Action Context α) : Action Search α :=
  Action.onPart Search.context (fun search context => { search with context }) action

/-! ### One round -/

/-- What is still to be tried below a root: group by group, member by member, the best rules
first. -/
def trials (search : Search) (kind : RuleKind) (root : GroupId) : Except Fault (List Trial) := do
  let memo := search.context.memo
  let groups ← (← memo.reachable root).mapM memo.group
  let members := groups.flatMap memo.logicalMembers
  let tried ← members.mapM fun member => do
    let candidates ← Rule.candidates search.rules search.context search.config kind member
    return candidates.map fun candidate => (member, candidate.1)
  return tried.flatten

/-- The proposals of a trial on the memo as it is. -/
def proposalsOf (context : Context) (trial : Trial) :
    Except Fault (Trial × Except Abort (List Proposal)) :=
  match trial.2.proposals context trial.1 with
  | .ok proposals => .ok (trial, .ok proposals)
  | .error (.abort cause) => .ok (trial, .error cause)
  | .error (.fault cause) => .error cause

/-- Carries out a trial whose proposals are known; gives the number of new expressions. -/
def commit (search : Search) (trial : Trial) (proposals : List Proposal) :
    Except Fault (Nat × Search) := do
  let (added, memo) ← trial.2.commit search.context.memo trial.1 proposals
  return (added, { search with
    context := { search.context with memo }
    iterations := search.iterations + 1 })

/-- Whether the memo has reached the limit on groups. -/
def isFull (search : Search) : Bool :=
  search.config.maxGroups ≤ search.context.memo.groups.size

/-- Carries out trials in order, up to the first whose proposals were aborted or that fills the
memo; gives the number of new expressions. -/
def commitAll : (added : Nat) → List (Trial × Except Abort (List Proposal)) → Action Search Nat
  | added, [] => return added
  | added, (trial, result) :: rest => do
    let proposals ← (result : Except Abort (List Proposal))
    let search ← get
    let (more, search) ← (search.commit trial proposals : Except Fault (Nat × Search))
    set search
    if search.isFull then return added + more else commitAll (added + more) rest

/-! ### Phases -/

/-- Runs one round; gives whether another one may follow. -/
def round (kind : RuleKind) (root : GroupId) : Action Search Bool := do
  (← get).context.guard.check 0
  onContext Context.deriveAll
  let search ← get
  let trials ← (search.trials kind root : Except Fault (List Trial))
  if trials.isEmpty then return false
  let budget := search.config.maxIterations - search.iterations
  let results ← ((trials.take budget).mapM (proposalsOf search.context) :
    Except Fault (List (Trial × Except Abort (List Proposal))))
  let added ← commitAll 0 results
  let full := !results.isEmpty && (← get).isFull
  return !full && trials.length < budget && added != 0

/-- Runs rounds. A round that another may follow applies at least one rule, so the fuel, which
bounds the applications that are left, does not run out. -/
def rounds (kind : RuleKind) (root : GroupId) : (fuel : Nat) → Action Search Unit
  | 0 => return
  | fuel + 1 => do
    if ← round kind root then rounds kind root fuel

/-- Runs a phase over everything below a root. -/
def phase (kind : RuleKind) (root : GroupId) : Action Search Unit := do
  let search ← get
  rounds kind root (search.config.maxIterations - search.iterations + 1)

/-- Applies rules that propose logical expressions. -/
def explore (root : GroupId) : Action Search Unit := phase .exploration root

/-- Applies rules that propose physical expressions. -/
def implement (root : GroupId) : Action Search Unit := phase .implementation root

/-- The cheapest plan of a group in the memo as it is. -/
def cheapest? (search : Search) (model : CostModel) (root : GroupId) :
    Except Failure (Option Plan) :=
  Plan.ofGroup? search.context.memo search.context.catalog search.context.guard model root

/-- Explores, implements, takes the cheapest plan and closes the memo. -/
def optimize (model : CostModel) (root : GroupId) : Action Search (Option Plan) := do
  explore root
  implement root
  let plan ← ((← get).cheapest? model root : Except Failure (Option Plan))
  modify fun search =>
    { search with context := { search.context with memo := search.context.memo.close } }
  return plan

end Search

end Cascades
