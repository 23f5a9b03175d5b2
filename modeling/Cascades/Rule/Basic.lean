/-
**Rules.**

A rule looks at bindings of its pattern and proposes expressions with the same rows: logical ones
where it explores, physical ones where it implements.

* `candidates`: the rules worth trying on an expression, the best first;
* `Rule.proposals`: what a rule proposes for an expression;
* `Memo.insertProposals`: puts proposals into a group;
* `Rule.apply`: all of this for one expression, at most once.
-/

import Cascades.Binding.Listing
import Cascades.Config
import Cascades.Property.Basic

namespace Cascades

/-! ### Proposals -/

/-- An expression that a rule proposes: a group that is there, or an operator over proposals. -/
inductive Proposal where
  | group (id : GroupId)
  | node (operator : Operator) (children : List Proposal)
  deriving Inhabited

namespace Proposal

/-- An operator over groups that are there. -/
def overGroups (operator : Operator) (groups : List GroupId) : Proposal :=
  node operator (groups.map group)

/-- The conjunction of some predicates; of none it is the constant truth. -/
def conjunction : List GroupId → Proposal
  | [] => node .truth []
  | [single] => group single
  | several => overGroups (.scalar .and) several

end Proposal

namespace Memo

mutual

/-- The group of a proposal, which is inserted where it is not there yet. -/
def materialize (memo : Memo) : Proposal → Except Fault (GroupId × Memo)
  | .group id => return (id, memo)
  | .node operator children => do
    let (children, memo) ← materializeAll memo children
    let (id, memo) ← memo.insert operator children
    return ((← memo.expr id).group, memo)

/-- The groups of some proposals in order. -/
def materializeAll (memo : Memo) : List Proposal → Except Fault (List GroupId × Memo)
  | [] => return ([], memo)
  | proposal :: rest => do
    let (id, memo) ← materialize memo proposal
    let (ids, memo) ← materializeAll memo rest
    return (id :: ids, memo)

end

/-- Puts a proposal into a group. One that is a group adds nothing. -/
def insertProposal (memo : Memo) (group : GroupId) : Proposal → Except Fault Memo
  | .group _ => return memo
  | .node operator children => do
    let (children, memo) ← memo.materializeAll children
    return (← memo.insertInto group operator children).2

/-- Puts proposals into a group; gives the number of new expressions, those for inner nodes
included. -/
def insertProposals (memo : Memo) (group : GroupId) (proposals : List Proposal) :
    Except Fault (Nat × Memo) := do
  let grown ← proposals.foldlM (fun memo proposal => memo.insertProposal group proposal) memo
  return (grown.exprs.size - memo.exprs.size, grown)

end Memo

/-! ### Rules -/

/-- What the proposals of a rule are. -/
inductive RuleKind where
  /-- Logical expressions. -/
  | exploration
  /-- Physical expressions. -/
  | implementation
  deriving DecidableEq, Repr, Inhabited

/-- Every kind of rule. -/
def RuleKind.all : List RuleKind := [.exploration, .implementation]

/-- The name of a kind of rule. -/
def RuleKind.name : RuleKind → String
  | exploration => "Exploration"
  | implementation => "Implementation"

/-- How worthwhile a rule is for an expression. -/
inductive Promise where
  | skip | low | high
  deriving DecidableEq, Repr, Inhabited

namespace Promise

/-- The place of a promise, the best one last. -/
def rank : Promise → Nat
  | skip => 0
  | low => 1
  | high => 2

/-- The name of a promise. -/
def name : Promise → String
  | skip => "Skip"
  | low => "Low"
  | high => "High"

end Promise

/-- A rule. `promise` judges an expression before any binding; of rules with one promise those of
higher `priority` come first. -/
structure Rule where
  name : String
  kind : RuleKind
  pattern : Pattern
  priority : Nat := 0
  promise : Context → ExprId → Except Fault Promise := fun _ _ => .ok .low
  transform : Context → Binding → Except Failure (List Proposal)
  deriving Inhabited

namespace Rule

/-- The mark that a rule leaves on the expressions it was applied to. -/
def mark (rule : Rule) : Mark := .rule rule.name

/-! ### Candidates -/

/-- Whether a rule comes before another: by promise, then by priority. -/
def precedes (first second : Rule × Promise) : Bool :=
  second.2.rank < first.2.rank ||
    (first.2.rank == second.2.rank && second.1.priority < first.1.priority)

/-- Inserts a rule behind all that it does not precede. -/
def insertByPromise (rule : Rule × Promise) : List (Rule × Promise) → List (Rule × Promise)
  | [] => [rule]
  | head :: tail =>
    if precedes rule head then rule :: head :: tail else head :: insertByPromise rule tail

/-- The rules of a kind to try on an expression: not switched off, not applied before, with a
pattern for its root, and not skipped by their promise. The best come first, and rules that are
equally good keep their order. -/
def candidates (rules : List Rule) (context : Context) (config : Config) (kind : RuleKind)
    (id : ExprId) : Except Fault (List (Rule × Promise)) := do
  let expr ← context.memo.expr id
  let eligible := rules.filter fun rule =>
    rule.kind = kind && rule.pattern.matchesRoot expr.operator expr.arity
      && !config.isDisabled rule.name && !context.memo.isMarked id rule.mark
  let judged ← eligible.mapM fun rule => return (rule, ← rule.promise context id)
  let wanted := judged.filter fun candidate => candidate.2 != .skip
  return wanted.foldl (fun sorted candidate => insertByPromise candidate sorted) []

/-! ### Application -/

/-- What a rule proposes for all bindings of a listing in order. -/
def proposalsOf (rule : Rule) (context : Context) (bindings : Listing Binding) :
    Except Failure (List Proposal) := do
  let proposed ← bindings.found.mapM fun binding => do
    context.guard.check 0
    rule.transform context binding
  match bindings.failure with
  | some failure => throw failure
  | none => return proposed.flatten

/-- What a rule proposes for an expression. -/
def proposals (rule : Rule) (context : Context) (id : ExprId) : Except Failure (List Proposal) :=
  rule.proposalsOf context (Listing.ofExpr context.memo context.guard id rule.pattern)

/-- Notes that a rule was applied to an expression and puts its proposals into the group of the
expression; gives the number of new expressions. -/
def commit (rule : Rule) (memo : Memo) (id : ExprId) (proposals : List Proposal) :
    Except Fault (Nat × Memo) := do
  let marked := memo.mark id rule.mark
  marked.insertProposals (← marked.expr id).group proposals

/-- Applies a rule to an expression; gives the number of new expressions. Where the rule aborts,
nothing has changed. -/
def apply (rule : Rule) (id : ExprId) : Action Context Nat := do
  let context ← get
  let proposals ← (rule.proposals context id : Except Failure (List Proposal))
  let (added, memo) ← (rule.commit context.memo id proposals : Except Fault (Nat × Memo))
  set { context with memo }
  return added

end Rule

end Cascades
