/-
**Finding properties and keeping them.**

* `Context.compute`, `Context.tryCompute`: a value that is not known yet is found, counted and kept;
* `Context.readScalar`, `Context.readRelational`: one property, found where it is not yet known;
* `Context.deriveScalar`, `Context.deriveRelational`: all properties of a group, which completes its
  sheet; what was found before is kept, also where an abort ends the derivation;
* `Context.deriveAll`: all groups in the order of their numbers, in which the children of first
  members come before their parents.
-/

import Cascades.Property.Relational

namespace Cascades

/-- Whether a search can be stopped while it finds a property. -/
def RelationalProperty.isFallible : RelationalProperty → Bool
  | constraint | maxCardinality => true
  | _ => false

namespace Context

/-! ### One value -/

/-- Finds a value and keeps it. The derivation is counted before it begins. -/
def compute {Value : Type} (count : Context → Context) (find : Action Context Value)
    (keep : Value → Context → Context) : Action Context Value := do
  modify count
  let value ← find
  modify (keep value)
  return value

/-- Finds a value and keeps it. The derivation is counted once it has ended well. -/
def tryCompute {Value : Type} (count : Context → Context) (find : Action Context Value)
    (keep : Value → Context → Context) : Action Context Value := do
  let value ← find
  modify count
  modify (keep value)
  return value

/-! ### Scalar groups -/

/-- The context with one more derivation for a scalar sheet. -/
def tallyScalar (context : Context) (sheet : SheetId) : Context :=
  { context with facts := context.facts.tallyScalar sheet }

/-- The context with a property in a scalar sheet. -/
def keepScalar (context : Context) (sheet : SheetId) (property : ScalarProperty)
    (value : property.Value) : Context :=
  { context with
    facts := context.facts.setScalar sheet ((context.facts.scalar sheet).put property value) }

/-- The context with all properties in a scalar sheet. -/
def completeScalar (context : Context) (sheet : SheetId) (values : ScalarProperties) : Context :=
  { context with facts := context.facts.setScalar sheet (.complete values) }

/-- Reads one property through a scalar expression. -/
def readScalar (id : ExprId) (property : ScalarProperty) : Action Context property.Value := do
  let context ← get
  let (expr, sheet) ← (context.scalarExpr id : Except Fault (Expr × SheetId))
  match (context.facts.scalar sheet).get? property with
  | some value => return value
  | none =>
    compute (·.tallyScalar sheet) (property.derive context expr : Except Fault property.Value)
      fun value context => context.keepScalar sheet property value

/-- Finds every property through a scalar expression. -/
def deriveScalar (id : ExprId) : Action Context Unit := do
  let context ← get
  let (_, sheet) ← (context.scalarExpr id : Except Fault (Expr × SheetId))
  if (context.facts.scalar sheet).isComplete then return
  context.guard.check 0
  let definedColumns ← readScalar id .definedColumns
  let usedColumns ← readScalar id .usedColumns
  let setReturningColumns ← readScalar id .setReturningColumns
  let hasSubquery ← readScalar id .hasSubquery
  let partitions ← readScalar id .partitions
  let functionTraits ← readScalar id .functionTraits
  let hasSetFunction ← readScalar id .hasSetFunction
  let distinctAggregates ← readScalar id .distinctAggregates
  let multipleDistinctAggregates ← readScalar id .multipleDistinctAggregates
  let hasArrayComparison ← readScalar id .hasArrayComparison
  modify (·.completeScalar sheet fun
    | .definedColumns => definedColumns
    | .usedColumns => usedColumns
    | .setReturningColumns => setReturningColumns
    | .hasSubquery => hasSubquery
    | .partitions => partitions
    | .functionTraits => functionTraits
    | .hasSetFunction => hasSetFunction
    | .distinctAggregates => distinctAggregates
    | .multipleDistinctAggregates => multipleDistinctAggregates
    | .hasArrayComparison => hasArrayComparison)

/-! ### Relational groups -/

/-- The sheet of a relational group. -/
def relationalSheet (context : Context) (id : GroupId) : Except Fault RelationalSheet := do
  let group ← context.memo.group id
  if group.isScalar then throw (.groupNotRelational id)
  else return context.facts.relational id

/-- The context with one more derivation for a relational group. -/
def tallyRelational (context : Context) (id : GroupId) : Context :=
  { context with facts := context.facts.tallyRelational id }

/-- The context with a property of a relational group. -/
def keepRelational (context : Context) (id : GroupId) (property : RelationalProperty)
    (value : property.Value) : Context :=
  { context with
    facts := context.facts.setRelational id ((context.facts.relational id).put property value) }

/-- The context with all properties of a relational group. -/
def completeRelational (context : Context) (id : GroupId) (values : RelationalProperties) :
    Context :=
  { context with facts := context.facts.setRelational id (.complete values) }

/-- Reads one property, in which the constraint is given where it matters. -/
def readRelationalWith (id : GroupId) (known : Option Constraint) (property : RelationalProperty) :
    Action Context property.Value := do
  let context ← get
  let sheet ← (context.relationalSheet id : Except Fault RelationalSheet)
  match sheet.get? property with
  | some value => return value
  | none =>
    let find : Action Context property.Value :=
      (property.derive context id known : Except Failure property.Value)
    let keep (value : property.Value) (context : Context) : Context :=
      context.keepRelational id property value
    if property.isFallible then tryCompute (·.tallyRelational id) find keep
    else compute (·.tallyRelational id) find keep

/-- Reads one property. The bound on the number of rows asks for the constraint first. -/
def readRelational (id : GroupId) (property : RelationalProperty) :
    Action Context property.Value := do
  let context ← get
  let sheet ← (context.relationalSheet id : Except Fault RelationalSheet)
  let known ←
    if property = .maxCardinality ∧ (sheet.get? property).isNone then
      readRelationalWith id none .constraint
    else pure none
  readRelationalWith id known property

/-- Finds every property of a relational group. -/
def deriveRelational (id : GroupId) : Action Context Unit := do
  let context ← get
  let sheet ← (context.relationalSheet id : Except Fault RelationalSheet)
  if sheet.isComplete then return
  context.guard.check 0
  let outputColumns ← readRelational id .outputColumns
  let outerReferences ← readRelational id .outerReferences
  let constraint ← readRelational id .constraint
  let maxCardinality ← readRelational id .maxCardinality
  let joinDepth ← readRelational id .joinDepth
  let partitions ← readRelational id .partitions
  modify (·.completeRelational id fun
    | .outputColumns => outputColumns
    | .outerReferences => outerReferences
    | .constraint => constraint
    | .maxCardinality => maxCardinality
    | .joinDepth => joinDepth
    | .partitions => partitions)

/-! ### All groups -/

/-- Finds every property of a group; a relational group without a logical member has none. -/
def deriveGroup (id : GroupId) : Action Context Unit := do
  let context ← get
  context.guard.check 0
  let group ← (context.memo.group id : Except Fault Group)
  if group.isScalar then
    deriveScalar (← (group.first : Except Fault ExprId))
  else if (context.memo.logicalMembers group).isEmpty then return
  else deriveRelational id

/-- Finds every property of every group. -/
def deriveAll : Action Context Unit := do
  let context ← get
  (List.range context.memo.groups.size).forM deriveGroup

end Context

end Cascades
