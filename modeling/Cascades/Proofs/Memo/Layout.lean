/-
**The layout of expressions.**

Every operator takes children of certain families in a certain order. What a child stands for is
either a value or a relation, for which the number of tables in it is counted. A physical operator
takes what the logical one does that it implements.

* `Operator.Takes`: the children that an operator takes, and what they amount to;
* `Operator.Takes.of_families`: which children are taken depends on their families only;
* `Operator.accepts_iff`: so it can be decided;
* `Memo.Laid`: every expression of a memo has children that its operator takes;
* `Laid.logical`, `Laid.binary`, `Laid.unary`: the children of an expression, by its operator.
-/

import Cascades.Proofs.Meaning.Scope
import Cascades.Proofs.Memo.Valid
import Mathlib.Algebra.GroupWithZero.Nat

namespace Cascades

/-! ### What operators take -/

/-- What a group stands for: a value, or a relation over a number of tables. -/
inductive Breadth where
  | scalar
  | relation (tables : Nat)
  deriving DecidableEq

/-- Whether a group stands for a value. -/
def Breadth.isScalar : Breadth → Bool
  | scalar => true
  | relation _ => false

/-- The number of tables; a value has none. -/
def Breadth.tables : Breadth → Nat
  | scalar => 0
  | relation tables => tables

/-- The children that a logical operator takes, and the number of tables in its relation. A join of
many inputs has at least one. -/
inductive LogicalOp.Takes : LogicalOp → List Breadth → Nat → Prop
  | get {table : Table} {columns : List Column} : Takes (.get table columns) [] 1
  | select {tables : Nat} : Takes .select [.relation tables, .scalar] tables
  | project {tables : Nat} : Takes .project [.relation tables, .scalar] tables
  | join {type : JoinType} {left right : Nat} :
      Takes (.join type) [.relation left, .relation right, .scalar] (left + right)
  | naryJoin {inputs : List Nat} (some : inputs ≠ []) :
      Takes .naryJoin (inputs.map .relation ++ [.scalar]) inputs.sum
  | aggregate {keys : List Column} {tables : Nat} :
      Takes (.aggregate keys) [.relation tables, .scalar] tables
  | limit {offset count tables : Nat} : Takes (.limit offset count) [.relation tables] tables

/-- The children that a scalar operator takes. -/
inductive ScalarOp.Takes : ScalarOp → List Breadth → Prop
  | column {column : Column} : Takes (.column column) []
  | constant {value : Value} : Takes (.constant value) []
  | binary {operator : BinaryOp} : Takes (.binary operator) [.scalar, .scalar]
  | unary {operator : UnaryOp} : Takes (.unary operator) [.scalar]
  | and (inputs : Nat) : Takes .and (List.replicate inputs .scalar)
  | or (inputs : Nat) : Takes .or (List.replicate inputs .scalar)
  | call {name : String} (inputs : Nat) : Takes (.call name) (List.replicate inputs .scalar)
  | aggregate {function : AggregateFunction} {distinct : Bool} (inputs : Nat) :
      Takes (.aggregate function distinct) (List.replicate inputs .scalar)
  | projectList (inputs : Nat) : Takes .projectList (List.replicate inputs .scalar)
  | projectElement {column : Column} : Takes (.projectElement column) [.scalar]
  | subquery {column : Column} {tables : Nat} : Takes (.subquery column) [.relation tables]
  | subqueryExists {tables : Nat} : Takes .subqueryExists [.relation tables]
  | arrayComparison {operator : BinaryOp} {quantifier : Quantifier} :
      Takes (.arrayComparison operator quantifier) [.scalar, .scalar]
  | array (inputs : Nat) : Takes .array (List.replicate inputs .scalar)

/-- **The children that an operator takes**, and what they amount to. -/
inductive Operator.Takes : Operator → List Breadth → Breadth → Prop
  | logical {operator : LogicalOp} {inputs : List Breadth} {tables : Nat} :
      operator.Takes inputs tables → Takes (.logical operator) inputs (.relation tables)
  | physical {operator : PhysicalOp} {inputs : List Breadth} {tables : Nat} :
      operator.logical.Takes inputs tables → Takes (.physical operator) inputs (.relation tables)
  | scalar {operator : ScalarOp} {inputs : List Breadth} :
      operator.Takes inputs → Takes (.scalar operator) inputs .scalar

variable {operator : Operator} {inputs : List Breadth} {breadth : Breadth}

theorem Operator.Takes.isScalar_eq (takes : operator.Takes inputs breadth) :
    breadth.isScalar = operator.isScalar := by
  cases takes <;> rfl

theorem LogicalOp.Takes.unique {operator : LogicalOp} {tables other : Nat}
    (takes : operator.Takes inputs tables) (again : operator.Takes inputs other) :
    tables = other := by
  cases takes
  case naryJoin counts some =>
    generalize same : counts.map Breadth.relation ++ [.scalar] = inputs at again
    cases again with
    | @naryJoin others _ =>
      have counted : counts = others :=
        List.map_injective_iff.2 (fun _ _ equal => Breadth.relation.inj equal)
          (List.append_cancel_right same)
      rw [counted]
  all_goals
    cases again
    rfl

/-- Equal operators over the same children amount to the same. -/
theorem Operator.Takes.unique {other : Operator} {result : Breadth}
    (takes : operator.Takes inputs breadth) (again : other.Takes inputs result)
    (equal : (operator == other) = true) : breadth = result := by
  cases takes with
  | scalar _ =>
    cases again with
    | scalar _ => rfl
    | logical _ => exact absurd equal Bool.false_ne_true
    | physical _ => exact absurd equal Bool.false_ne_true
  | logical first =>
    obtain rfl := Operator.eq_of_beq (PartialEquivBEq.symm equal) rfl
    cases again with
    | logical second => rw [first.unique second]
  | physical first =>
    obtain rfl := Operator.eq_of_beq (PartialEquivBEq.symm equal) rfl
    cases again with
    | physical second => rw [first.unique second]

/-- What an operator takes depends on the families of its inputs only; the number of tables follows. -/
theorem LogicalOp.Takes.of_families {operator : LogicalOp} {tables : Nat}
    (takes : operator.Takes inputs tables) {others : List Breadth}
    (same : inputs.map Breadth.isScalar = others.map Breadth.isScalar) :
    ∃ count, operator.Takes others count := by
  have relation : ∀ {other : Breadth}, other.isScalar = false → ∃ count, other = .relation count := by
    rintro (_ | count) family
    · cases family
    · exact ⟨count, rfl⟩
  have scalar : ∀ {other : Breadth}, other.isScalar = true → other = .scalar := by
    rintro (_ | count) family
    · rfl
    · cases family
  cases takes with
  | get =>
    obtain rfl := List.map_eq_nil_iff.1 same.symm
    exact ⟨_, .get⟩
  | select | project | aggregate =>
    obtain ⟨first, rest, rfl, one, same⟩ := List.map_eq_cons_iff.1 same.symm
    obtain ⟨second, rest, rfl, two, same⟩ := List.map_eq_cons_iff.1 same
    obtain rfl := List.map_eq_nil_iff.1 same
    obtain ⟨_, rfl⟩ := relation one
    obtain rfl := scalar two
    exact ⟨_, by constructor⟩
  | join =>
    obtain ⟨first, rest, rfl, one, same⟩ := List.map_eq_cons_iff.1 same.symm
    obtain ⟨second, rest, rfl, two, same⟩ := List.map_eq_cons_iff.1 same
    obtain ⟨third, rest, rfl, three, same⟩ := List.map_eq_cons_iff.1 same
    obtain rfl := List.map_eq_nil_iff.1 same
    obtain ⟨_, rfl⟩ := relation one
    obtain ⟨_, rfl⟩ := relation two
    obtain rfl := scalar three
    exact ⟨_, .join⟩
  | @naryJoin counts some =>
    rw [List.map_append] at same
    obtain ⟨relations, last, rfl, first, second⟩ := List.map_eq_append_iff.1 same.symm
    obtain ⟨predicate, rest, rfl, third, none⟩ := List.map_eq_cons_iff.1 second
    obtain rfl := List.map_eq_nil_iff.1 none
    obtain rfl := scalar third
    -- Every input stands for a relation, so its number of tables says all of it.
    have counted : (relations.map Breadth.tables).map Breadth.relation = relations := by
      rw [List.map_map]
      refine (List.map_congr_left fun input member => ?_).trans (List.map_id _)
      have among : input.isScalar ∈ (counts.map Breadth.relation).map Breadth.isScalar :=
        first ▸ List.mem_map_of_mem member
      obtain ⟨_, inside, equal⟩ := List.mem_map.1 among
      obtain ⟨_, _, rfl⟩ := List.mem_map.1 inside
      obtain ⟨_, rfl⟩ := relation equal.symm
      rfl
    have others : relations.map Breadth.tables ≠ [] := by
      rintro empty
      obtain rfl := List.map_eq_nil_iff.1 empty
      simp [some] at first
    rw [← counted]
    exact ⟨_, .naryJoin others⟩
  | limit =>
    obtain ⟨first, rest, rfl, one, same⟩ := List.map_eq_cons_iff.1 same.symm
    obtain rfl := List.map_eq_nil_iff.1 same
    obtain ⟨_, rfl⟩ := relation one
    exact ⟨_, .limit⟩

/-- Values are told by their family. -/
theorem eq_of_families {others : List Breadth} (values : ∀ input ∈ inputs, input = .scalar)
    (same : inputs.map Breadth.isScalar = others.map Breadth.isScalar) : others = inputs := by
  induction inputs generalizing others with
  | nil => exact List.map_eq_nil_iff.1 same.symm
  | cons input inputs ih =>
    obtain ⟨other, rest, rfl, one, more⟩ := List.map_eq_cons_iff.1 same.symm
    obtain rfl := values input List.mem_cons_self
    rw [ih (fun input member => values input (List.mem_cons_of_mem _ member)) more.symm]
    cases other with
    | scalar => rfl
    | relation => cases one

theorem ScalarOp.Takes.of_families {operator : ScalarOp} (takes : operator.Takes inputs)
    {others : List Breadth} (same : inputs.map Breadth.isScalar = others.map Breadth.isScalar) :
    operator.Takes others := by
  have values : (∀ input ∈ inputs, input = .scalar) → operator.Takes others :=
    fun each => (eq_of_families each same).symm ▸ takes
  cases takes with
  | subquery | subqueryExists =>
    obtain ⟨first, rest, rfl, one, same⟩ := List.map_eq_cons_iff.1 same.symm
    obtain rfl := List.map_eq_nil_iff.1 same
    cases first with
    | scalar => cases one
    | relation => constructor
  | and | or | call | aggregate | projectList | array =>
    exact values fun input member => List.eq_of_mem_replicate member
  | column | constant | binary | unary | projectElement | arrayComparison =>
    exact values (by simp)

theorem Operator.Takes.of_families (takes : operator.Takes inputs breadth) {others : List Breadth}
    (same : inputs.map Breadth.isScalar = others.map Breadth.isScalar) :
    ∃ result, operator.Takes others result := by
  cases takes with
  | logical takes =>
    obtain ⟨count, again⟩ := takes.of_families same
    exact ⟨_, .logical again⟩
  | physical takes =>
    obtain ⟨count, again⟩ := takes.of_families same
    exact ⟨_, .physical again⟩
  | scalar takes => exact ⟨_, .scalar (takes.of_families same)⟩

/-- An operator over relations with tables has a relation with tables. -/
theorem LogicalOp.Takes.positive {operator : LogicalOp} {tables : Nat}
    (takes : operator.Takes inputs tables) (each : ∀ count, .relation count ∈ inputs → 0 < count) :
    0 < tables := by
  cases takes with
  | get => exact Nat.one_pos
  | select | project | aggregate | limit => exact each _ (by simp)
  | join => exact Nat.add_pos_left (each _ (by simp)) _
  | @naryJoin counts some =>
    obtain ⟨first, rest, rfl⟩ := List.exists_cons_of_ne_nil some
    rw [List.sum_cons]
    exact Nat.add_pos_left (each first (by simp)) _

/-! ### Deciding what operators take -/

/-- Whether a logical operator takes children of some families, a value where there is `true`. -/
def LogicalOp.accepts : LogicalOp → List Bool → Bool
  | .get .., families => families == []
  | .select, families | .project, families | .aggregate _, families => families == [false, true]
  | .join _, families => families == [false, false, true]
  | .naryJoin, families =>
    families.dropLast != [] && families == families.dropLast.map (fun _ => false) ++ [true]
  | .limit .., families => families == [false]

/-- Whether a scalar operator takes children of some families. -/
def ScalarOp.accepts : ScalarOp → List Bool → Bool
  | .column _, families | .constant _, families => families == []
  | .binary _, families | .arrayComparison .., families => families == [true, true]
  | .unary _, families | .projectElement _, families => families == [true]
  | .subquery _, families | .subqueryExists, families => families == [false]
  | .and, families | .or, families | .call _, families | .aggregate .., families
  | .projectList, families | .array, families => families == List.replicate families.length true

/-- Whether an operator takes children of some families. -/
def Operator.accepts : Operator → List Bool → Bool
  | .logical operator, families => operator.accepts families
  | .physical operator, families => operator.logical.accepts families
  | .scalar operator, families => operator.accepts families

theorem LogicalOp.accepts_iff {operator : LogicalOp} {families : List Bool} :
    operator.accepts families = true ↔
      ∃ inputs tables, inputs.map Breadth.isScalar = families ∧ operator.Takes inputs tables := by
  constructor
  · intro accepted
    cases operator with
    | get => exact ⟨[], 1, (beq_iff_eq.1 accepted).symm, .get⟩
    | select | project | aggregate =>
      exact ⟨[.relation 1, .scalar], 1, (beq_iff_eq.1 accepted).symm, by constructor⟩
    | join => exact ⟨[.relation 1, .relation 1, .scalar], 2, (beq_iff_eq.1 accepted).symm, .join⟩
    | naryJoin =>
      obtain ⟨some, same⟩ := Bool.and_eq_true_iff.1 accepted
      refine ⟨(families.dropLast.map fun _ => 1).map .relation ++ [.scalar], _, ?_, .naryJoin ?_⟩
      · rw [List.map_append, List.map_map, List.map_map]
        exact (beq_iff_eq.1 same).symm
      · rw [Ne, List.map_eq_nil_iff]
        exact bne_iff_ne.1 some
    | limit => exact ⟨[.relation 1], 1, (beq_iff_eq.1 accepted).symm, .limit⟩
  · rintro ⟨inputs, tables, rfl, takes⟩
    cases takes
    case naryJoin counts some =>
      simpa [accepts, Breadth.isScalar, Function.comp_def] using some
    all_goals rfl

theorem ScalarOp.accepts_iff {operator : ScalarOp} {families : List Bool} :
    operator.accepts families = true ↔
      ∃ inputs, inputs.map Breadth.isScalar = families ∧ operator.Takes inputs := by
  constructor
  · intro accepted
    have values : families = List.replicate families.length true →
        (List.replicate families.length Breadth.scalar).map Breadth.isScalar = families := by
      intro all
      rw [List.map_replicate]
      exact all.symm
    cases operator with
    | column | constant => exact ⟨[], (beq_iff_eq.1 accepted).symm, by constructor⟩
    | binary | arrayComparison =>
      exact ⟨[.scalar, .scalar], (beq_iff_eq.1 accepted).symm, by constructor⟩
    | unary | projectElement => exact ⟨[.scalar], (beq_iff_eq.1 accepted).symm, by constructor⟩
    | subquery | subqueryExists =>
      exact ⟨[.relation 1], (beq_iff_eq.1 accepted).symm, by constructor⟩
    | and | or | call | aggregate | projectList | array =>
      exact ⟨_, values (beq_iff_eq.1 accepted), by constructor⟩
  · rintro ⟨inputs, rfl, takes⟩
    cases takes <;> simp [accepts, Breadth.isScalar]

/-- **What an operator takes is decided** by the families of its inputs. -/
theorem Operator.accepts_iff {operator : Operator} {families : List Bool} :
    operator.accepts families = true ↔
      ∃ inputs result, inputs.map Breadth.isScalar = families ∧ operator.Takes inputs result := by
  constructor
  · intro accepted
    cases operator with
    | logical operator =>
      obtain ⟨inputs, tables, same, takes⟩ := LogicalOp.accepts_iff.1 accepted
      exact ⟨inputs, .relation tables, same, .logical takes⟩
    | physical operator =>
      obtain ⟨inputs, tables, same, takes⟩ := LogicalOp.accepts_iff.1 accepted
      exact ⟨inputs, .relation tables, same, .physical takes⟩
    | scalar operator =>
      obtain ⟨inputs, same, takes⟩ := ScalarOp.accepts_iff.1 accepted
      exact ⟨inputs, .scalar, same, .scalar takes⟩
  · rintro ⟨inputs, result, same, takes⟩
    cases takes with
    | logical takes => exact LogicalOp.accepts_iff.2 ⟨inputs, _, same, takes⟩
    | physical takes => exact LogicalOp.accepts_iff.2 ⟨inputs, _, same, takes⟩
    | scalar takes => exact ScalarOp.accepts_iff.2 ⟨inputs, same, takes⟩

/-! ### Families of groups -/

namespace Memo

variable {memo : Memo} {id : GroupId}

/-- A group that holds scalar expressions. -/
def Scalar (memo : Memo) (id : GroupId) : Prop :=
  ∃ group, memo.groups[id]? = some group ∧ group.isScalar = true

/-- A group that holds relations. -/
def Relational (memo : Memo) (id : GroupId) : Prop :=
  ∃ group, memo.groups[id]? = some group ∧ group.isScalar = false

theorem scalar_iff : memo.Scalar id ↔ memo.isScalarGroup id = true := by
  unfold Scalar isScalarGroup
  cases memo.groups[id]? <;> simp

theorem relational_iff :
    memo.Relational id ↔ id < memo.groups.size ∧ memo.isScalarGroup id = false := by
  constructor
  · rintro ⟨group, there, family⟩
    exact ⟨lt_of_group there, by rw [isScalarGroup, there]; exact family⟩
  · rintro ⟨inside, family⟩
    obtain ⟨group, there⟩ := group_of_lt inside
    rw [isScalarGroup, there] at family
    exact ⟨group, there, family⟩

theorem Relational.inside (relational : memo.Relational id) : id < memo.groups.size :=
  (relational_iff.1 relational).1

theorem Scalar.inside (scalar : memo.Scalar id) : id < memo.groups.size :=
  have ⟨_, there, _⟩ := scalar
  lt_of_group there

/-! ### Memos whose expressions are laid out -/

/-- Some groups are of the families that an operator takes. -/
def Fits (memo : Memo) (operator : Operator) (children : List GroupId) : Prop :=
  ∃ inputs breadth, inputs.map Breadth.isScalar = children.map memo.isScalarGroup ∧
    operator.Takes inputs breadth

instance (memo : Memo) (operator : Operator) (children : List GroupId) :
    Decidable (memo.Fits operator children) :=
  decidable_of_iff _ Operator.accepts_iff

/-- Every expression has children of the families that its operator takes. -/
def Laid (memo : Memo) : Prop :=
  ∀ {id : ExprId} {expr : Expr}, memo.exprs[id]? = some expr →
    memo.Fits expr.operator expr.children

/-- The children of a logical operator, by their families. -/
def LogicalLayout (memo : Memo) (children : List GroupId) : LogicalOp → Prop
  | .get .. => children = []
  | .select | .project | .aggregate _ =>
    ∃ input last, children = [input, last] ∧ memo.Relational input ∧ memo.Scalar last
  | .join _ =>
    ∃ left right predicate, children = [left, right, predicate] ∧ memo.Relational left ∧
      memo.Relational right ∧ memo.Scalar predicate
  | .naryJoin =>
    ∃ first others predicate, children = first :: others ++ [predicate] ∧
      (∀ input ∈ first :: others, memo.Relational input) ∧ memo.Scalar predicate
  | .limit .. => ∃ input, children = [input] ∧ memo.Relational input

section Laid

variable (linked : memo.Linked) (laid : memo.Laid) {expr : Expr} {number : ExprId}
  (stored : memo.exprs[number]? = some expr)
include linked laid stored

/-- **The children of a logical expression.** -/
theorem Laid.logical {operator : LogicalOp} (logical : expr.operator = .logical operator) :
    memo.LogicalLayout expr.children operator := by
  obtain ⟨inputs, breadth, same, takes⟩ := laid stored
  have relational : ∀ child ∈ expr.children, memo.isScalarGroup child = false →
      memo.Relational child :=
    fun child member family => relational_iff.2 ⟨linked.childExists stored member, family⟩
  rw [logical] at takes
  generalize expr.children = children at same relational ⊢
  cases takes with
  | logical takes =>
  cases takes with
  | get => exact List.map_eq_nil_iff.1 same.symm
  | select | project | aggregate =>
    obtain ⟨input, rest, rfl, first, same⟩ := List.map_eq_cons_iff.1 same.symm
    obtain ⟨last, rest, rfl, second, same⟩ := List.map_eq_cons_iff.1 same
    obtain rfl := List.map_eq_nil_iff.1 same
    exact ⟨input, last, rfl, relational input (by simp) first, scalar_iff.2 second⟩
  | join =>
    obtain ⟨left, rest, rfl, first, same⟩ := List.map_eq_cons_iff.1 same.symm
    obtain ⟨right, rest, rfl, second, same⟩ := List.map_eq_cons_iff.1 same
    obtain ⟨predicate, rest, rfl, third, same⟩ := List.map_eq_cons_iff.1 same
    obtain rfl := List.map_eq_nil_iff.1 same
    exact ⟨left, right, predicate, rfl, relational left (by simp) first,
      relational right (by simp) second, scalar_iff.2 third⟩
  | @naryJoin counts some =>
    rw [List.map_append] at same
    obtain ⟨relations, last, rfl, first, second⟩ := List.map_eq_append_iff.1 same.symm
    obtain ⟨predicate, rest, rfl, third, none⟩ := List.map_eq_cons_iff.1 second
    obtain rfl := List.map_eq_nil_iff.1 none
    have families : ∀ input ∈ relations, memo.Relational input := by
      intro input member
      refine relational input (List.mem_append_left _ member) ?_
      have among : memo.isScalarGroup input ∈ (counts.map Breadth.relation).map Breadth.isScalar :=
        first ▸ List.mem_map_of_mem member
      obtain ⟨_, inside, equal⟩ := List.mem_map.1 among
      obtain ⟨_, _, rfl⟩ := List.mem_map.1 inside
      exact equal.symm
    cases relations with
    | nil => simp [some] at first
    | cons head tail => exact ⟨head, tail, predicate, rfl, families, scalar_iff.2 third⟩
  | limit =>
    obtain ⟨input, rest, rfl, first, same⟩ := List.map_eq_cons_iff.1 same.symm
    obtain rfl := List.map_eq_nil_iff.1 same
    exact ⟨input, rfl, relational input (by simp) first⟩

omit linked in
/-- A comparison or a calculation has two operands. -/
theorem Laid.binary {operator : BinaryOp} (binary : expr.operator = .scalar (.binary operator)) :
    ∃ left right, expr.children = [left, right] ∧ memo.Scalar left ∧ memo.Scalar right := by
  obtain ⟨inputs, breadth, same, takes⟩ := laid stored
  rw [binary] at takes
  cases takes with
  | scalar takes =>
  cases takes
  obtain ⟨left, rest, shown, first, same⟩ := List.map_eq_cons_iff.1 same.symm
  obtain ⟨right, rest, rfl, second, same⟩ := List.map_eq_cons_iff.1 same
  obtain rfl := List.map_eq_nil_iff.1 same
  exact ⟨left, right, shown, scalar_iff.2 first, scalar_iff.2 second⟩

omit linked in
/-- A negation or a test has one operand. -/
theorem Laid.unary {operator : UnaryOp} (unary : expr.operator = .scalar (.unary operator)) :
    ∃ operand, expr.children = [operand] ∧ memo.Scalar operand := by
  obtain ⟨inputs, breadth, same, takes⟩ := laid stored
  rw [unary] at takes
  cases takes with
  | scalar takes =>
  cases takes
  obtain ⟨operand, rest, shown, first, same⟩ := List.map_eq_cons_iff.1 same.symm
  obtain rfl := List.map_eq_nil_iff.1 same
  exact ⟨operand, shown, scalar_iff.2 first⟩

omit linked in
/-- The children of an operator that takes values only. -/
theorem Laid.values (values : ∀ inputs breadth, expr.operator.Takes inputs breadth →
      ∀ input ∈ inputs, input = .scalar) :
    ∀ child ∈ expr.children, memo.Scalar child := by
  obtain ⟨inputs, breadth, same, takes⟩ := laid stored
  intro child member
  have among : memo.isScalarGroup child ∈ inputs.map Breadth.isScalar :=
    same ▸ List.mem_map_of_mem member
  obtain ⟨input, inside, equal⟩ := List.mem_map.1 among
  rw [values inputs breadth takes input inside] at equal
  exact scalar_iff.2 equal.symm

omit linked in
/-- The children of a conjunction are scalar. -/
theorem Laid.and (conjunction : expr.operator = .scalar .and) :
    ∀ child ∈ expr.children, memo.Scalar child := by
  refine laid.values stored fun inputs breadth takes => ?_
  rw [conjunction] at takes
  cases takes with
  | scalar takes =>
  cases takes
  exact fun input member => List.eq_of_mem_replicate member

omit linked in
/-- The children of a disjunction are scalar. -/
theorem Laid.or (disjunction : expr.operator = .scalar .or) :
    ∀ child ∈ expr.children, memo.Scalar child := by
  refine laid.values stored fun inputs breadth takes => ?_
  rw [disjunction] at takes
  cases takes with
  | scalar takes =>
  cases takes
  exact fun input member => List.eq_of_mem_replicate member

end Laid

end Memo

end Cascades
