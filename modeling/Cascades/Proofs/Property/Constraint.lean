/-
**Derived constraints are true.**

Each row of a relation satisfies the constraint that is derived for it, whatever operators lie below.
A side of a join that may be filled up with NULL says nothing, an aggregation keeps what is known of
its keys, and a predicate is known to be true of the rows that it lets through.

* `Sense.Satisfies`: every row of a relation satisfies a constraint;
* `derive_constraint`: what is derived from satisfied constraints is satisfied;
* `reached_constraint`: in every state of a search, all constraints are satisfied, and a relation with
  a contradiction for a constraint is empty.
-/

import Cascades.Proofs.Constraint.Predicate
import Cascades.Proofs.Meaning.Join
import Cascades.Proofs.Meaning.Shown
import Cascades.Proofs.Property.Knowledge

namespace Cascades

open Memo Interpretation

/-! ### Satisfied constraints -/

/-- **Every row of a relation satisfies a constraint**, together with the environment. The constraint
is about columns that the relation makes or takes from outside. -/
structure Sense.Satisfies (values : Value → Prop) (relation : Sense Value) (constraint : Constraint) :
    Prop where
  fits : constraint.Fits values relation.scope.Involves
  holds : ∀ environment, environment.In values → ∀ row ∈ relation.rows environment,
    constraint.Holds (row.above environment).value

namespace Sense

variable {values : Value → Prop} {whole part : Sense Value} {columns : ColumnId → Prop}
  {constraint : Constraint}

/-- What is known of the rows that a relation shows is known of its own rows. -/
theorem Shows.satisfies (shows : whole.Shows part columns) (fits : constraint.Fits values columns)
    (holds : ∀ environment, environment.In values → ∀ row ∈ part.rows environment,
      constraint.Holds (row.above environment).value) : whole.Satisfies values constraint := by
  refine ⟨Constraint.Fits.mono shows.involved constraint fits, fun environment known row member => ?_⟩
  obtain ⟨inner, here, same⟩ := shows.rows environment row member
  refine (Constraint.Holds.congr (fun column shown => ?_) constraint fits).2
    (holds environment known inner here)
  exact congrArg (Option.getD · .null) (same column shown)

/-- A relation that satisfies some constraints satisfies what is made of all of them. -/
theorem satisfies_all? {parts : List Constraint} (ordered : Value.Ordered values) (null : values .null)
    (rows : ∀ environment, environment.In values → ∀ row ∈ whole.rows environment, row.In values)
    (each : ∀ part ∈ parts, whole.Satisfies values part)
    (given : Constraint.all? parts = some constraint) : whole.Satisfies values constraint := by
  refine ⟨Constraint.fits_all? (fun part member => (each part member).fits) given,
    fun environment known row member => ?_⟩
  have there : ∀ column, whole.scope.Involves column → values ((row.above environment).value column) :=
    fun column _ => Row.value_in (Row.above_in (rows environment known row member) known) null column
  exact (Constraint.holds_all? ordered there (fun part listed => (each part listed).fits) given).2
    fun part listed => (each part listed).holds environment known row member

/-- A relation that satisfies a contradiction is empty. -/
theorem Satisfies.rows_eq_zero (satisfies : whole.Satisfies values constraint)
    (ordered : Value.Ordered values) (null : values .null) {environment : Row Value}
    (rows : ∀ row ∈ whole.rows environment, row.In values) (known : environment.In values)
    (contradiction : constraint.isContradiction = true) : whole.rows environment = 0 := by
  refine Multiset.eq_zero_of_forall_notMem fun row member => ?_
  have there : ∀ column, whole.scope.Involves column → values ((row.above environment).value column) :=
    fun column _ => Row.value_in (Row.above_in (rows row member) known) null column
  have possible := Constraint.isContradiction_eq_false ordered there constraint satisfies.fits
    (satisfies.holds environment known row member)
  rw [contradiction] at possible
  cases possible

/-- The rows of an inner join satisfy what its conditions imply. -/
theorem Implies.joined {I : Interpretation Value} {relations conditions : List (Sense Value)}
    {condition : Sense Value} (implies : condition.Implies I values constraint)
    (member : condition ∈ conditions)
    (rows : ∀ environment, environment.In values →
      ∀ row ∈ (I.joined relations conditions).rows environment, row.In values) :
    (I.joined relations conditions).Satisfies values constraint := by
  refine ⟨Constraint.Fits.mono (fun column used => ?_) constraint implies.fits,
    fun environment known row among => ?_⟩
  · have listed : condition.scope ∈ conditions.map Sense.scope := List.mem_map.2 ⟨_, member, rfl⟩
    by_cases made : ∃ input ∈ relations.map Sense.scope, column ∈ input.columns
    · exact Or.inl (Scope.mem_columns_joined.2 made)
    · exact Or.inr (Scope.mem_free_joined.2 ⟨Or.inl ⟨_, listed, used⟩, made⟩)
  · exact implies.holds _ (Row.above_in (rows environment known row among) known)
      ((Bag.mem_keep.1 among).2 condition member)

end Sense

/-! ### No columns -/

namespace Constraint

mutual

/-- Nothing is said about no columns. -/
theorem onColumns?_empty : (constraint : Constraint) → onColumns? .empty constraint = none
  | interval value => by simp [onColumns?]
  | all parts => by
    have none : (viewsOnColumns .empty parts).filterMap id = [] := by
      rw [List.filterMap_eq_nil_iff]
      exact viewsOnColumns_empty parts
    rw [onColumns?, none]
    rfl
  | any [] => rfl
  | any (part :: rest) => by
    rw [onColumns?, viewsOnColumns, List.mapM_cons, onColumns?_empty part]
    rfl

theorem viewsOnColumns_empty : (parts : List Constraint) →
    ∀ view ∈ viewsOnColumns .empty parts, view = none
  | [], _, member => absurd member List.not_mem_nil
  | part :: rest, view, member => by
    rw [viewsOnColumns] at member
    rcases List.mem_cons.1 member with rfl | member
    · exact onColumns?_empty part
    · exact viewsOnColumns_empty rest view member

end

end Constraint

/-! ### Derivation -/

namespace Context

variable {I : Interpretation Value} {values : Value → Prop} {context : Context}

/-- What a derived constraint says of a group. -/
def constraintClaims (I : Interpretation Value) (values : Value → Prop) : Knowledge
  | memo, id, .constraint, found => ∀ constraint, found = some constraint →
      (memo.sense I id).Satisfies values constraint
  | _, _, _, _ => True

/-- What the rules for constraints need: an interpretation with the standard meaning, a regular memo,
and values that are ordered. -/
structure Regulated (I : Interpretation Value) (values : Value → Prop) (memo : Memo) : Prop where
  standard : I.Standard
  ordered : Value.Ordered values
  regular : memo.Regular I
  draws : memo.Draws I values

section Parts

variable {group : Except Fault GroupId} {rest : List Constraint → Except Failure (Option Constraint)}
  {result : Option Constraint}

theorem constraintOf_cases {child : GroupId} {parts : List Constraint}
    (knows : context.Knows (constraintClaims I values))
    (done : RelationalProperty.constraintOf context child = .ok parts) :
    context.memo.Relational child ∧
      ∀ part ∈ parts, (context.memo.sense I child).Satisfies values part := by
  obtain ⟨found, read, done⟩ := bind_eq_ok_iff.1 done
  have properties := lift_fault_eq_ok_iff.1 read
  obtain rfl := pure_eq_ok_iff.1 done
  exact ⟨(relationalProperties_cases properties).1, fun part member =>
    knows.relationalProperties properties .constraint part (Option.mem_toList.1 member)⟩

/-- A rule that reads the constraint of a relation first. -/
theorem constraintOfGroup_cases (knows : context.Knows (constraintClaims I values))
    (done : (do rest (← RelationalProperty.constraintOf context (← group)) :
      Except Failure (Option Constraint)) = .ok result) :
    ∃ child parts, group = .ok child ∧ context.memo.Relational child ∧
      (∀ part ∈ parts, (context.memo.sense I child).Satisfies values part) ∧
        rest parts = .ok result := by
  obtain ⟨child, given, done⟩ := bind_eq_ok_iff.1 done
  obtain ⟨parts, read, done⟩ := bind_eq_ok_iff.1 done
  obtain ⟨relational, each⟩ := constraintOf_cases knows read
  exact ⟨child, parts, lift_fault_eq_ok_iff.1 given, relational, each, done⟩

/-- A rule that reads the constraint of a predicate first. -/
theorem constraintOfPredicate_cases (regulated : Regulated I values context.memo)
    (sound : context.memo.Sound I)
    (done : (do rest (← RelationalProperty.constraintOfPredicate context (← group)) :
      Except Failure (Option Constraint)) = .ok result) :
    ∃ child parts, group = .ok child ∧
      (∀ part ∈ parts, (context.memo.sense I child).Implies I values part) ∧
        rest parts = .ok result := by
  obtain ⟨child, given, done⟩ := bind_eq_ok_iff.1 done
  obtain ⟨parts, read, done⟩ := bind_eq_ok_iff.1 done
  obtain ⟨found, predicate, same⟩ := bind_eq_ok_iff.1 read
  obtain rfl := pure_eq_ok_iff.1 same
  refine ⟨child, _, lift_fault_eq_ok_iff.1 given, fun part member => ?_, done⟩
  rw [Option.mem_toList.1 member] at predicate
  exact Constraint.ofPredicate?_implied regulated.standard regulated.ordered
    (.of_regular sound.toValid regulated.draws regulated.regular) predicate

end Parts

section Expression

variable {expr : Expr} {number : ExprId} {operator : LogicalOp} {constraint : Constraint}
  (regulated : Regulated I values context.memo) (sound : context.memo.Sound I)
  (stored : context.memo.exprs[number]? = some expr)
include regulated sound stored

theorem rows_in {environment : Row Value} (known : environment.In values) :
    ∀ row ∈ (context.memo.sense I expr.group).rows environment, row.In values := by
  obtain ⟨group, there, _⟩ := sound.placed stored
  exact regulated.draws.rows (lt_of_group there) known

section Kind

variable (kind : expr.operator = .logical operator)
include kind

/-- A selection or an inner join satisfies what its relations satisfy and what its predicate, the last
child, implies. -/
theorem joining_satisfies (joining : operator.isJoining = true) :
    (∀ child ∈ expr.children, context.memo.Relational child → ∀ part,
      (context.memo.sense I child).Satisfies values part →
        (context.memo.sense I expr.group).Satisfies values part) ∧
    ∀ (position : Nat) (child : GroupId), expr.children[position]? = some child →
      expr.children.length = position + 1 → ∀ part,
        (context.memo.sense I child).Implies I values part →
          (context.memo.sense I expr.group).Satisfies values part := by
  have computes : expr.operator.logical? = some operator := by
    rw [kind]
    rfl
  obtain ⟨sources, predicate, shape, _, isPredicate, apart, means⟩ :=
    sound.joining stored computes joining
  have rows : ∀ environment, environment.In values →
      ∀ row ∈ (context.memo.sense I expr.group).rows environment, row.In values :=
    fun _ known => rows_in regulated sound stored known
  constructor
  · rintro child member ⟨group, there, relational⟩ part satisfies
    rw [shape] at member
    rcases List.mem_append.1 member with source | last
    · rw [means]
      exact (shows_source apart (List.mem_map.2 ⟨child, source, rfl⟩)).satisfies satisfies.fits
        satisfies.holds
    · rw [List.mem_singleton.1 last] at there
      have scalar := isPredicate.2
      rw [sound.toValid.isScalar_sense there, relational] at scalar
      cases scalar
  · intro position child place count part implies
    rw [shape] at place count
    have last : position = sources.length := by simpa using count.symm
    subst last
    obtain rfl : predicate = child := by simpa using place
    rw [means] at rows ⊢
    exact implies.joined (List.mem_singleton.2 rfl) rows

omit regulated in
/-- What the group of a logical expression means. -/
theorem sense_group : context.memo.sense I expr.group =
    I.ofLogical operator (expr.children.map (context.memo.sense I)) := by
  rw [← sound.same stored, exprSense, kind]
  rfl

omit kind in
/-- An expression whose group satisfies some constraints satisfies what is made of all of them. -/
theorem combined_satisfies {parts : List Constraint}
    (each : ∀ part ∈ parts, (context.memo.sense I expr.group).Satisfies values part)
    (done : (pure (Constraint.all? parts) : Except Failure (Option Constraint)) =
      .ok (some constraint)) : (context.memo.sense I expr.group).Satisfies values constraint :=
  Sense.satisfies_all? regulated.ordered regulated.draws.null
    (fun _ known => rows_in regulated sound stored known) each (pure_eq_ok_iff.1 done)

end Kind

/-! One lemma for each rule: a rule reads the children, and the group shows what it keeps of them. -/

variable (knows : context.Knows (constraintClaims I values))
include knows

theorem select_satisfies (kind : expr.operator = .logical .select)
    (done : RelationalProperty.deriveConstraint context expr .select = .ok (some constraint)) :
    (context.memo.sense I expr.group).Satisfies values constraint := by
  obtain ⟨source, predicate⟩ := joining_satisfies regulated sound stored kind rfl
  have shape := regulated.regular.expr stored
  rw [kind] at shape
  have count : expr.children.length = 1 + 1 := by simpa using shape.selects rfl
  obtain ⟨input, known, given, relational, each, done⟩ := constraintOfGroup_cases knows done
  obtain ⟨condition, implied, givenToo, eachToo, done⟩ :=
    constraintOfPredicate_cases regulated sound done
  refine combined_satisfies regulated sound stored (fun part listed => ?_) done
  rcases List.mem_append.1 listed with first | second
  · exact source input (List.mem_of_getElem? (Expr.child_ok_iff.1 given)) relational part
      (each part first)
  · exact predicate 1 condition (Expr.child_ok_iff.1 givenToo) count part (eachToo part second)

theorem innerJoin_satisfies {type : JoinType} (kind : expr.operator = .logical (.join type))
    (inner : type.isInner = true)
    (done : RelationalProperty.deriveConstraint context expr (.join type) = .ok (some constraint)) :
    (context.memo.sense I expr.group).Satisfies values constraint := by
  obtain ⟨source, predicate⟩ := joining_satisfies regulated sound stored kind inner
  have shape := regulated.regular.expr stored
  rw [kind] at shape
  have count : expr.children.length = 2 + 1 := by simpa using shape.joins type rfl
  -- Inner joins and cross joins have one rule.
  have rule : RelationalProperty.deriveConstraint context expr (.join .inner) =
      .ok (some constraint) := by
    cases type with
    | inner | cross => exact done
    | _ => cases inner
  obtain ⟨left, lefts, leftGiven, leftIs, leftEach, done⟩ := constraintOfGroup_cases knows rule
  obtain ⟨right, rights, rightGiven, rightIs, rightEach, done⟩ := constraintOfGroup_cases knows done
  obtain ⟨condition, implied, given, each, done⟩ := constraintOfPredicate_cases regulated sound done
  refine combined_satisfies regulated sound stored (fun part listed => ?_) done
  rcases List.mem_append.1 listed with inputs | third
  · rcases List.mem_append.1 inputs with first | second
    · exact source left (List.mem_of_getElem? (Expr.child_ok_iff.1 leftGiven)) leftIs part
        (leftEach part first)
    · exact source right (List.mem_of_getElem? (Expr.child_ok_iff.1 rightGiven)) rightIs part
        (rightEach part second)
  · exact predicate 2 condition (Expr.child_ok_iff.1 given) count part (each part third)

theorem naryJoin_satisfies (kind : expr.operator = .logical .naryJoin)
    (done : RelationalProperty.deriveConstraint context expr .naryJoin = .ok (some constraint)) :
    (context.memo.sense I expr.group).Satisfies values constraint := by
  obtain ⟨source, predicate⟩ := joining_satisfies regulated sound stored kind rfl
  obtain ⟨views, read, done⟩ := bind_eq_ok_iff.1 done
  obtain ⟨condition, implied, given, each, done⟩ := constraintOfPredicate_cases regulated sound done
  obtain ⟨before, subtracted, place⟩ := bind_eq_ok_iff.1 given
  have count : expr.children.length = before + 1 := by
    rw [Nat.add_comm]
    exact Count.sub_eq_ok_iff.1 subtracted
  refine combined_satisfies regulated sound stored (fun part listed => ?_) done
  rcases List.mem_append.1 listed with first | second
  · obtain ⟨parts, among, inside⟩ := List.mem_flatten.1 first
    obtain ⟨input, member, known⟩ := (mem_mapM_iff read).1 among
    obtain ⟨relational, each⟩ := constraintOf_cases knows known
    exact source input (List.mem_filter.1 member).1 relational part (each part inside)
  · exact predicate before condition (Expr.child_ok_iff.1 place) count part (each part second)

theorem project_satisfies (kind : expr.operator = .logical .project)
    (done : RelationalProperty.deriveConstraint context expr .project = .ok (some constraint)) :
    (context.memo.sense I expr.group).Satisfies values constraint := by
  obtain ⟨input, list, same, inputIs, listIs, new⟩ := regulated.regular.project stored kind
  obtain ⟨child, parts, given, _, each, done⟩ := constraintOfGroup_cases knows done
  have place := Expr.child_ok_iff.1 given
  rw [same] at place
  obtain rfl : input = child := Option.some.inj place
  have holds := each _ (List.mem_of_head? (pure_eq_ok_iff.1 done))
  rw [sense_group sound stored kind, same]
  refine (shows_projected regulated.standard inputIs listIs fun column involved made => ?_).satisfies
    holds.fits holds.holds
  exact involved.elim (new column made).1 (new column made).2

theorem limit_satisfies {offset count : Nat} (kind : expr.operator = .logical (.limit offset count))
    (done : RelationalProperty.deriveConstraint context expr (.limit offset count) =
      .ok (some constraint)) : (context.memo.sense I expr.group).Satisfies values constraint := by
  obtain ⟨input, same, inputIs⟩ := regulated.regular.limit stored kind
  obtain ⟨child, parts, given, _, each, done⟩ := constraintOfGroup_cases knows done
  have place := Expr.child_ok_iff.1 given
  rw [same] at place
  obtain rfl : input = child := Option.some.inj place
  have holds := each _ (List.mem_of_head? (pure_eq_ok_iff.1 done))
  rw [sense_group sound stored kind, same]
  exact (shows_limited regulated.standard inputIs).satisfies holds.fits holds.holds

/-- What is known of the keys of an aggregation alone stays true of the groups of rows. -/
theorem aggregate_satisfies {keys : List Column} (kind : expr.operator = .logical (.aggregate keys))
    (done : RelationalProperty.deriveConstraint context expr (.aggregate keys) =
      .ok (some constraint)) : (context.memo.sense I expr.group).Satisfies values constraint := by
  obtain ⟨input, list, same, inputIs, listIs, new⟩ := regulated.regular.aggregate stored kind
  obtain ⟨child, parts, given, relational, each, done⟩ := constraintOfGroup_cases knows done
  have place := Expr.child_ok_iff.1 given
  rw [same] at place
  obtain rfl : input = child := Option.some.inj place
  obtain ⟨whole, first, kept⟩ := Option.bind_eq_some_iff.1 (pure_eq_ok_iff.1 done)
  have holds := each _ (List.mem_of_head? first)
  have some : keys ≠ [] := by
    rintro rfl
    have none : Constraint.onColumns? (columnSet []) whole = none :=
      Constraint.onColumns?_empty whole
    rw [none] at kept
    cases kept
  have fits := Constraint.fits_onColumns? whole holds.fits kept
  rw [sense_group sound stored kind, same]
  refine (shows_keys regulated.standard some new).satisfies
    (Constraint.Fits.mono (fun _ both => both.2) constraint fits) fun environment within row member => ?_
  have there : ∀ column, (context.memo.sense I input).scope.Involves column →
      values ((row.above environment).value column) := by
    intro column _
    obtain ⟨group, stands, _⟩ := relational
    exact Row.value_in
      (Row.above_in (regulated.draws.rows (lt_of_group stands) within row member) within)
      regulated.draws.null column
  exact Constraint.holds_onColumns? regulated.ordered there whole holds.fits
    (holds.holds environment within row member) kept

/-- An outer join satisfies what the side satisfies that keeps its rows as they are. -/
theorem outerJoin_satisfies {type : JoinType} (kind : expr.operator = .logical (.join type))
    (outer : type.isInner = false)
    (done : RelationalProperty.deriveConstraint context expr (.join type) = .ok (some constraint)) :
    (context.memo.sense I expr.group).Satisfies values constraint := by
  obtain ⟨left, right, predicate, same, leftIs, rightIs, predicateIs, apart⟩ :=
    regulated.regular.outerJoin stored kind outer
  have means := sense_group sound stored kind
  rw [same] at means
  have keepsLeft (keeps : type = .left ∨ type = .semi ∨ type = .anti)
      (rule : RelationalProperty.deriveConstraint context expr (.join .left) =
        .ok (some constraint)) : (context.memo.sense I expr.group).Satisfies values constraint := by
    obtain ⟨child, parts, given, _, each, done⟩ := constraintOfGroup_cases knows rule
    have place := Expr.child_ok_iff.1 given
    rw [same] at place
    obtain rfl : left = child := Option.some.inj place
    refine combined_satisfies regulated sound stored (fun part listed => ?_) done
    rw [means]
    exact (shows_left regulated.standard leftIs predicateIs apart keeps).satisfies
      (each part listed).fits (each part listed).holds
  cases type with
  | inner | cross => cases outer
  | full => cases pure_eq_ok_iff.1 done
  | left => exact keepsLeft (Or.inl rfl) done
  | semi => exact keepsLeft (Or.inr (Or.inl rfl)) done
  | anti => exact keepsLeft (Or.inr (Or.inr rfl)) done
  | right =>
    obtain ⟨child, parts, given, _, each, done⟩ := constraintOfGroup_cases knows done
    have place := Expr.child_ok_iff.1 given
    rw [same] at place
    obtain rfl : right = child := Option.some.inj place
    refine combined_satisfies regulated sound stored (fun part listed => ?_) done
    rw [means]
    exact (shows_right regulated.standard leftIs rightIs predicateIs apart).satisfies
      (each part listed).fits (each part listed).holds

/-- **What is derived from satisfied constraints** is satisfied. -/
theorem derive_constraint (kind : expr.operator = .logical operator)
    (done : RelationalProperty.deriveConstraint context expr operator = .ok (some constraint)) :
    (context.memo.sense I expr.group).Satisfies values constraint := by
  cases operator with
  | get table columns => cases pure_eq_ok_iff.1 done
  | select => exact select_satisfies regulated sound stored knows kind done
  | project => exact project_satisfies regulated sound stored knows kind done
  | limit offset count => exact limit_satisfies regulated sound stored knows kind done
  | aggregate keys => exact aggregate_satisfies regulated sound stored knows kind done
  | naryJoin => exact naryJoin_satisfies regulated sound stored knows kind done
  | join type =>
    cases inner : type.isInner with
    | true => exact innerJoin_satisfies regulated sound stored knows kind inner done
    | false => exact outerJoin_satisfies regulated sound stored knows kind inner done

end Expression

theorem Regulated.earlier {memo next : Memo} (regulated : Regulated I values next)
    (valid : memo.Valid) (later : next.Valid) (grows : memo.Grows next) :
    Regulated I values memo where
  standard := regulated.standard
  ordered := regulated.ordered
  regular := regulated.regular.earlier valid later grows
  draws := regulated.draws.earlier valid later grows

/-- Growth of the memo changes nothing of what constraints say. -/
theorem constraintClaims_later {memo next : Memo} {id : GroupId} {property : RelationalProperty}
    {value : property.Value} (valid : memo.Valid) (later : next.Valid) (grows : memo.Grows next)
    (inside : id < memo.groups.size) (claims : constraintClaims I values memo id property value) :
    constraintClaims I values next id property value := by
  cases property with
  | constraint =>
    intro constraint same
    rw [grows.sense_eq valid later inside]
    exact claims constraint same
  | _ => trivial

/-- **The rules for the properties** derive constraints that are satisfied. -/
theorem teaches_constraint {memo : Memo} {last : Facts} (regulated : Regulated I values memo) :
    Teaches I (constraintClaims I values) last memo := by
  rintro context id known property value rfl coherent _ _ knows _ done
  cases property with
  | constraint =>
    rintro constraint rfl
    obtain ⟨⟨expr, operator⟩, found, rest⟩ := bind_eq_ok_iff.1 done
    obtain ⟨⟨number, stored⟩, rfl, kind⟩ :=
      firstLogical_cases coherent.sound.toValid (lift_fault_eq_ok_iff.1 found)
    exact derive_constraint regulated coherent.sound stored knows kind rest
  | _ => trivial

end Context

/-! ### Runs -/

/-- **Derived constraints are true.** Regular queries are inserted into an empty memo, and phases run
with any of the rules. In every state that is reached, and over every database with the values that
occur in an order, each row of each member of a relational group satisfies the constraint that is
derived for the group; if it is a contradiction, there is no such row. -/
theorem reached_constraint {I : Interpretation Value} {values : Value → Prop} {queries : List Query}
    {roots : List GroupId} {memo : Memo} {catalog : Catalog} {rules : List Rule} {config : Config}
    {final : Search} (meaning : I.Standard) (ordered : Value.Ordered values)
    (wellFormed : ∀ query ∈ queries, ∃ outside, query.WellFormed outside)
    (regular : ∀ query ∈ queries, query.Regular)
    (inserted : Memo.empty.materializeAll (Query.toProposals queries) = .ok (roots, memo))
    (standard : ∀ rule ∈ rules, rule ∈ Rule.standard)
    (reached : (Search.ofMemo memo catalog rules config).Reached final)
    (draws : final.context.memo.Draws I values) {id : GroupId} {constraint : Constraint}
    {after : Context}
    (read : Context.readRelational id .constraint final.context = .ok (.ok (some constraint), after))
    {environment : Row Value} (known : environment.In values) {member : ExprId} {expr : Expr}
    (stored : final.context.memo.exprs[member]? = some expr) (place : expr.group = id) :
    (∀ row ∈ (final.context.memo.exprSense I expr).rows environment,
      constraint.Holds (row.above environment).value) ∧
    (constraint.isContradiction = true →
      (final.context.memo.exprSense I expr).rows environment = 0) := by
  obtain ⟨coherent, last, regular⟩ :=
    reached_regular (I := I) wellFormed regular inserted standard reached
  have regulated : Context.Regulated I values final.context.memo :=
    ⟨meaning, ordered, regular, draws⟩
  have knows : final.context.Knows (Context.constraintClaims I values) :=
    reached.knows coherent (fun rule member => Rule.standard_faithful rule (standard rule member))
      Context.knows_of_blank regulated
      (fun valid later grows regulated => regulated.earlier valid later grows)
      Context.constraintClaims_later fun _ => Context.teaches_constraint
  have satisfies : (final.context.memo.sense I id).Satisfies values constraint :=
    Context.readRelational_knows (Context.teaches_constraint regulated) rfl last
      (fun _ _ complete => complete) knows read constraint rfl
  subst place
  rw [last.sound.same stored]
  exact ⟨satisfies.holds environment known, satisfies.rows_eq_zero ordered draws.null
    (Context.rows_in regulated last.sound stored known) known⟩

/-! ### An example -/

/-- A comparison of a column with a number. -/
def compareWith (operator : BinaryOp) (column : Column) (number : Int) : Query :=
  .node (.scalar (.binary operator))
    [.node (.scalar (.column column)) [], .node (.scalar (.constant (.int number))) []]

/-- The dear ones among cheap orders with their items. -/
def dearCheapOrders : Query :=
  let price : Column := ⟨1, none, "price"⟩
  let least : Column := ⟨2, none, "least"⟩
  .node (.logical .select)
    [.node (.logical (.join .left))
      [.node (.logical .select)
        [.node (.logical (.get ⟨"shop", "orders"⟩ [price])) [], compareWith .lt price 10],
        .node (.logical (.get ⟨"shop", "items"⟩ [least])) [],
        .node (.scalar (.binary .eq))
          [.node (.scalar (.column price)) [], .node (.scalar (.column least)) []]],
      compareWith .gt price 20]

section Parts

variable {outside : ColumnSet} {operator : BinaryOp} {column : Column} {number : Int}
  {table : Table} {columns : List Column}

theorem get_wellFormed : (Query.node (.logical (.get table columns)) []).WellFormed outside := by
  refine ⟨trivial, ⟨nofun, fun logical same joining => ?_, nofun, nofun⟩⟩
  cases same
  cases joining

theorem get_regular : (Query.node (.logical (.get table columns)) []).Regular :=
  ⟨trivial, ⟨nofun, nofun, nofun, nofun, nofun, nofun, nofun, nofun⟩⟩

theorem reference_wellFormed (known : column.id ∈ outside) :
    (Query.node (.scalar (.column column)) []).WellFormed outside := by
  refine ⟨trivial, ⟨fun other used => ?_, nofun, nofun, nofun⟩⟩
  rw [List.mem_singleton.1 used]
  exact known

theorem reference_regular : (Query.node (.scalar (.column column)) []).Regular :=
  ⟨trivial, ⟨nofun, nofun, nofun, nofun, nofun, nofun, nofun, nofun⟩⟩

theorem compareWith_wellFormed (known : column.id ∈ outside) :
    (compareWith operator column number).WellFormed outside :=
  ⟨⟨reference_wellFormed known, ⟨trivial, ⟨nofun, nofun, nofun, fun _ _ => rfl⟩⟩, trivial⟩,
    ⟨nofun, nofun, nofun, nofun⟩⟩

theorem compareWith_regular : (compareWith operator column number).Regular :=
  ⟨⟨reference_regular, ⟨trivial, ⟨nofun, nofun, nofun, nofun, nofun, nofun, nofun, nofun⟩⟩,
    trivial⟩, ⟨nofun, nofun, nofun, nofun, nofun, nofun, fun _ _ => rfl, nofun⟩⟩

/-- A selection over one relation. -/
theorem select_wellFormed {input predicate : Query}
    (inputProper : input.WellFormed outside) (relation : input.scope.isScalar = false)
    (predicateProper : predicate.WellFormed (Scope.visible outside (.logical .select)
      (Query.scopes [input, predicate]))) (scalar : predicate.scope.isScalar = true)
    (fresh : ∀ column, column ∈ input.scope.columns → ¬ column ∈ outside) :
    (Query.node (.logical .select) [input, predicate]).WellFormed outside := by
  refine ⟨⟨?_, ?_, trivial⟩, ⟨nofun, fun logical _ _ => ?_, nofun, nofun⟩⟩
  · rw [relation]
    exact inputProper
  · rw [scalar]
    exact predicateProper
  · refine ⟨[input.scope], predicate.scope, rfl, ?_, scalar, List.pairwise_singleton _ _, ?_⟩
    · exact fun source member => List.mem_singleton.1 member ▸ relation
    · exact fun source member => List.mem_singleton.1 member ▸ fresh

theorem select_regular {input predicate : Query} (inputRegular : input.Regular)
    (predicateRegular : predicate.Regular) :
    (Query.node (.logical .select) [input, predicate]).Regular :=
  ⟨⟨inputRegular, predicateRegular, trivial⟩,
    ⟨fun _ => rfl, nofun, nofun, nofun, nofun, nofun, nofun, nofun⟩⟩

end Parts

theorem dearCheapOrders_wellFormed : dearCheapOrders.WellFormed .empty := by
  refine select_wellFormed ⟨⟨?_, get_wellFormed, ⟨⟨reference_wellFormed (by decide),
    reference_wellFormed (by decide), trivial⟩, ⟨nofun, nofun, nofun, nofun⟩⟩, trivial⟩,
      ⟨nofun, fun logical same joining => ?_, nofun, nofun⟩⟩ rfl
    (compareWith_wellFormed (by decide)) rfl (by decide)
  · exact select_wellFormed get_wellFormed rfl (compareWith_wellFormed (by decide)) rfl (by decide)
  · cases same
    cases joining

theorem dearCheapOrders_regular : dearCheapOrders.Regular := by
  refine select_regular ⟨⟨select_regular get_regular compareWith_regular, get_regular,
    ⟨⟨reference_regular, reference_regular, trivial⟩,
      ⟨nofun, nofun, nofun, nofun, nofun, nofun, fun _ _ => rfl, nofun⟩⟩, trivial⟩,
    ⟨nofun, fun _ _ => rfl, fun type _ _ => ?_, nofun, nofun, nofun, nofun, nofun⟩⟩
    compareWith_regular
  refine ⟨_, _, _, rfl, rfl, rfl, rfl, ?_⟩
  exact ⟨by decide, by decide, by decide⟩

/-- Exploration below the group of a query: the memo at its start, and its end. -/
def exploredFrom (query : Query) (root : GroupId) : Option (List GroupId × Memo × Search) :=
  (Memo.empty.materializeAll (Query.toProposals [query])).toOption.bind fun start =>
    (Search.explore root (Search.ofMemo start.2 {} Rule.standard {})).toOption.map fun explored =>
      (start.1, start.2, explored.2)

theorem exploredFrom_reached {query : Query} {root : GroupId} {roots : List GroupId} {memo : Memo}
    {final : Search} (run : exploredFrom query root = some (roots, memo, final)) :
    Memo.empty.materializeAll (Query.toProposals [query]) = .ok (roots, memo) ∧
      (Search.ofMemo memo {} Rule.standard {}).Reached final := by
  unfold exploredFrom at run
  obtain ⟨start, inserted, run⟩ := Option.bind_eq_some_iff.1 run
  obtain ⟨⟨outcome, explored⟩, explores, same⟩ := Option.map_eq_some_iff.1 run
  simp only [Prod.mk.injEq] at same
  obtain ⟨rfl, rfl, rfl⟩ := same
  exact ⟨toOption_eq_some_iff.1 inserted,
    Search.Reached.start.phase (toOption_eq_some_iff.1 explores)⟩

/-- A property of a group, where it can be read. -/
def Context.relational? (context : Context) (id : GroupId) (property : RelationalProperty) :
    Option property.Value :=
  (Context.readRelational id property context).toOption.bind fun read => read.1.toOption

theorem Context.relational?_eq_some_iff {context : Context} {id : GroupId}
    {property : RelationalProperty} {value : property.Value} :
    context.relational? id property = some value ↔
      ∃ after, Context.readRelational id property context = .ok (.ok value, after) := by
  simp only [relational?, Option.bind_eq_some_iff, toOption_eq_some_iff, Prod.exists]
  constructor
  · rintro ⟨_, after, read, rfl⟩
    exact ⟨after, read⟩
  · rintro ⟨after, read⟩
    exact ⟨_, after, read, rfl⟩

theorem reached_constraint_dearCheapOrders :
    ∃ memo final constraint after,
      Memo.empty.materializeAll (Query.toProposals [dearCheapOrders]) = .ok ([11], memo) ∧
      (Search.ofMemo memo {} Rule.standard {}).Reached final ∧
      Context.readRelational 11 .constraint final.context = .ok (.ok (some constraint), after) ∧
      constraint.isContradiction = true ∧
      ∀ table : Table → List Column → Bag Value, (∀ (name : Table) (columns : List Column),
        ∀ row ∈ table name columns, row.In fun value => value.isExact = true) →
        ∀ (member : ExprId) (expr : Expr), final.context.memo.exprs[member]? = some expr →
          expr.group = 11 → ∀ environment : Row Value,
            (environment.In fun value => value.isExact = true) →
              (final.context.memo.exprSense (.ofValues table) expr).rows environment = 0 := by
  have results : (exploredFrom dearCheapOrders 11).map (fun run =>
      (run.1, run.2.2.context.memo.exactConstants,
        (run.2.2.context.relational? 11 .constraint).map
          fun found : Option Constraint => found.map Constraint.isContradiction)) =
      some ([11], true, some (some true)) := by
    decide +kernel
  obtain ⟨⟨roots, memo, final⟩, run, shown⟩ := Option.map_eq_some_iff.1 results
  simp only [Prod.mk.injEq] at shown
  obtain ⟨rfl, without, shown⟩ := shown
  obtain ⟨inserted, reached⟩ := exploredFrom_reached run
  obtain ⟨found, given, shown⟩ := Option.map_eq_some_iff.1 shown
  obtain ⟨constraint, rfl, contradicts⟩ := Option.map_eq_some_iff.1 shown
  obtain ⟨after, read⟩ := Context.relational?_eq_some_iff.1 given
  refine ⟨memo, final, constraint, after, inserted, reached, read, contradicts, ?_⟩
  intro table tables member expr stored place environment known
  have wellFormed : ∀ query ∈ [dearCheapOrders], ∃ outside, query.WellFormed outside := by
    intro query listed
    rw [List.mem_singleton.1 listed]
    exact ⟨_, dearCheapOrders_wellFormed⟩
  have regular : ∀ query ∈ [dearCheapOrders], query.Regular := by
    intro query listed
    rw [List.mem_singleton.1 listed]
    exact dearCheapOrders_regular
  obtain ⟨_, coherent, _⟩ := reached_regular (I := .ofValues table) wellFormed regular inserted
    (fun _ => id) reached
  have closed : (Interpretation.ofValues table).Closed fun value => value.isExact = true :=
    ofValues_closed rfl tables
  have draws : final.context.memo.Draws (.ofValues table) fun value => value.isExact = true :=
    closed.draws coherent.sound.toValid rfl (Memo.isExact_of_exactConstants without)
  exact (reached_constraint ofValues_standard Value.ordered_exact wellFormed regular inserted
    (fun _ => id) reached draws read known stored place).2 contradicts

end Cascades
