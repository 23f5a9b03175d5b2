/-
**Constraints of predicates hold where the predicates do.**

The constraint that is read off a predicate holds for the values of the columns wherever the predicate
is true. Nothing is said of the rows on which it is false or unknown.

* `Interpretation.holds_or`, `holds_comparison`: when the standard predicates are true;
* `Memo.Legible`: memos in which predicates can be read;
* `Memo.Compares`: a column beside a constant; `Compares.ofComparison?`: the interval of a comparison;
* `Constraint.Read`: what is read off an operator; `read_induction`: and off a whole predicate;
* `Sense.Implies`: a predicate implies a constraint;
* `Constraint.ofPredicate?_implied`: it implies the one that is read off it.
-/

import Cascades.Proofs.Meaning.Regular
import Cascades.Proofs.Meaning.Values

namespace Cascades

open Memo Interpretation

/-! ### Scalars over inputs -/

theorem Sense.valueIn_congr {sense : Sense Value} {environment other : Row Value}
    (same : ∀ column, column ∈ sense.scope.free → environment column = other column) :
    sense.valueIn environment = sense.valueIn other := by
  unfold valueIn
  rw [sense.value_congr same]

namespace Interpretation

variable {I : Interpretation Value} {environment : Row Value} {inputs : List (Sense Value)}

/-- The inputs of a scalar have their values in the columns that the scalar uses. -/
theorem valueIn_input {operator : ScalarOp} {input : Sense Value} (member : input ∈ inputs) :
    input.valueIn (environment.restrict (Scope.ofScalar operator (inputs.map Sense.scope)).free) =
      input.valueIn environment := by
  refine Sense.valueIn_congr fun column used => ?_
  have inside : column ∈ (Scope.ofScalar operator (inputs.map Sense.scope)).free :=
    Scope.mem_free_ofScalar.2 (Or.inr ⟨_, List.mem_map.2 ⟨input, member, rfl⟩, used⟩)
  exact if_pos inside

variable (standard : I.Standard)
include standard

theorem Standard.holds_iff {predicate : Sense Value} :
    I.Holds predicate environment ↔ predicate.valueIn environment = .bool true := by
  unfold Holds Sense.valueIn
  cases predicate.value environment with
  | none => simp
  | some value => simp [standard.isTrue_iff]

/-- A disjunction is true where one of its operands is. -/
theorem Standard.holds_or : I.Holds (I.sense (.scalar .or) inputs) environment ↔
    ∃ input ∈ inputs, I.Holds input environment := by
  rw [standard.holds_iff]
  show I.scalar .or inputs _ = _ ↔ _
  rw [standard.disjunction, Value.disjoin_eq_true_iff]
  constructor
  · rintro ⟨value, listed, rfl⟩
    obtain ⟨input, member, same⟩ := List.mem_map.1 listed
    rw [valueIn_input member] at same
    exact ⟨input, member, standard.holds_iff.2 same⟩
  · rintro ⟨input, member, holds⟩
    refine ⟨_, List.mem_map.2 ⟨input, member, ?_⟩, rfl⟩
    rw [valueIn_input member]
    exact standard.holds_iff.1 holds

/-- A comparison is true where its operands compare and the result is accepted. -/
theorem Standard.holds_comparison {operator : BinaryOp} (comparing : operator.isComparison = true)
    {left right : Sense Value} :
    I.Holds (I.sense (.scalar (.binary operator)) [left, right]) environment ↔
      ∃ found, Value.compare? (left.valueIn environment) (right.valueIn environment) = some found ∧
        operator.accepts found = true := by
  rw [standard.holds_iff]
  show I.scalar (.binary operator) [left, right] _ = _ ↔ _
  rw [standard.comparison comparing, valueIn_input List.mem_cons_self,
    valueIn_input (List.mem_cons_of_mem _ List.mem_cons_self), Value.compared_eq_true_iff]

theorem Standard.holds_isNull {operand : Sense Value} :
    I.Holds (I.sense (.scalar (.unary .isNull)) [operand]) environment ↔
      (operand.valueIn environment).isNull = true := by
  rw [standard.holds_iff]
  show I.scalar (.unary .isNull) [operand] _ = _ ↔ _
  rw [standard.isNull, valueIn_input List.mem_cons_self]
  simp

theorem Standard.holds_isNotNull {operand : Sense Value} :
    I.Holds (I.sense (.scalar (.unary .isNotNull)) [operand]) environment ↔
      (operand.valueIn environment).isNull = false := by
  rw [standard.holds_iff]
  show I.scalar (.unary .isNotNull) [operand] _ = _ ↔ _
  rw [standard.isNotNull, valueIn_input List.mem_cons_self]
  simp

end Interpretation

/-! ### Leaves of predicates -/

namespace Memo

variable {I : Interpretation Value} {memo : Memo} {id : GroupId}

theorem column?_cases {column : Column} (found : memo.column? id = some column) :
    ∃ children, memo.scalarFirst? id = some (.column column, children) := by
  unfold column? scalarOp? at found
  split at found
  · rename_i operator first
    obtain ⟨⟨kind, children⟩, first, rfl⟩ := Option.map_eq_some_iff.1 first
    cases found
    exact ⟨children, first⟩
  · cases found

theorem constant?_cases {value : Value} (found : memo.constant? id = some value) :
    ∃ children, memo.scalarFirst? id = some (.constant value, children) := by
  unfold constant? scalarOp? at found
  split at found
  · rename_i operator first
    obtain ⟨⟨kind, children⟩, first, rfl⟩ := Option.map_eq_some_iff.1 first
    cases found
    exact ⟨children, first⟩
  · cases found

/-- A column that is read is no constant. -/
theorem column?_of_constant? {value : Value} (found : memo.constant? id = some value) :
    memo.column? id = none := by
  obtain ⟨children, first⟩ := constant?_cases found
  simp [column?, scalarOp?, first]

/-- **A memo in which predicates can be read**: comparisons and tests have their operands, and constants
are among some values, as null is. -/
structure Legible (values : Value → Prop) (memo : Memo) : Prop extends memo.Valid where
  null : values .null
  constants : ∀ {id : ExprId} {expr : Expr} {value : Value}, memo.exprs[id]? = some expr →
    expr.operator = .scalar (.constant value) → values value
  binaries : ∀ {id : ExprId} {expr : Expr} {operator : BinaryOp}, memo.exprs[id]? = some expr →
    expr.operator = .scalar (.binary operator) → expr.children.length = 2
  unaries : ∀ {id : ExprId} {expr : Expr} {operator : UnaryOp}, memo.exprs[id]? = some expr →
    expr.operator = .scalar (.unary operator) → expr.children.length = 1

theorem Legible.of_regular {values : Value → Prop} (valid : memo.Valid) (draws : memo.Draws I values)
    (regular : memo.Regular I) : memo.Legible values where
  toValid := valid
  null := draws.null
  constants := draws.constants
  binaries stored kind := by simpa using (regular.expr stored).binaries _ kind
  unaries stored kind := by simpa using (regular.expr stored).unaries _ kind

theorem Legible.of_laid {values : Value → Prop} (valid : memo.Valid) (laid : memo.Laid)
    (null : values .null)
    (constants : ∀ {id : ExprId} {expr : Expr} {value : Value}, memo.exprs[id]? = some expr →
      expr.operator = .scalar (.constant value) → values value) : memo.Legible values where
  toValid := valid
  null := null
  constants := constants
  binaries stored kind := by
    obtain ⟨left, right, shown, _⟩ := laid.binary stored kind
    rw [shown]
    rfl
  unaries stored kind := by
    obtain ⟨operand, shown, _⟩ := laid.unary stored kind
    rw [shown]
    rfl

section Operands

variable {values : Value → Prop} (legible : memo.Legible values) {expr : Expr} {number : ExprId}
  (stored : memo.exprs[number]? = some expr)
include legible stored

/-- The only operand of a test. -/
theorem Legible.children_of_test {operator : UnaryOp} {operand : GroupId}
    (kind : expr.operator = .scalar (.unary operator)) (given : expr.children[0]? = some operand) :
    expr.children = [operand] := by
  obtain ⟨only, same⟩ := List.length_eq_one_iff.1 (legible.unaries stored kind)
  rw [same] at given
  rw [same, Option.some.inj given]

/-- The operands of a comparison. -/
theorem Legible.children_of_comparison {operator : BinaryOp} {left right : GroupId}
    (kind : expr.operator = .scalar (.binary operator)) (one : expr.children[0]? = some left)
    (two : expr.children[1]? = some right) : expr.children = [left, right] := by
  obtain ⟨first, second, same⟩ := List.length_eq_two.1 (legible.binaries stored kind)
  rw [same] at one two
  rw [same, Option.some.inj one, Option.some.inj two]

end Operands

theorem Legible.constant? {values : Value → Prop} (legible : memo.Legible values) {value : Value}
    (found : memo.constant? id = some value) : values value := by
  obtain ⟨children, first⟩ := constant?_cases found
  obtain ⟨expr, there, kind, _⟩ := scalarFirst?_cases first
  obtain ⟨_, _, _, _, stored⟩ := firstMember_ok_iff.1 there
  exact legible.constants stored kind

variable (standard : I.Standard) (linked : memo.Linked)
include standard linked

/-- A column reference uses its column and has its value. -/
theorem Linked.valueIn_column {column : Column} (found : memo.column? id = some column) :
    column.id ∈ (memo.sense I id).scope.free ∧ ∀ environment,
      (memo.sense I id).valueIn environment = environment.value column.id := by
  obtain ⟨children, first⟩ := column?_cases found
  have used : column.id ∈ (I.sense (.scalar (.column column))
      (children.map (memo.sense I))).scope.free :=
    Scope.mem_free_ofScalar.2 (Or.inl (List.mem_singleton.2 rfl))
  rw [linked.sense_of_scalarFirst? first]
  refine ⟨used, fun environment => ?_⟩
  show I.scalar (.column column) _ (environment.restrict _) = _
  rw [standard.column]
  exact Row.value_restrict used

/-- A constant has a value that is equal to it. -/
theorem Linked.valueIn_constant {value : Value} (found : memo.constant? id = some value)
    (environment : Row Value) :
    ((memo.sense I id).valueIn environment).same value = true := by
  obtain ⟨children, first⟩ := constant?_cases found
  rw [linked.sense_of_scalarFirst? first]
  exact standard.constant

end Memo

/-! ### Comparisons -/

namespace Value

variable {values : Value → Prop} {first second : Value} {found : Ordering}

/-- Values that compare also compare the other way round. -/
theorem compare?_swap (ordered : Ordered values) (one : values first) (two : values second)
    (compared : compare? first second = some found) : compare? second first = some found.swap := by
  have back : ∃ other, compare? second first = some other := by
    cases first <;> cases second <;> cases compared <;> exact ⟨_, rfl⟩
  obtain ⟨other, back⟩ := back
  have same := ordered.swap one two
  rw [order_of_compare? compared, order_of_compare? back] at same
  rw [back, same]

/-- An equal value in the second place compares alike. -/
theorem compare?_congr_left {third : Value} (same : first.same second = true) :
    compare? first third = compare? second third := by
  cases first <;> cases second <;> cases third <;>
    simp_all [Value.same, compare?, Double.order]

end Value

/-- With its operands exchanged, a comparison accepts the opposite result. -/
theorem BinaryOp.accepts_commute? {operator other : BinaryOp} (exchanged : operator.commute? = some other)
    (found : Ordering) : other.accepts found.swap = operator.accepts found := by
  cases operator <;> cases exchanged <;> cases found <;> rfl

theorem BinaryOp.exists_commute? {operator : BinaryOp} (comparing : operator.isComparison = true) :
    ∃ other, operator.commute? = some other := by
  cases operator <;> cases comparing <;> exact ⟨_, rfl⟩

theorem BinaryOp.isComparison_commute? {operator other : BinaryOp}
    (exchanged : operator.commute? = some other) (comparing : operator.isComparison = true) :
    other.isComparison = true := by
  cases operator <;> cases exchanged <;> first | rfl | cases comparing

namespace Memo

/-- **A column beside a constant**, either way round. -/
inductive Compares (memo : Memo) (left right : GroupId) : ColumnId → Value → Prop
  | columnFirst {column : Column} {value : Value} (reads : memo.column? left = some column)
      (holds : memo.constant? right = some value) : Compares memo left right column.id value
  | constantFirst {column : Column} {value : Value} (holds : memo.constant? left = some value)
      (reads : memo.column? right = some column) : Compares memo left right column.id value

namespace Compares

variable {memo : Memo} {left right : GroupId} {operator : BinaryOp} {column : ColumnId} {value : Value}

/-- Where a comparison gives a constraint, it compares a column with a constant. -/
theorem of_ofComparison? {constraint : Constraint}
    (given : Constraint.ofComparison? memo operator left right = some constraint) :
    ∃ column value, memo.Compares left right column value := by
  unfold Constraint.ofComparison? at given
  split at given
  · rename_i reads holds
    exact ⟨_, _, .columnFirst reads holds⟩
  · split at given
    · rename_i holds reads _
      exact ⟨_, _, .constantFirst holds reads⟩
    · cases given

variable {I : Interpretation Value} {values : Value → Prop} {id : GroupId}

/-- **The interval of a comparison** of a column with a constant, either way round: the comparison is true
where the value of the column compares with the constant as the interval has it. -/
theorem ofComparison? (standard : I.Standard) (ordered : Value.Ordered values)
    (legible : memo.Legible values) (comparing : operator.isComparison = true)
    (means : memo.sense I id = I.sense (.scalar (.binary operator))
      ([left, right].map (memo.sense I))) (compares : memo.Compares left right column value) :
    ∃ other range, Constraint.ofComparison? memo operator left right = some (.interval range) ∧
      Interval.ofComparison? column other value = some range ∧ values value ∧
      column ∈ (memo.sense I id).scope.free ∧
      ∀ environment, environment.In values → (I.Holds (memo.sense I id) environment ↔
        ∃ found, Value.compare? (environment.value column) value = some found ∧
          other.accepts found = true) := by
  have used : ∀ operand ∈ [left, right], ∀ column ∈ (memo.sense I operand).scope.free,
      column ∈ (memo.sense I id).scope.free := by
    intro operand member column inside
    rw [means]
    exact Scope.mem_free_ofScalar.2 (Or.inr ⟨_, List.mem_map.2 ⟨_, List.mem_map_of_mem member, rfl⟩,
      inside⟩)
  cases compares with
  | columnFirst reads holds =>
    rename_i column
    obtain ⟨range, shape⟩ := Interval.exists_ofComparison? column.id value comparing
    obtain ⟨inside, value⟩ := legible.valueIn_column standard reads
    refine ⟨operator, range, ?_, shape, legible.constant? holds, used left (by simp) _ inside,
      fun environment known => ?_⟩
    · simp only [Constraint.ofComparison?, reads, holds, shape, Option.map_some]
    · rw [means]
      refine (standard.holds_comparison comparing).trans ?_
      rw [value, Value.compare?_congr (legible.valueIn_constant standard holds _)]
  | constantFirst holds reads =>
    rename_i column
    obtain ⟨other, exchanged⟩ := BinaryOp.exists_commute? comparing
    obtain ⟨range, shape⟩ := Interval.exists_ofComparison? column.id value
      (BinaryOp.isComparison_commute? exchanged comparing)
    obtain ⟨inside, reading⟩ := legible.valueIn_column standard reads
    have bound := legible.constant? holds
    refine ⟨other, range, ?_, shape, bound, used right (by simp) _ inside,
      fun environment known => ?_⟩
    · simp only [Constraint.ofComparison?, column?_of_constant? holds, holds, reads, exchanged, shape,
        Option.map_some]
    · have there : values (environment.value column.id) := Row.value_in known legible.null column.id
      rw [means]
      refine (standard.holds_comparison comparing).trans ?_
      rw [reading, Value.compare?_congr_left (legible.valueIn_constant standard holds _)]
      constructor
      · rintro ⟨found, compared, accepted⟩
        exact ⟨found.swap, Value.compare?_swap ordered bound there compared,
          (BinaryOp.accepts_commute? exchanged found).trans accepted⟩
      · rintro ⟨found, compared, accepted⟩
        refine ⟨found.swap, Value.compare?_swap ordered there bound compared, ?_⟩
        rw [← BinaryOp.accepts_commute? exchanged, Ordering.swap_swap]
        exact accepted

end Compares

end Memo

/-! ### Reading a predicate -/

/-- Steps that all have to give a result give one each. -/
theorem mapM_of_mapM_option {ε α β : Type} {step : α → Except ε (Option β)} {values : List α}
    {results : List β}
    (done : (values.mapM fun value => OptionT.mk (step value)).run = .ok (some results)) :
    values.mapM step = .ok (results.map some) := by
  induction values generalizing results with
  | nil =>
    cases done
    rfl
  | cons value rest ih =>
    rw [List.mapM_cons, OptionT.run_bind] at done
    obtain ⟨first, one, done⟩ := bind_eq_ok_iff.1 done
    cases first with
    | none => cases done
    | some result =>
      rw [Option.elim_some, OptionT.run_bind] at done
      obtain ⟨others, more, done⟩ := bind_eq_ok_iff.1 done
      cases others with
      | none => cases done
      | some others =>
        cases done
        rw [List.mapM_cons]
        exact bind_eq_ok_iff.2 ⟨_, one, bind_eq_ok_iff.2 ⟨_, ih more, rfl⟩⟩

/-- Where not all steps give a result, one gives none. -/
theorem exists_none_of_mapM_option {ε α β : Type} {step : α → Except ε (Option β)} {values : List α}
    (done : (values.mapM fun value => OptionT.mk (step value)).run = .ok none) :
    ∃ value ∈ values, step value = .ok none := by
  induction values with
  | nil => cases done
  | cons value rest ih =>
    rw [List.mapM_cons, OptionT.run_bind] at done
    obtain ⟨first, one, done⟩ := bind_eq_ok_iff.1 done
    cases first with
    | none => exact ⟨value, List.mem_cons_self, one⟩
    | some result =>
      rw [Option.elim_some, OptionT.run_bind] at done
      obtain ⟨others, more, done⟩ := bind_eq_ok_iff.1 done
      cases others with
      | none =>
        obtain ⟨other, member, nothing⟩ := ih more
        exact ⟨other, List.mem_cons_of_mem value member, nothing⟩
      | some others => cases done

/-- Whether an operator is one for which a constraint can be read: a comparison, a test for null, a
conjunction or a disjunction. -/
def Operator.isRead : Operator → Bool
  | .scalar (.binary operator) => operator.isComparison
  | .scalar (.unary .isNull) | .scalar (.unary .isNotNull) | .scalar .and | .scalar .or => true
  | _ => false

namespace Constraint

/-- **What is read off an operator** over some operands, from what is read off these. -/
inductive Read (memo : Memo) (read : GroupId → Except Failure (Option Constraint))
    (children : List GroupId) : Operator → Option Constraint → Prop
  | comparison {operator : BinaryOp} {left right : GroupId} (comparing : operator.isComparison = true)
      (one : children[0]? = some left) (two : children[1]? = some right) :
      Read memo read children (.scalar (.binary operator)) (ofComparison? memo operator left right)
  | isNull {operand : GroupId} (given : children[0]? = some operand) :
      Read memo read children (.scalar (.unary .isNull))
        ((memo.column? operand).map fun column => interval (.nullOnly column.id))
  | isNotNull {operand : GroupId} (given : children[0]? = some operand) :
      Read memo read children (.scalar (.unary .isNotNull))
        ((memo.column? operand).map fun column => interval (.notNull column.id))
  | conjunction {views : List (Option Constraint)} (each : children.mapM read = .ok views) :
      Read memo read children (.scalar .and) (all? (views.filterMap id))
  | disjunction {parts : List Constraint} (each : children.mapM read = .ok (parts.map some)) :
      Read memo read children (.scalar .or) (any? parts)
  | unknown {child : GroupId} (member : child ∈ children) (nothing : read child = .ok none) :
      Read memo read children (.scalar .or) none
  | other {operator : Operator} (unread : operator.isRead = false) :
      Read memo read children operator none

/-- Whatever is read off a predicate is read off the operator of its first member. -/
theorem exists_read {memo : Memo} {guard : Guard} {room : Nat} {group : GroupId}
    {result : Option Constraint} (done : ofPredicateWithin memo guard room group = .ok result) :
    ∃ below first, room = below + 1 ∧ memo.firstMember group = .ok first ∧
      Read memo (ofPredicateWithin memo guard below) first.children first.operator result := by
  cases room with
  | zero => cases done
  | succ room =>
    unfold ofPredicateWithin at done
    split at done
    · cases done
    obtain ⟨first, found, done⟩ := bind_eq_ok_iff.1 done
    refine ⟨room, first, rfl, lift_fault_eq_ok_iff.1 found, ?_⟩
    have child : ∀ {position : Nat} {operand : GroupId},
        (liftM (first.child position) : Except Failure GroupId) = .ok operand →
          first.children[position]? = some operand := fun given =>
      Expr.child_ok_iff.1 (lift_fault_eq_ok_iff.1 given)
    split at done
    · rename_i operator kind
      rw [kind]
      by_cases comparing : operator.isComparison = true
      · rw [if_pos comparing] at done
        obtain ⟨left, one, done⟩ := bind_eq_ok_iff.1 done
        obtain ⟨right, two, done⟩ := bind_eq_ok_iff.1 done
        exact pure_eq_ok_iff.1 done ▸ .comparison comparing (child one) (child two)
      · rw [if_neg comparing] at done
        exact pure_eq_ok_iff.1 done ▸ .other (Bool.eq_false_iff.2 comparing)
    · rename_i kind
      obtain ⟨operand, given, done⟩ := bind_eq_ok_iff.1 done
      rw [kind]
      exact pure_eq_ok_iff.1 done ▸ .isNull (child given)
    · rename_i kind
      obtain ⟨operand, given, done⟩ := bind_eq_ok_iff.1 done
      rw [kind]
      exact pure_eq_ok_iff.1 done ▸ .isNotNull (child given)
    · rename_i kind
      obtain ⟨views, each, done⟩ := bind_eq_ok_iff.1 done
      rw [kind]
      exact pure_eq_ok_iff.1 done ▸ .conjunction each
    · rename_i kind
      obtain ⟨views, each, done⟩ := bind_eq_ok_iff.1 done
      rw [kind, ← pure_eq_ok_iff.1 done]
      cases views with
      | none =>
        obtain ⟨child, member, nothing⟩ := exists_none_of_mapM_option each
        exact .unknown member nothing
      | some parts => exact .disjunction (mapM_of_mapM_option each)
    · rename_i notBinary notNull notNotNull notAnd notOr
      refine pure_eq_ok_iff.1 done ▸ .other ?_
      unfold Operator.isRead
      split
      · rename_i kind
        exact absurd kind (notBinary _)
      · exact absurd ‹_› notNull
      · exact absurd ‹_› notNotNull
      · exact absurd ‹_› notAnd
      · exact absurd ‹_› notOr
      · rfl

/-- What holds of all that is read off a predicate if it holds of all that is read off its operands. -/
theorem read_induction {memo : Memo} {guard : Guard} (known : GroupId → Option Constraint → Prop)
    (step : ∀ {read : GroupId → Except Failure (Option Constraint)} {group : GroupId} {first : Expr}
      {result : Option Constraint}, memo.firstMember group = .ok first →
        (∀ {child view}, read child = .ok view → known child view) →
          Read memo read first.children first.operator result → known group result)
    (room : Nat) : ∀ {group : GroupId} {result : Option Constraint},
      ofPredicateWithin memo guard room group = .ok result → known group result := by
  induction room with
  | zero => exact nofun
  | succ room ih =>
    intro group result done
    obtain ⟨below, first, same, found, read⟩ := exists_read done
    obtain rfl := Nat.succ.inj same
    exact step found ih read

end Constraint

/-! ### Implied constraints -/

/-- A predicate implies a constraint on columns that it uses, with bounds among some values. -/
structure Sense.Implies (I : Interpretation Value) (values : Value → Prop) (predicate : Sense Value)
    (constraint : Constraint) : Prop where
  fits : constraint.Fits values fun column => column ∈ predicate.scope.free
  holds : ∀ environment, environment.In values → I.Holds predicate environment →
    constraint.Holds environment.value

namespace Constraint

variable {I : Interpretation Value} {values : Value → Prop} {memo : Memo} {id : GroupId}

/-- A constraint that an operand implies, on the columns of the whole predicate. -/
theorem fits_operand {operator : ScalarOp} {children : List GroupId} {child : GroupId}
    (means : memo.sense I id = I.sense (.scalar operator) (children.map (memo.sense I)))
    (member : child ∈ children) {constraint : Constraint}
    (fits : constraint.Fits values fun column => column ∈ (memo.sense I child).scope.free) :
    constraint.Fits values fun column => column ∈ (memo.sense I id).scope.free := by
  refine Fits.mono (fun column used => ?_) constraint fits
  rw [means]
  refine Scope.mem_free_ofScalar.2 (Or.inr ⟨(memo.sense I child).scope, ?_, used⟩)
  exact List.mem_map.2 ⟨_, List.mem_map.2 ⟨child, member, rfl⟩, rfl⟩

variable (standard : I.Standard) (ordered : Value.Ordered values) (legible : memo.Legible values)
include standard ordered legible

/-- **The constraint of a comparison** is implied by it. -/
theorem ofComparison?_implied {operator : BinaryOp} (comparing : operator.isComparison = true)
    {left right : GroupId}
    (means : memo.sense I id = I.sense (.scalar (.binary operator))
      ([left, right].map (memo.sense I))) {constraint : Constraint}
    (given : ofComparison? memo operator left right = some constraint) :
    (memo.sense I id).Implies I values constraint := by
  obtain ⟨column, value, compares⟩ := Compares.of_ofComparison? given
  obtain ⟨other, range, again, shape, bound, used, holds⟩ :=
    compares.ofComparison? standard ordered legible comparing means
  rw [given] at again
  cases again
  refine ⟨fits_interval.2 (Interval.fits_ofComparison? used bound shape), ?_⟩
  intro environment known isTrue
  rw [holds_interval, Interval.column_ofComparison? shape]
  exact (Interval.allows_ofComparison? ordered (Row.value_in known legible.null column) bound
    shape).1 ((holds environment known).1 isTrue)

/-- A test for null is true where the interval of null alone holds. -/
theorem holds_isNull_iff {operand : GroupId} {column : Column}
    (means : memo.sense I id = I.sense (.scalar (.unary .isNull)) ([operand].map (memo.sense I)))
    (reads : memo.column? operand = some column) {environment : Row Value}
    (known : environment.In values) : I.Holds (memo.sense I id) environment ↔
      (interval (.nullOnly column.id)).Holds environment.value := by
  rw [means]
  refine standard.holds_isNull.trans ?_
  rw [(legible.valueIn_column standard reads).2, holds_interval]
  exact (Interval.allows_nullOnly ordered (Row.value_in known legible.null column.id)).symm

/-- A test for a value is true where the interval of all values holds. -/
theorem holds_isNotNull_iff {operand : GroupId} {column : Column}
    (means : memo.sense I id = I.sense (.scalar (.unary .isNotNull)) ([operand].map (memo.sense I)))
    (reads : memo.column? operand = some column) {environment : Row Value}
    (known : environment.In values) : I.Holds (memo.sense I id) environment ↔
      (interval (.notNull column.id)).Holds environment.value := by
  rw [means]
  refine standard.holds_isNotNull.trans ?_
  rw [(legible.valueIn_column standard reads).2, holds_interval]
  exact (Interval.allows_notNull ordered (Row.value_in known legible.null column.id)).symm

omit standard in
/-- A conjunction implies all that its operands imply. -/
theorem conjunction_implied {children : List GroupId} {parts : List Constraint}
    (means : memo.sense I id = I.sense (.scalar .and) (children.map (memo.sense I)))
    (each : ∀ part ∈ parts, ∃ child ∈ children, (memo.sense I child).Implies I values part)
    {constraint : Constraint} (given : all? parts = some constraint) :
    (memo.sense I id).Implies I values constraint := by
  have fits : ∀ part ∈ parts,
      part.Fits values fun column => column ∈ (memo.sense I id).scope.free := by
    intro part member
    obtain ⟨child, among, implies⟩ := each part member
    exact fits_operand means among implies.fits
  refine ⟨fits_all? fits given, fun environment known holds => ?_⟩
  rw [means, holds_and] at holds
  refine (holds_all? ordered (fun column _ => Row.value_in known legible.null column) fits given).2 ?_
  intro part member
  obtain ⟨child, among, implies⟩ := each part member
  exact implies.holds environment known (holds _ (List.mem_map.2 ⟨child, among, rfl⟩))

/-- A disjunction implies that one of the constraints holds that its operands imply. -/
theorem disjunction_implied {children : List GroupId} {parts : List Constraint}
    (means : memo.sense I id = I.sense (.scalar .or) (children.map (memo.sense I)))
    (each : ∀ part ∈ parts, ∃ child ∈ children, (memo.sense I child).Implies I values part)
    (every : ∀ child ∈ children, ∃ part ∈ parts, (memo.sense I child).Implies I values part)
    {constraint : Constraint} (given : any? parts = some constraint) :
    (memo.sense I id).Implies I values constraint := by
  have fits : ∀ part ∈ parts,
      part.Fits values fun column => column ∈ (memo.sense I id).scope.free := by
    intro part member
    obtain ⟨child, among, implies⟩ := each part member
    exact fits_operand means among implies.fits
  refine ⟨fits_any? fits given, fun environment known holds => ?_⟩
  rw [means, standard.holds_or] at holds
  refine (holds_any? ordered (fun column _ => Row.value_in known legible.null column) fits given).2 ?_
  obtain ⟨_, listed, holds⟩ := holds
  obtain ⟨child, among, rfl⟩ := List.mem_map.1 listed
  obtain ⟨part, member, implies⟩ := every child among
  exact ⟨part, member, implies.holds environment known holds⟩

/-- What is read off an operator is implied if what is read off its operands is. -/
theorem Read.implied {read : GroupId → Except Failure (Option Constraint)} {first : Expr}
    {constraint : Constraint} (found : memo.firstMember id = .ok first)
    (each : ∀ {child view}, read child = .ok view → ∀ part, view = some part →
      (memo.sense I child).Implies I values part)
    (given : Read memo read first.children first.operator (some constraint)) :
    (memo.sense I id).Implies I values constraint := by
  obtain ⟨_, number, _, _, stored⟩ := firstMember_ok_iff.1 found
  have means : memo.sense I id = I.sense first.operator (first.children.map (memo.sense I)) :=
    legible.sense_eq found
  generalize kind : first.operator = operator at given means
  generalize shown : some constraint = result at given
  cases given with
  | comparison comparing one two =>
    rw [legible.children_of_comparison stored kind one two] at means
    exact ofComparison?_implied standard ordered legible comparing means shown.symm
  | isNull given =>
    obtain ⟨column, reads, rfl⟩ := Option.map_eq_some_iff.1 shown.symm
    rw [legible.children_of_test stored kind given] at means
    refine ⟨fits_operand means List.mem_cons_self (fits_interval.2 (Interval.fits_ofRanges
      (legible.valueIn_column standard reads).1 (by simp))), fun environment known => ?_⟩
    exact (holds_isNull_iff standard ordered legible means reads known).1
  | isNotNull given =>
    obtain ⟨column, reads, rfl⟩ := Option.map_eq_some_iff.1 shown.symm
    rw [legible.children_of_test stored kind given] at means
    refine ⟨fits_operand means List.mem_cons_self (fits_interval.2 (Interval.fits_ofRanges
      (legible.valueIn_column standard reads).1 (by simp [Range.in_unbounded]))),
      fun environment known => ?_⟩
    exact (holds_isNotNull_iff standard ordered legible means reads known).1
  | conjunction read =>
    refine conjunction_implied ordered legible means (fun part member => ?_) shown.symm
    obtain ⟨child, among, same⟩ := (mem_mapM_iff read).1 (by simpa using member)
    exact ⟨child, among, each same part rfl⟩
  | disjunction read =>
    refine disjunction_implied standard ordered legible means (fun part member => ?_)
      (fun child among => ?_) shown.symm
    · obtain ⟨child, among, same⟩ := (mem_mapM_iff read).1 (List.mem_map.2 ⟨part, member, rfl⟩)
      exact ⟨child, among, each same part rfl⟩
    · obtain ⟨_, listed, same⟩ := exists_mem_of_mapM read among
      obtain ⟨part, member, rfl⟩ := List.mem_map.1 listed
      exact ⟨part, member, each same part rfl⟩
  | unknown => cases shown
  | other => cases shown

/-- The constraint is implied however deep the predicate is. -/
theorem ofPredicateWithin_implied {guard : Guard} {room : Nat} {constraint : Constraint}
    (done : ofPredicateWithin memo guard room id = .ok (some constraint)) :
    (memo.sense I id).Implies I values constraint :=
  read_induction (fun group result => ∀ part, result = some part →
      (memo.sense I group).Implies I values part)
    (fun found each read _ same => Read.implied standard ordered legible found each (same ▸ read))
    room done constraint rfl

/-- **The constraint of a predicate** is implied by it. -/
theorem ofPredicate?_implied {guard : Guard} {constraint : Constraint}
    (done : ofPredicate? memo guard id = .ok (some constraint)) :
    (memo.sense I id).Implies I values constraint :=
  ofPredicateWithin_implied standard ordered legible done

end Constraint

end Cascades
