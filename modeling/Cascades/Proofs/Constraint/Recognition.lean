/-
**Recognised predicates say no more than their constraints.**

A predicate is recognised where each leaf below its conjunctions and disjunctions compares a column with a
constant or tests a column for null, and no disjunction is empty. Then nothing is left out of its
constraint: on a row whose values can be compared with the constants that they meet, the predicate is true
wherever its constraint holds, and wherever there is none. So the constraint of a recognised predicate is
exact, and that of any other predicate is implied.

* `Memo.Recognised`: predicates of which nothing is left out;
* `built_ofPredicateWithin`: what is read off a predicate is built from intervals, so no disjunction of
  it is empty;
* `holds_of_comparison`, `holds_of_conjunction` and others: each form of a predicate is true where its
  constraint holds; `Recognised.holds`: so is a recognised predicate;
* `ofPredicate?_exact`: the constraint of a predicate is implied by it, and exact if it is recognised.
-/

import Cascades.Proofs.Constraint.Building
import Cascades.Proofs.Constraint.Predicate
import Cascades.Proofs.Memo.Formed
import Cascades.Proofs.Property.Completion

namespace Cascades

open Memo Interpretation

/-! ### Recognised predicates -/

/-- **Recognised predicates**: conjunctions and disjunctions of comparisons between a column and a constant
that meet it, and of tests of columns for null. No disjunction is empty. -/
inductive Memo.Recognised (memo : Memo) (meets : ColumnId → Value → Prop) : GroupId → Prop
  | comparison {id left right : GroupId} {first : Expr} {operator : BinaryOp} {column : ColumnId}
      {value : Value} (found : memo.firstMember id = .ok first)
      (kind : first.operator = .scalar (.binary operator))
      (comparing : operator.isComparison = true) (operands : first.children = [left, right])
      (compares : memo.Compares left right column value) (met : meets column value) :
      Recognised memo meets id
  | isNull {id operand : GroupId} {first : Expr} {column : Column}
      (found : memo.firstMember id = .ok first) (kind : first.operator = .scalar (.unary .isNull))
      (operands : first.children = [operand]) (reads : memo.column? operand = some column) :
      Recognised memo meets id
  | isNotNull {id operand : GroupId} {first : Expr} {column : Column}
      (found : memo.firstMember id = .ok first) (kind : first.operator = .scalar (.unary .isNotNull))
      (operands : first.children = [operand]) (reads : memo.column? operand = some column) :
      Recognised memo meets id
  | conjunction {id : GroupId} {first : Expr} (found : memo.firstMember id = .ok first)
      (kind : first.operator = .scalar .and)
      (each : ∀ child ∈ first.children, Recognised memo meets child) : Recognised memo meets id
  | disjunction {id : GroupId} {first : Expr} (found : memo.firstMember id = .ok first)
      (kind : first.operator = .scalar .or) (nonempty : first.children ≠ [])
      (each : ∀ child ∈ first.children, Recognised memo meets child) : Recognised memo meets id

namespace Constraint

variable {memo : Memo} {guard : Guard}

/-! ### Constraints that are built -/

theorem built_ofComparison? {operator : BinaryOp} {left right : GroupId} {constraint : Constraint}
    (given : ofComparison? memo operator left right = some constraint) : Built constraint := by
  unfold ofComparison? at given
  split at given
  · obtain ⟨range, _, rfl⟩ := Option.map_eq_some_iff.1 given
    exact .interval range
  · split at given
    · obtain ⟨range, _, rfl⟩ := Option.map_eq_some_iff.1 given
      exact .interval range
    · cases given

/-- What is read off an operator is built if what is read off its operands is. -/
theorem Read.built {read : GroupId → Except Failure (Option Constraint)} {children : List GroupId}
    {operator : Operator} {result : Option Constraint}
    (each : ∀ {child view}, read child = .ok view → ∀ part, view = some part → Built part)
    (given : Read memo read children operator result) : ∀ part, result = some part → Built part := by
  intro part same
  cases given with
  | comparison => exact built_ofComparison? same
  | isNull | isNotNull =>
    obtain ⟨_, _, rfl⟩ := Option.map_eq_some_iff.1 same
    exact .interval _
  | conjunction views =>
    refine .all (fun piece member => ?_) same
    obtain ⟨_, _, given⟩ := (mem_mapM_iff views).1 (by simpa using member)
    exact each given piece rfl
  | disjunction views =>
    refine .any (fun piece member => ?_) same
    obtain ⟨_, _, given⟩ := (mem_mapM_iff views).1 (List.mem_map_of_mem member)
    exact each given piece rfl
  | unknown | other => cases same

/-- **What is read off a predicate is built from intervals.** -/
theorem built_ofPredicateWithin {room : Nat} {id : GroupId} {constraint : Constraint}
    (done : ofPredicateWithin memo guard room id = .ok (some constraint)) : Built constraint :=
  read_induction (fun _ result => ∀ part, result = some part → Built part)
    (fun _ each read => read.built each) room done constraint rfl

/-- A disjunction of something that was built is something. -/
theorem any?_ne_none {parts : List Constraint} (nonempty : parts ≠ [])
    (each : ∀ part ∈ parts, Built part) : any? parts ≠ none := by
  rw [Ne, any?_eq_none_iff, List.flatMap_eq_nil_iff]
  intro nothing
  obtain ⟨part, member⟩ := List.exists_mem_of_ne_nil parts nonempty
  have none := nothing part member
  rcases (each part member).settled.disjuncts with only | several
  · rw [only] at none
    cases none
  · rw [none] at several
    cases several

end Constraint

/-! ### Exactness -/

section Exact

variable {I : Interpretation Value} {values : Value → Prop} {memo : Memo} {guard : Guard}
  {group : GroupId} {environment : Row Value} (standard : I.Standard) (ordered : Value.Ordered values)
  (legible : memo.Legible values) (known : environment.In values)
include standard ordered legible known

open Constraint

/-- The predicate of a group is true wherever the constraint that is read off it holds, or where there is
none. -/
def Memo.Confirms (memo : Memo) (I : Interpretation Value) (guard : Guard) (environment : Row Value)
    (group : GroupId) : Prop :=
  ∀ {room : Nat} {result : Option Constraint}, ofPredicateWithin memo guard room group = .ok result →
    (∀ constraint, result = some constraint → constraint.Holds environment.value) →
      I.Holds (memo.sense I group) environment

omit known in
/-- A constraint that is read off a predicate is one on values in the order. -/
theorem fits_of_read {room : Nat} {child : GroupId} {part : Constraint}
    (read : ofPredicateWithin memo guard room child = .ok (some part)) :
    part.Fits values fun _ => True :=
  Fits.mono (fun _ _ => trivial) part
    (ofPredicateWithin_implied (I := I) standard ordered legible read).fits

section Form

variable {read : GroupId → Except Failure (Option Constraint)} {result : Option Constraint}
  {operator : BinaryOp} {left right operand : GroupId} {column : Column} {value : Value}
  (holds : ∀ constraint, result = some constraint → constraint.Holds environment.value)
include holds

theorem holds_of_comparison {column : ColumnId} (comparing : operator.isComparison = true)
    (compares : memo.Compares left right column value) (met : (environment.value column).Meets value)
    (means : memo.sense I group = I.sense (.scalar (.binary operator)) ([left, right].map (memo.sense I)))
    (given : Read memo read [left, right] (.scalar (.binary operator)) result) :
    I.Holds (memo.sense I group) environment := by
  have there : ∀ column, True → values (environment.value column) := fun column _ =>
    Row.value_in known legible.null column
  cases given with
  | comparison _ one two =>
    obtain rfl := Option.some.inj one
    obtain rfl := Option.some.inj two
    obtain ⟨other, range, given, shape, bound, _, isTrue⟩ :=
      compares.ofComparison? standard ordered legible comparing means
    have allows := holds _ given
    rw [holds_interval, Interval.column_ofComparison? shape] at allows
    exact (isTrue environment known).2
      ((Interval.allows_ofComparison? ordered (there column trivial) bound shape).2 met allows)
  | other unread =>
    rw [Operator.isRead, comparing] at unread
    cases unread

theorem holds_of_isNull (reads : memo.column? operand = some column)
    (means : memo.sense I group = I.sense (.scalar (.unary .isNull)) ([operand].map (memo.sense I)))
    (given : Read memo read [operand] (.scalar (.unary .isNull)) result) :
    I.Holds (memo.sense I group) environment := by
  cases given with
  | isNull same =>
    obtain rfl := Option.some.inj same
    exact (holds_isNull_iff standard ordered legible means reads known).2 (holds _ (by rw [reads]; rfl))
  | other unread => cases unread

theorem holds_of_isNotNull (reads : memo.column? operand = some column)
    (means : memo.sense I group = I.sense (.scalar (.unary .isNotNull)) ([operand].map (memo.sense I)))
    (given : Read memo read [operand] (.scalar (.unary .isNotNull)) result) :
    I.Holds (memo.sense I group) environment := by
  cases given with
  | isNotNull same =>
    obtain rfl := Option.some.inj same
    exact (holds_isNotNull_iff standard ordered legible means reads known).2
      (holds _ (by rw [reads]; rfl))
  | other unread => cases unread

variable {room : Nat} {children : List GroupId}
  (each : ∀ child ∈ children, memo.Confirms I guard environment child)
include each

/-- The constraint of a conjunction holds where those of its parts do. -/
theorem holds_of_conjunction
    (means : memo.sense I group = I.sense (.scalar .and) (children.map (memo.sense I)))
    (given : Read memo (ofPredicateWithin memo guard room) children (.scalar .and) result) :
    I.Holds (memo.sense I group) environment := by
  have there : ∀ column, True → values (environment.value column) := fun column _ =>
    Row.value_in known legible.null column
  rw [means, holds_and]
  cases given with
  | @conjunction views viewed =>
    have parts : ∀ part ∈ views.filterMap id, part.Fits values fun _ => True := by
      intro part member
      obtain ⟨child, _, given⟩ := (mem_mapM_iff viewed).1 (by simpa using member)
      exact fits_of_read standard ordered legible given
    have held := (forall_mem_holds_iff ordered there parts).2 holds
    intro input listed
    obtain ⟨child, member, rfl⟩ := List.mem_map.1 listed
    obtain ⟨view, among, given⟩ := exists_mem_of_mapM viewed member
    refine each child member given fun part same => held part ?_
    exact List.mem_filterMap.2 ⟨view, among, same⟩
  | other unread => cases unread

/-- The constraint of a disjunction, which has parts, holds where that of one of them does. -/
theorem holds_of_disjunction (nonempty : children ≠ [])
    (means : memo.sense I group = I.sense (.scalar .or) (children.map (memo.sense I)))
    (given : Read memo (ofPredicateWithin memo guard room) children (.scalar .or) result) :
    I.Holds (memo.sense I group) environment := by
  have there : ∀ column, True → values (environment.value column) := fun column _ =>
    Row.value_in known legible.null column
  rw [means, standard.holds_or]
  cases given with
  | @disjunction parts viewed =>
    have given : ∀ part ∈ parts, ∃ child ∈ children,
        ofPredicateWithin memo guard room child = .ok (some part) := fun part member =>
      (mem_mapM_iff viewed).1 (List.mem_map_of_mem member)
    have some : parts ≠ [] := by
      rintro rfl
      obtain ⟨child, member⟩ := List.exists_mem_of_ne_nil _ nonempty
      obtain ⟨_, none, _⟩ := exists_mem_of_mapM viewed member
      cases none
    obtain ⟨found, joined⟩ := Option.ne_none_iff_exists'.1 (any?_ne_none some fun part member =>
      have ⟨_, _, read⟩ := given part member
      built_ofPredicateWithin read)
    obtain ⟨part, member, held⟩ := (holds_any? ordered there (fun part member =>
      have ⟨_, _, read⟩ := given part member
      fits_of_read standard ordered legible read) joined).1 (holds found joined)
    obtain ⟨child, among, read⟩ := given part member
    refine ⟨_, List.mem_map_of_mem among, each child among read fun other same => ?_⟩
    exact Option.some.inj same ▸ held
  | unknown member nothing =>
    exact ⟨_, List.mem_map_of_mem member, each _ member nothing nofun⟩
  | other unread => cases unread

end Form

omit standard ordered known in
/-- What is read off a group is read off its first member, and that is what the group means. -/
theorem exists_read_of_firstMember {first : Expr} {room : Nat} {result : Option Constraint}
    (found : memo.firstMember group = .ok first)
    (done : ofPredicateWithin memo guard room group = .ok result) :
    memo.sense I group = I.sense first.operator (first.children.map (memo.sense I)) ∧
      ∃ below, Read memo (ofPredicateWithin memo guard below) first.children first.operator
        result := by
  obtain ⟨below, _, _, again, read⟩ := exists_read done
  obtain rfl := Except.ok.inj (found.symm.trans again)
  exact ⟨legible.sense_eq found, below, read⟩

/-- **A recognised predicate is true where its constraint holds**, or where it has none, on a row whose
values meet the constants. -/
theorem Memo.Recognised.holds
    (recognised : memo.Recognised
      (fun column value => (environment.value column).Meets value) group) :
    memo.Confirms I guard environment group := by
  induction recognised with
  | @comparison group left right first operator column value found kind comparing operands compares met =>
    intro room result done holds
    obtain ⟨means, below, given⟩ := exists_read_of_firstMember legible found done
    rw [kind, operands] at means given
    exact holds_of_comparison standard ordered legible known holds comparing compares met means given
  | isNull found kind operands reads =>
    intro room result done holds
    obtain ⟨means, below, given⟩ := exists_read_of_firstMember legible found done
    rw [kind, operands] at means given
    exact holds_of_isNull standard ordered legible known holds reads means given
  | isNotNull found kind operands reads =>
    intro room result done holds
    obtain ⟨means, below, given⟩ := exists_read_of_firstMember legible found done
    rw [kind, operands] at means given
    exact holds_of_isNotNull standard ordered legible known holds reads means given
  | conjunction found kind _ ih =>
    intro room result done holds
    obtain ⟨means, below, given⟩ := exists_read_of_firstMember legible found done
    rw [kind] at means given
    exact holds_of_conjunction standard ordered legible known holds ih means given
  | disjunction found kind nonempty _ ih =>
    intro room result done holds
    obtain ⟨means, below, given⟩ := exists_read_of_firstMember legible found done
    rw [kind] at means given
    exact holds_of_disjunction standard ordered legible known holds ih nonempty means given

end Exact

namespace Constraint

/-- **The constraint of a predicate is implied by it, and exact if the predicate is recognised.** Over
values in an order, with null among the constants of the memo and in the row: the constraint of a scalar
group can be read unless the guard refuses, because the search was cancelled or the predicate may be too
deep. Where the predicate is true on a row, there is no constraint, or the row satisfies it; and where
the predicate is recognised and the row meets its constants, the predicate is true if there is no
constraint, or the row satisfies it. -/
theorem ofPredicate?_exact {I : Interpretation Value} {values : Value → Prop} {memo : Memo}
    {group : GroupId} {environment : Row Value} (standard : I.Standard)
    (ordered : Value.Ordered values) (valid : memo.Valid) (laid : memo.Laid)
    (constants : ∀ {id : ExprId} {expr : Expr} {value : Value}, memo.exprs[id]? = some expr →
      expr.operator = .scalar (.constant value) → value.isNull = true ∨ values value)
    (scalar : memo.Scalar group)
    (known : environment.In fun value => value.isNull = true ∨ values value) (guard : Guard) :
    (ofPredicate? memo guard group = .error (.abort guard.refusal) ∧
      (guard.cancelled = true ∨ guard.maxDepth < group)) ∨
    ∃ result, ofPredicate? memo guard group = .ok result ∧
      (I.Holds (memo.sense I group) environment →
        ∀ constraint, result = some constraint → constraint.Holds environment.value) ∧
      (memo.Recognised (fun column value => (environment.value column).Meets value) group →
        (∀ constraint, result = some constraint → constraint.Holds environment.value) →
          I.Holds (memo.sense I group) environment) := by
  have legible := Legible.of_laid valid laid (.inl rfl) constants
  have ends : Ends _ (ofPredicateWithin memo guard guard.room group) fun _ => True :=
    ofPredicateWithin_ends valid laid guard.room scalar
  cases done : ofPredicateWithin memo guard guard.room group with
  | error failure =>
    rw [done] at ends
    obtain ⟨rfl, cause⟩ := ends
    exact .inl ⟨done, cause⟩
  | ok result =>
    refine .inr ⟨result, done, fun isTrue constraint same => ?_, fun recognised =>
      recognised.holds standard ordered.orNull legible known done⟩
    subst same
    exact (ofPredicate?_implied standard ordered.orNull legible done).holds environment known isTrue

/-- A price below ten, and one above five unless the stock is unknown. -/
def cheapPredicate : List (Operator × List GroupId) :=
  [(.scalar (.column ⟨1, none, "price"⟩), []), (.scalar (.constant (.int 10)), []),
    (.scalar (.binary .lt), [0, 1]), (.scalar (.constant (.int 5)), []),
    (.scalar (.binary .lt), [3, 0]), (.scalar (.column ⟨2, none, "stock"⟩), []),
    (.scalar (.unary .isNull), [5]), (.scalar .or, [4, 6]), (.scalar .and, [2, 7])]

/-- The memo of the predicate. -/
def cheapMemo : Memo := (Memo.empty.build? cheapPredicate).getD .empty

theorem cheapMemo_recognised {meets : ColumnId → Value → Prop} (ten : meets 1 (.int 10))
    (five : meets 1 (.int 5)) : cheapMemo.Recognised meets 8 := by
  have price : cheapMemo.column? 0 = some ⟨1, none, "price"⟩ := rfl
  have below : cheapMemo.firstMember 2 = .ok ⟨.scalar (.binary .lt), [0, 1], 2, 0, some 2⟩ := rfl
  have above : cheapMemo.firstMember 4 = .ok ⟨.scalar (.binary .lt), [3, 0], 4, 0, some 4⟩ := rfl
  have stock : cheapMemo.column? 5 = some ⟨2, none, "stock"⟩ := rfl
  have unknown : cheapMemo.firstMember 6 = .ok ⟨.scalar (.unary .isNull), [5], 6, 0, some 6⟩ := rfl
  have either : cheapMemo.firstMember 7 = .ok ⟨.scalar .or, [4, 6], 7, 0, some 7⟩ := rfl
  have both : cheapMemo.firstMember 8 = .ok ⟨.scalar .and, [2, 7], 8, 0, some 8⟩ := rfl
  refine .conjunction both rfl (List.forall_mem_cons.2 ⟨?_, List.forall_mem_singleton.2 ?_⟩)
  · exact .comparison below rfl rfl rfl (.columnFirst price rfl) ten
  · refine .disjunction either rfl (List.cons_ne_nil _ _)
      (List.forall_mem_cons.2 ⟨?_, List.forall_mem_singleton.2 ?_⟩)
    · exact .comparison above rfl rfl rfl (.constantFirst rfl price) five
    · exact .isNull unknown rfl rfl stock

/-- A price of seven; nothing is known of the stock. -/
def cheapRow : Row Value := fun column => if column = 1 then some (.int 7) else none

/-- The predicate is recognised, so it is true on the row that satisfies its constraint. -/
theorem ofPredicate?_exact_cheapPredicate : ∃ constraint,
    Memo.empty.build? cheapPredicate = some cheapMemo ∧
    ofPredicate? cheapMemo {} 8 = .ok (some constraint) ∧ constraint.Holds cheapRow.value ∧
    (Interpretation.ofValues fun _ _ => 0).Holds
      (cheapMemo.sense (.ofValues fun _ _ => 0) 8) cheapRow := by
  have built : Memo.empty.build? cheapPredicate = some cheapMemo := rfl
  obtain ⟨breadth, formed⟩ := (Memo.Built.empty.build? built).formed
  have scalar : cheapMemo.Scalar 8 := scalar_iff.2 rfl
  have without : cheapMemo.exactConstants = true := rfl
  have known : cheapRow.In fun value => value.isNull = true ∨ value.isExact = true := by
    intro column value found
    unfold cheapRow at found
    split at found
    · cases found
      exact .inr rfl
    · cases found
  have read : ofPredicate? cheapMemo {} 8 = .ok (some (all [
      interval ⟨1, [⟨.unbounded, .excluded (.int 10)⟩], false⟩,
      any [interval ⟨1, [⟨.excluded (.int 5), .unbounded⟩], false⟩, interval ⟨2, [], true⟩]])) := rfl
  have below : Value.compare? (.int 7) (.int 10) = some .lt := by decide
  have above : Value.compare? (.int 7) (.int 5) = some .gt := by decide
  have back : Value.order (.int 5) (.int 7) = .lt := by decide
  have holds : (all [interval ⟨1, [⟨.unbounded, .excluded (.int 10)⟩], false⟩,
      any [interval ⟨1, [⟨.excluded (.int 5), .unbounded⟩], false⟩,
        interval ⟨2, [], true⟩]]).Holds cheapRow.value := by
    simp [holds_all, holds_any, holds_interval, Interval.Allows, Range.Holds, Bound.Lower, Bound.Upper,
      cheapRow, Row.value, Value.isNull, Value.order_of_compare? below, back]
  obtain ⟨refused, _⟩ | ⟨result, again, _, exact⟩ :=
    ofPredicate?_exact (I := .ofValues fun _ _ => 0) ofValues_standard Value.ordered_exact
      formed.toValid formed.laid
      (fun stored kind => .inr (Memo.isExact_of_exactConstants without stored kind))
      scalar known {}
  · rw [read] at refused
    cases refused
  · rw [read] at again
    cases again
    exact ⟨_, built, read, holds, exact (cheapMemo_recognised (.inr (.inr ⟨_, below⟩))
      (.inr (.inr ⟨_, above⟩))) (fun constraint same => Option.some.inj same ▸ holds)⟩

end Constraint

end Cascades
