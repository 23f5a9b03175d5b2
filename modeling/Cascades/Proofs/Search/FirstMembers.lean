/-
**Recursions down first members end.**

Statistics, conjuncts and the constraints of predicates are found by recursions from a group to the children
of its first member. Groups may reach themselves through other members, but the children of a first member
are older than its group. So these recursions end whatever else a memo holds, and they enter no more levels
than the number of the group says. For the same reason the properties of all groups can be derived in the
order of their numbers, where a group meets only children that are complete.

* `Statistics.finding`, `Statistics.find_terminates`: the statistics of a group, kept on the way;
* `Constraint.recognition`, `Constraint.recognize_terminates`: the constraint of a predicate;
* `Constraint.ofPredicate?_yields`, `Constraint.ofPredicate?_eq_recognize`: what a guard changes;
* `firstMembers_terminate`: all of it.
-/

import Cascades.Proofs.Constraint.Predicate
import Cascades.Proofs.Estimate
import Cascades.Proofs.Memo.Flattening
import Cascades.Proofs.Property.Readiness
import Cascades.Proofs.Property.Repetition
import Cascades.Proofs.Search.Worklist

namespace Cascades

open Memo

variable {memo : Memo} {catalog : Catalog} {guard : Guard}

theorem Memo.Needs.inside {id child : GroupId} (needed : memo.Needs id child) : id < memo.groups.size := by
  obtain ⟨expr, found, _⟩ := needed
  obtain ⟨group, _, there, _⟩ := firstMember_ok_iff.1 found
  exact lt_of_group there

/-! ### Statistics -/

namespace Statistics

/-- One level of the recursion that finds statistics, given how to find those of other groups. -/
def finding (memo : Memo) (catalog : Catalog) (input : GroupId → Finding Statistics) (id : GroupId) :
    Finding Statistics := do
  match (← get).get? id with
  | some known => return known
  | none =>
    let statistics ← ofMembers memo catalog input id
    modify fun found => found.insert id statistics
    return statistics

theorem levels_finding (count : Nat) :
    levels (finding memo catalog) (fun id => throw (.endlessDerivation id)) count =
      findWithin memo catalog count := by
  induction count with
  | zero => rfl
  | succ count ih => exact congrArg (finding memo catalog) ih

section LogicalFirst

variable (valid : memo.Valid) (headed : memo.LogicalFirst)
include valid headed

/-- The first logical member of a group is its first member, so nothing but its children is looked at. -/
theorem ofMembers_congr {id : GroupId} {input other : GroupId → Finding Statistics}
    (same : ∀ child, memo.Needs id child → input child = other child) :
    ofMembers memo catalog input id = ofMembers memo catalog other id := by
  unfold ofMembers
  refine bind_lift_congr fun group there => ?_
  cases family : group.isScalar with
  | true => rfl
  | false =>
    obtain ⟨number, expr, operator, place, stored, logical⟩ := headed (group_ok_iff.1 there) family
    have found := firstMember_ok_iff.2 ⟨group, number, group_ok_iff.1 there, place, stored⟩
    simp only [bind_known (firstLogical_of_firstMember found logical)]
    exact ofOperator_grown (.refl memo) valid stored fun child member => same child ⟨expr, found, member⟩

theorem finding_descends : Descends memo.Needs (finding memo catalog) where
  smaller needed := needed.lt valid.toLinked
  congr same := by
    unfold finding
    rw [ofMembers_congr valid headed same]

/-- **The statistics of a group** are found by a recursion that ends. -/
theorem find_terminates : Terminates memo.Needs (finding memo catalog) (find memo catalog) := by
  have descends : Descends memo.Needs (finding memo catalog) := finding_descends valid headed
  have same : find memo catalog = fun id => levels (finding memo catalog)
      (fun id => throw (.endlessDerivation id)) (id + 1) id := by
    funext id
    unfold find
    rw [← levels_finding]
    rcases Nat.lt_or_ge id memo.groups.size with inside | outside
    · exact descends.levels_agree (Nat.lt_succ_of_lt inside) (Nat.lt_succ_self id)
    · exact descends.congr fun child needed => absurd needed.inside (Nat.not_lt_of_le outside)
  rw [same]
  exact descends.terminates

end LogicalFirst

end Statistics

/-! ### Constraints of predicates -/

namespace Constraint

/-- One level of the recursion that recognizes a predicate, given the constraints of its parts. Nothing
guards it. -/
def recognition (memo : Memo) (read : GroupId → Except Failure (Option Constraint)) (group : GroupId) :
    Except Failure (Option Constraint) := do
  let first ← memo.firstMember group
  match first.operator with
  | .scalar (.binary operator) =>
    if operator.isComparison then
      let left ← first.child 0
      let right ← first.child 1
      return ofComparison? memo operator left right
    else return none
  | .scalar (.unary .isNull) =>
    let column := memo.column? (← first.child 0)
    return column.map fun column => interval (.nullOnly column.id)
  | .scalar (.unary .isNotNull) =>
    let column := memo.column? (← first.child 0)
    return column.map fun column => interval (.notNull column.id)
  | .scalar .and =>
    let parts ← first.children.mapM read
    return all? (parts.filterMap id)
  | .scalar .or =>
    let parts ← (first.children.mapM fun child => OptionT.mk (read child)).run
    return parts.bind any?
  | _ => return none

variable {id : GroupId}

/-- The constraint of a predicate under a guard that lets as many levels pass as there can be. -/
def recognize (memo : Memo) (id : GroupId) : Except Failure (Option Constraint) :=
  ofPredicate? memo { maxDepth := id } id

theorem recognition_congr {read other : GroupId → Except Failure (Option Constraint)}
    (same : ∀ child, memo.Needs id child → read child = other child) :
    recognition memo read id = recognition memo other id := by
  unfold recognition
  cases found : memo.firstMember id with
  | error cause => rfl
  | ok first =>
    have given : ∀ {next : Expr → Except Failure (Option Constraint)},
        ((liftM (.ok first : Except Fault Expr) : Except Failure Expr) >>= next) = next first := rfl
    have each : ∀ child ∈ first.children, read child = other child :=
      fun child member => same child ⟨first, found, member⟩
    have parts : first.children.mapM read = first.children.mapM other := mapM_congr each
    have all : (first.children.mapM fun child => OptionT.mk (read child)) =
        first.children.mapM fun child => OptionT.mk (other child) :=
      mapM_congr fun child member => congrArg OptionT.mk (each child member)
    simp only [given, parts, all]

/-- A guard that is not cancelled only cuts off the levels. -/
theorem levels_recognition (running : guard.cancelled = false) (count : Nat) :
    levels (recognition memo) (fun _ => throw (.abort guard.refusal)) count =
      ofPredicateWithin memo guard count := by
  induction count with
  | zero => rfl
  | succ count ih =>
    funext id
    unfold levels ofPredicateWithin
    rw [ih, running, if_neg Bool.false_ne_true]
    rfl

section Linked

variable (linked : memo.Linked)
include linked

theorem recognition_descends : Descends memo.Needs (recognition memo) where
  smaller needed := needed.lt linked
  congr := recognition_congr

/-- **The constraint of a predicate** is found by a recursion that ends. -/
theorem recognize_terminates : Terminates memo.Needs (recognition memo) (recognize memo) := by
  have descends := recognition_descends linked
  have same : recognize memo = fun id => levels (recognition memo)
      (fun _ => throw (.abort .cancelled)) (id + 1) id := by
    funext id
    unfold recognize ofPredicate?
    rw [← levels_recognition rfl]
    exact descends.levels_agree (Nat.lt_succ_self id) (Nat.lt_succ_self id)
  rw [same]
  exact descends.terminates

/-- A guard that lets enough levels pass changes nothing. -/
theorem ofPredicate?_eq_recognize (running : guard.cancelled = false) (shallow : id ≤ guard.maxDepth) :
    ofPredicate? memo guard id = recognize memo id := by
  unfold ofPredicate?
  rw [← levels_recognition running]
  exact (recognize_terminates linked).bounded _ (Nat.lt_succ_of_le shallow)

end Linked

/-- What is found under a guard is found without it. -/
theorem ofPredicate?_yields (valid : memo.Valid) :
    Yields (ofPredicate? memo guard id) (recognize memo id) := by
  intro result done
  obtain ⟨_, first, _, found, _⟩ := exists_read done
  obtain ⟨_, _, there, _⟩ := firstMember_ok_iff.1 found
  have repeated : Yields (ofPredicateWithin memo guard guard.room id)
      (ofPredicateWithin memo { maxDepth := id } (id + 1) id) :=
    ofPredicateWithin_repeated (.refl memo) valid (fun _ => rfl) _ (lt_of_group there)
      (Or.inr (Nat.lt_succ_self id))
  exact repeated result done

end Constraint

/-! ### All recursions -/

/-- **Recursions down first members end** on every memo whose relational groups begin with logical members,
even where groups reach themselves. Those that find statistics, conjuncts and constraints look at older groups
only, a guard aside, and one pass over all groups derives their properties from children that are
complete. -/
theorem firstMembers_terminate {requests : List Request}
    (history : Memo.empty.performAll requests = .ok memo) (headed : memo.LogicalFirst) (catalog : Catalog) :
    Terminates memo.Needs (Statistics.finding memo catalog) (Statistics.find memo catalog) ∧
    (Terminates memo.Needs memo.flattening memo.conjuncts ∧
      ∀ id, memo.flattenStack #[id] #[] = Part.some (memo.conjuncts id).toArray) ∧
    (Terminates memo.Needs (Constraint.recognition memo) (Constraint.recognize memo) ∧
      ∀ (guard : Guard) (id : GroupId),
        Yields (Constraint.ofPredicate? memo guard id) (Constraint.recognize memo id) ∧
        (guard.cancelled = false → id ≤ guard.maxDepth →
          Constraint.ofPredicate? memo guard id = Constraint.recognize memo id)) ∧
    ∀ start : Context, start.memo = memo →
      (∀ id < memo.groups.size, ∀ before : Context,
        (List.range id).forM Context.deriveGroup start = .ok (.ok (), before) →
          before.memo = memo ∧ ∀ child, memo.Needs id child → before.Complete child) ∧
      Ends (fun cause => ¬ cause.Premature) (Context.deriveAll start) fun ended =>
        Ends Abort.Stops ended.1 fun _ =>
          ended.2.memo = memo ∧ ∀ id < memo.groups.size, ended.2.Complete id := by
  have valid : memo.Valid := (performAll_keeps history empty_valid).1
  have linked := valid.toLinked
  refine ⟨Statistics.find_terminates valid headed, ⟨linked.conjuncts_terminates, linked.flattenStack_eq⟩,
    ⟨Constraint.recognize_terminates linked, fun guard id => ?_⟩, fun start same => ⟨?_, ?_⟩⟩
  · exact ⟨Constraint.ofPredicate?_yields valid, Constraint.ofPredicate?_eq_recognize linked⟩
  · intro id inside before done
    have pass := Context.deriveBelow_ready valid headed (Nat.le_of_lt inside)
    obtain ⟨kept, complete⟩ := pass.of_ok same done
    exact ⟨kept, fun child needed => complete child (needed.lt linked)⟩
  · exact Context.deriveAll_ready valid headed start same

/-- A table and a selection of it that is also put into the group of the table, with a filter for the
selection. So both groups are below each other. The predicate of the selections is a conjunction, whose group
has another member over itself. -/
def circularPredicates : List Request :=
  [.insert (.logical (.get ⟨"shop", "orders"⟩ [⟨7, none, "total"⟩])) [],
    .insert (.scalar (.column ⟨7, none, "total"⟩)) [],
    .insert (.scalar (.unary .isNotNull)) [1],
    .insert (.scalar (.unary .isNull)) [1],
    .insert (.scalar .or) [2, 3],
    .insert (.scalar .and) [2, 4],
    .insert (.logical .select) [0, 5],
    .insertInto 0 (.logical .select) [6, 5],
    .insertInto 5 (.scalar .and) [5, 2],
    .insertInto 6 (.physical .filter) [0, 5]]

/-- The conjuncts, the constraint and the statistics are found, and all properties are derived. -/
theorem firstMembers_terminate_circularPredicates :
    ∃ memo derived, Memo.empty.performAll circularPredicates = .ok memo ∧
      memo.Input 0 6 ∧ memo.Input 6 0 ∧ memo.exprs[8]?.map Expr.children = some [5, 2] ∧
      memo.flattenStack #[5] #[] = Part.some #[2, 4] ∧
      Constraint.ofPredicate? memo {} 5 = Constraint.recognize memo 5 ∧
      Statistics.find memo {} 6 = Statistics.finding memo {} (Statistics.find memo {}) 6 ∧
      Context.deriveAll { memo } = .ok (.ok (), derived) ∧ ∀ id < memo.groups.size, derived.Complete id := by
  have shown : (Memo.empty.performAll circularPredicates).toOption.map (fun memo =>
      (memo.isLogicalFirst, (memo.groupsBelow 0, memo.groupsBelow 6),
        memo.exprs[8]?.map Expr.children, memo.conjuncts 5)) =
      some (true, ([6], [0, 0]), some [5, 2], [2, 4]) := by
    decide +kernel
  have derives : (Memo.empty.performAll circularPredicates).toOption.map (fun memo =>
      (Context.deriveAll { memo }).toOption.map fun ended => ended.1.toOption.isSome) =
      some (some true) := by
    decide +kernel
  obtain ⟨memo, history, shown⟩ := Option.map_eq_some_iff.1 shown
  rw [history, Option.map_some] at derives
  have history := toOption_eq_some_iff.1 history
  simp only [Prod.mk.injEq] at shown
  obtain ⟨headed, ⟨first, second⟩, member, conjuncts⟩ := shown
  obtain ⟨⟨ended, derived⟩, done, given⟩ := Option.map_eq_some_iff.1 (Option.some.inj derives)
  obtain ⟨_, found⟩ := Option.isSome_iff_exists.1 given
  have done := toOption_eq_some_iff.1 done
  obtain rfl := toOption_eq_some_iff.1 found
  have linked : memo.Linked := (performAll_keeps history empty_valid).1.toLinked
  obtain ⟨statistics, ⟨_, flattened⟩, ⟨_, guarded⟩, pass⟩ :=
    firstMembers_terminate history (logicalFirst_of_isLogicalFirst headed) {}
  have complete := (pass { memo } rfl).2
  rw [done] at complete
  refine ⟨memo, derived, history, linked.input_iff.2 ?_, linked.input_iff.2 ?_, member, ?_, ?_,
    statistics.solves 6, done, complete.2⟩
  · rw [first]
    exact List.mem_cons_self
  · rw [second]
    exact List.mem_cons_self
  · rw [flattened, conjuncts]
  · exact (guarded {} 5).2 rfl (by decide)

end Cascades
