/-
**Rules that explore keep the meaning.**

What a rule proposes for a binding means what the group of the binding means. Both sides of a rule
are inner joins of the same relations under conditions that say the same.

* `Rule.Faithful`: a rule that keeps the meaning;
* `joinCommutativity_faithful`, `pushSelectIntoJoin_faithful`, `joinAssociativity_faithful`: the rules
  for selections and binary joins do;
* `regroup_means`: a regrouped join.
-/

import Cascades.Proofs.Binding.Drawn
import Cascades.Proofs.Meaning.Coherence
import Cascades.Proofs.Meaning.Join
import Cascades.Rule.Exploration

namespace Cascades

open Memo Interpretation

variable {V : Type} {I : Interpretation V} {context : Context} {memo : Memo}

/-! ### Drawn bindings -/

namespace Binding

variable {binding : Binding} {pattern : Pattern}

theorem childGroup_ok_iff {position : Nat} {id : GroupId} :
    binding.childGroup position = .ok id ↔ binding.childGroups[position]? = some id := by
  unfold childGroup childGroups
  rw [List.getElem?_map]
  cases binding.children[position]? <;> simp

/-- A binding that does not stop at its root shows a stored expression over its child groups. -/
theorem Drawn.inner (drawn : binding.Drawn memo pattern) (inner : pattern.isLeaf = false) :
    ∃ (id : ExprId) (expr : Expr), memo.exprs[id]? = some expr ∧ binding.operator = expr.operator ∧
      binding.group = expr.group ∧ binding.childGroups = expr.children ∧
      pattern.matchesRoot expr.operator expr.arity = true ∧
      ∀ position child part, binding.children[position]? = some child →
        pattern.child position expr.arity = .ok part → child.Drawn memo part := by
  cases drawn with
  | leaf stops _ =>
    rw [inner] at stops
    cases stops
  | node _ stored root groups below => exact ⟨_, _, stored, rfl, rfl, groups, root, below⟩

end Binding

/-- What the root of a match under a logical operator is. -/
theorem Pattern.matchesRoot_logical {kind : LogicalKind} {children : List Pattern}
    {operator : Operator} {arity : Nat} (single : Pattern.repeatedFirst? children = none)
    (root : (Pattern.logical kind children).matchesRoot operator arity = true) :
    (∃ logical, operator = .logical logical ∧ logical.kind = kind) ∧ arity = children.length := by
  simp only [logical, matchesRoot, single] at root
  obtain ⟨accepted, counts⟩ := Bool.and_eq_true_iff.1 root
  refine ⟨?_, of_decide_eq_true counts⟩
  cases operator with
  | logical operator => exact ⟨operator, rfl, of_decide_eq_true accepted⟩
  | physical operator => cases accepted
  | scalar operator => cases accepted

/-! ### Faithful rules -/

/-- What a rule proposes for a binding means what the group of the binding means. -/
def Rule.Faithful (I : Interpretation V) (rule : Rule) : Prop :=
  ∀ {context : Context} {binding : Binding} {proposals : List Proposal}, context.Coherent I →
    binding.Drawn context.memo rule.pattern → rule.transform context binding = .ok proposals →
      ∀ proposal ∈ proposals,
        Means I context.memo proposal (context.memo.sense I binding.group)

namespace Rule

theorem joinType?_eq_some_iff {operator : Operator} {type : JoinType} :
    joinType? operator = some type ↔ operator = .logical (.join type) := by
  constructor
  · intro same
    unfold joinType? at same
    split at same
    · cases same
      rfl
    · cases same
  · rintro rfl
    rfl

/-! ### Bindings of joins -/

/-- An inner join that a binding shows: its relations and its predicate, and what it means. -/
structure ShowsJoin (I : Interpretation V) (memo : Memo) (binding : Binding)
    (left right predicate : GroupId) : Prop where
  groups : binding.childGroups = [left, right, predicate]
  leftIs : memo.IsRelation I left
  rightIs : memo.IsRelation I right
  predicateIs : memo.IsPredicate I predicate
  apart : Apart (memo.sense I left) (memo.sense I right)
  means : memo.sense I binding.group =
    I.joined [memo.sense I left, memo.sense I right] [memo.sense I predicate]

theorem shows_join (sound : memo.Sound I) {binding : Binding} {patterns : List Pattern}
    {type : JoinType} (drawn : binding.Drawn memo (.logical .join patterns))
    (single : Pattern.repeatedFirst? patterns = none) (three : patterns.length = 3)
    (operator : binding.operator = .logical (.join type)) (inner : type.isInner = true) :
    ∃ left right predicate, ShowsJoin I memo binding left right predicate := by
  obtain ⟨id, expr, stored, shown, named, groups, root, _⟩ := drawn.inner rfl
  obtain ⟨_, arity⟩ := Pattern.matchesRoot_logical single root
  have computes : expr.operator.logical? = some (.join type) := by
    rw [← shown, operator]
    rfl
  obtain ⟨sources, predicate, shape, relations, isPredicate, apart, means⟩ :=
    sound.joining stored computes inner
  have two : sources.length = 2 := by
    have counts : (sources ++ [predicate]).length = 3 := shape ▸ (arity.trans three)
    simpa using counts
  match sources, two with
  | [left, right], _ =>
    refine ⟨left, right, predicate, groups.trans shape, relations left (by simp),
      relations right (by simp), isPredicate, ?_, named ▸ means⟩
    exact (List.pairwise_cons.1 apart).1 _ (by simp)

namespace ShowsJoin

variable {binding : Binding} {left right predicate : GroupId}
  (shows : ShowsJoin I memo binding left right predicate)
include shows

theorem childGroup_left {id : GroupId} (done : binding.childGroup 0 = .ok id) : id = left := by
  rw [Binding.childGroup_ok_iff, shows.groups] at done
  exact (Option.some.inj done).symm

theorem childGroup_right {id : GroupId} (done : binding.childGroup 1 = .ok id) : id = right := by
  rw [Binding.childGroup_ok_iff, shows.groups] at done
  exact (Option.some.inj done).symm

theorem childGroup_predicate {id : GroupId} (done : binding.childGroup 2 = .ok id) :
    id = predicate := by
  rw [Binding.childGroup_ok_iff, shows.groups] at done
  exact (Option.some.inj done).symm

end ShowsJoin

/-- Two relations to be joined. -/
theorem meanAll_pair {left right : GroupId} (first : memo.IsRelation I left)
    (second : memo.IsRelation I right) :
    MeanAll I memo [.group left, .group right] [memo.sense I left, memo.sense I right] :=
  .cons (.group first.1) (.cons (.group second.1) .nil)

/-! ### Exchange of inputs -/

theorem joinCommutativity_faithful : joinCommutativity.Faithful I := by
  intro context binding proposals coherent drawn done proposal member
  unfold joinCommutativity at done
  simp only at done
  split at done
  · rename_i type operator
    by_cases inner : type.isInner = true
    · rw [if_pos inner] at done
      obtain ⟨left, right, predicate, shows⟩ := shows_join coherent.sound drawn rfl rfl
        (joinType?_eq_some_iff.1 operator) inner
      obtain ⟨second, rightGiven, done⟩ := bind_eq_ok_iff.1 done
      obtain ⟨first, leftGiven, done⟩ := bind_eq_ok_iff.1 done
      obtain ⟨last, predicateGiven, done⟩ := bind_eq_ok_iff.1 done
      have same := pure_eq_ok_iff.1 done
      subst same
      rw [List.mem_singleton.1 member, shows.childGroup_left (lift_fault_eq_ok_iff.1 leftGiven),
        shows.childGroup_right (lift_fault_eq_ok_iff.1 rightGiven),
        shows.childGroup_predicate (lift_fault_eq_ok_iff.1 predicateGiven), shows.means]
      have exchanged : I.joined [context.memo.sense I left, context.memo.sense I right]
          [context.memo.sense I predicate] =
          I.joined [context.memo.sense I right, context.memo.sense I left]
            [context.memo.sense I predicate] :=
        joined_perm (.swap _ _ _) (by simpa using shows.apart)
      have computes : (Operator.logical (.join type)).logical? = some (.join type) := rfl
      rw [exchanged]
      refine Means.join computes inner (meanAll_pair shows.rightIs shows.leftIs)
        (.group shows.predicateIs.1) ?_ shows.predicateIs.2 (by simpa using shows.apart.symm)
      simpa using ⟨shows.rightIs.2, shows.leftIs.2⟩
    · rw [if_neg inner] at done
      cases pure_eq_ok_iff.1 done
      cases member
  · cases pure_eq_ok_iff.1 done
    cases member

/-! ### Selections above joins -/

/-- The binding below the root at a position binds the child group there. -/
theorem childBinding_cases {binding below : Binding} {position : Nat}
    (done : childBinding binding position = .ok below) :
    binding.children[position]? = some below ∧
      binding.childGroups[position]? = some below.group := by
  have place : binding.children[position]? = some below := by
    unfold childBinding at done
    split at done
    · rename_i found
      cases done
      exact found
    · cases done
  refine ⟨place, ?_⟩
  rw [Binding.childGroups, List.getElem?_map, place]
  rfl

/-- The binding below the root at the first position shows what the pattern has there. -/
theorem drawn_below {binding below : Binding} {kind : LogicalKind} {first : Pattern}
    {others : List Pattern} (drawn : binding.Drawn memo (.logical kind (first :: others)))
    (single : Pattern.repeatedFirst? (first :: others) = none)
    (done : childBinding binding 0 = .ok below) :
    below.Drawn memo first ∧ binding.childGroups[0]? = some below.group := by
  obtain ⟨_, expr, _, _, _, _, root, under⟩ := drawn.inner rfl
  obtain ⟨_, arity⟩ := Pattern.matchesRoot_logical single root
  obtain ⟨place, group⟩ := childBinding_cases done
  refine ⟨under 0 below first place ?_, group⟩
  simp [Pattern.logical, Pattern.child, arity, single]

/-- A join under a join means one join of all relations. -/
theorem joined_below {left right predicate : GroupId} {binding : Binding}
    {others conditions : List (Sense V)} (shows : ShowsJoin I memo binding left right predicate)
    (apart : ∀ other ∈ others, Apart (memo.sense I binding.group) other) :
    I.joined (memo.sense I binding.group :: others) conditions =
      I.joined (memo.sense I left :: memo.sense I right :: others)
        (memo.sense I predicate :: conditions) := by
  rw [shows.means] at apart ⊢
  exact joined_joined apart

/-- What is proposed for a selection above an inner or cross join. -/
theorem pushSelectIntoJoin_cases {binding : Binding} {proposals : List Proposal} {proposal : Proposal}
    (done : pushSelectIntoJoin.transform context binding = .ok proposals)
    (member : proposal ∈ proposals) :
    ∃ below type inner outer left right, binding.operator = .logical .select ∧
      childBinding binding 0 = .ok below ∧ below.operator = .logical (.join type) ∧
      type.isInner = true ∧ below.childGroup 2 = .ok inner ∧ binding.childGroup 1 = .ok outer ∧
      below.childGroup 0 = .ok left ∧ below.childGroup 1 = .ok right ∧
      proposal = .node innerJoin [.group left, .group right,
        .conjunction (context.memo.conjuncts inner ++ context.memo.conjuncts outer)] := by
  unfold pushSelectIntoJoin at done
  simp only at done
  split at done
  swap
  · cases pure_eq_ok_iff.1 done
    cases member
  rename_i select
  obtain ⟨below, belowGiven, done⟩ := bind_eq_ok_iff.1 done
  -- Inner and cross joins are treated alike.
  split at done
  case h_3 =>
    cases pure_eq_ok_iff.1 done
    cases member
  all_goals
    rename_i type
    obtain ⟨inner, innerGiven, done⟩ := bind_eq_ok_iff.1 done
    obtain ⟨outer, outerGiven, done⟩ := bind_eq_ok_iff.1 done
    obtain ⟨left, leftGiven, done⟩ := bind_eq_ok_iff.1 done
    obtain ⟨right, rightGiven, done⟩ := bind_eq_ok_iff.1 done
    obtain rfl := pure_eq_ok_iff.1 done
    exact ⟨below, _, inner, outer, left, right, select, lift_fault_eq_ok_iff.1 belowGiven,
      joinType?_eq_some_iff.1 type, rfl, lift_fault_eq_ok_iff.1 innerGiven,
      lift_fault_eq_ok_iff.1 outerGiven, lift_fault_eq_ok_iff.1 leftGiven,
      lift_fault_eq_ok_iff.1 rightGiven, List.mem_singleton.1 member⟩

/-- **A selection above a join** means the join under the conjuncts of both. -/
theorem pushed_means (sound : memo.Sound I) {binding : Binding} {left right predicate selected : GroupId}
    (shows : ShowsJoin I memo binding left right predicate)
    (isPredicate : memo.IsPredicate I selected) :
    Means I memo (.node innerJoin [.group left, .group right,
        .conjunction (memo.conjuncts predicate ++ memo.conjuncts selected)])
      (I.joined [memo.sense I binding.group] [memo.sense I selected]) := by
  obtain ⟨innerAre, innerAlike⟩ := conjuncts_alike sound shows.predicateIs
  obtain ⟨outerAre, outerAlike⟩ := conjuncts_alike sound isPredicate
  have flat : I.joined [memo.sense I binding.group] [memo.sense I selected] =
      I.joined [memo.sense I left, memo.sense I right]
        (memo.senses I (memo.conjuncts predicate ++ memo.conjuncts selected)) := by
    refine (joined_below shows (fun _ none => absurd none List.not_mem_nil)).trans ?_
    rw [senses_append]
    exact joined_congr (innerAlike.symm.append outerAlike.symm)
  have computes : innerJoin.logical? = some (.join .inner) := rfl
  rw [flat]
  exact Means.joinOf computes rfl (meanAll_pair shows.leftIs shows.rightIs)
    (by simpa using ⟨shows.leftIs.2, shows.rightIs.2⟩)
    (List.forall_mem_append.2 ⟨innerAre, outerAre⟩) (by simpa using shows.apart)

theorem pushSelectIntoJoin_faithful : pushSelectIntoJoin.Faithful I := by
  intro context binding proposals coherent drawn done proposal member
  obtain ⟨below, type, inner, outer, left, right, select, belowGiven, operator, isInner, innerGiven,
    outerGiven, leftGiven, rightGiven, rfl⟩ := pushSelectIntoJoin_cases done member
  obtain ⟨id, expr, stored, shown, named, groups, root, _⟩ := drawn.inner rfl
  obtain ⟨_, arity⟩ := Pattern.matchesRoot_logical rfl root
  obtain ⟨drawnBelow, first⟩ := drawn_below drawn rfl belowGiven
  have computes : expr.operator.logical? = some .select := by
    rw [← shown, select]
    rfl
  -- The selection has one relation, which is the group of the join below.
  obtain ⟨sources, selected, shape, relations, isPredicate, _, means⟩ :=
    coherent.sound.joining stored computes rfl
  have one : sources.length = 1 := by
    have counts : (sources ++ [selected]).length = 2 := shape ▸ arity
    simpa using counts
  obtain ⟨source, rfl⟩ := List.length_eq_one_iff.1 one
  rw [groups, shape] at first
  obtain rfl : source = below.group := Option.some.inj first
  have second := Binding.childGroup_ok_iff.1 outerGiven
  rw [groups, shape] at second
  obtain rfl : selected = outer := Option.some.inj second
  obtain ⟨_, _, _, shows⟩ := shows_join coherent.sound drawnBelow rfl rfl operator isInner
  obtain rfl := shows.childGroup_left leftGiven
  obtain rfl := shows.childGroup_right rightGiven
  obtain rfl := shows.childGroup_predicate innerGiven
  rw [named, means]
  exact pushed_means coherent.sound shows isPredicate

/-! ### Regrouping -/

/-- A regrouped join: the conjuncts that go to the new inner join use columns of its inputs only, and
the others stay on the outer join. -/
theorem regroup?_cases {outerConjuncts : List (GroupId × ColumnSet)} {innerConjuncts : List GroupId}
    {stay moved other : GroupId} {movedColumns otherColumns : ColumnSet} {proposal : Proposal}
    (done : regroup? outerConjuncts innerConjuncts stay moved other movedColumns otherColumns =
      some proposal) :
    ∃ pushed kept : List (GroupId × ColumnSet),
      (∀ conjunct, conjunct ∈ pushed ∨ conjunct ∈ kept ↔ conjunct ∈ outerConjuncts) ∧
      (∀ conjunct ∈ pushed, ∀ column, column ∈ conjunct.2 →
        column ∈ movedColumns ∨ column ∈ otherColumns) ∧
      proposal = .node innerJoin [.group stay,
        .node innerJoin [.group moved, .group other, .conjunction (pushed.map (·.1))],
        .conjunction (innerConjuncts ++ kept.map (·.1))] := by
  unfold regroup? at done
  simp only [List.partition_eq_filter_filter] at done
  split at done
  · cases done
  · refine ⟨_, _, fun conjunct => ?_, fun conjunct member column used => ?_,
      (Option.some.inj done).symm⟩
    · simp only [List.mem_filter, Function.comp_apply, Bool.not_eq_true', ← and_or_left]
      exact and_iff_left (Bool.eq_false_or_eq_true _)
    · have belongs := (List.mem_filter.1 member).2
      have all := (Bool.and_eq_true_iff.1 (Bool.and_eq_true_iff.1 belongs).1).1
      simpa using List.all_eq_true.1 all column used

/-- What holds of all conjuncts holds of the ones that are pushed and of the ones that stay. -/
theorem regrouped_all {holds : GroupId → Prop} {pushed kept outer : List (GroupId × ColumnSet)}
    {inner : List GroupId}
    (split : ∀ conjunct, conjunct ∈ pushed ∨ conjunct ∈ kept ↔ conjunct ∈ outer)
    (outers : ∀ conjunct ∈ outer, holds conjunct.1) (inners : ∀ conjunct ∈ inner, holds conjunct) :
    (∀ conjunct ∈ pushed.map (·.1), holds conjunct) ∧
      ∀ conjunct ∈ inner ++ kept.map (·.1), holds conjunct := by
  refine ⟨List.forall_mem_map.2 fun entry listed => ?_,
    List.forall_mem_append.2 ⟨inners, List.forall_mem_map.2 fun entry listed => ?_⟩⟩
  · exact outers entry ((split entry).1 (Or.inl listed))
  · exact outers entry ((split entry).1 (Or.inr listed))

/-- **A regrouped join** means the join of all three relations under all conjuncts. -/
theorem regroup_means {outerConjuncts : List (GroupId × ColumnSet)} {innerConjuncts : List GroupId}
    {stay moved other : GroupId} {movedColumns otherColumns : ColumnSet} {proposal : Proposal}
    (stays : memo.IsRelation I stay) (moves : memo.IsRelation I moved)
    (joins : memo.IsRelation I other)
    (apart : (memo.senses I [stay, moved, other]).Pairwise Apart)
    (movedIs : movedColumns = (memo.sense I moved).scope.columns)
    (otherIs : otherColumns = (memo.sense I other).scope.columns)
    (outer : ∀ conjunct ∈ outerConjuncts, memo.IsPredicate I conjunct.1 ∧
      conjunct.2 = (memo.sense I conjunct.1).scope.free)
    (inner : ∀ conjunct ∈ innerConjuncts, memo.IsPredicate I conjunct)
    (done : regroup? outerConjuncts innerConjuncts stay moved other movedColumns otherColumns =
      some proposal) :
    Means I memo proposal (I.joined (memo.senses I [stay, moved, other])
      (memo.senses I (innerConjuncts ++ outerConjuncts.map (·.1)))) := by
  obtain ⟨pushed, kept, split, covered, rfl⟩ := regroup?_cases done
  have computes : innerJoin.logical? = some (.join .inner) := rfl
  obtain ⟨stayMoved, stayOther, movedOther⟩ : Apart (memo.sense I stay) (memo.sense I moved) ∧
      Apart (memo.sense I stay) (memo.sense I other) ∧
      Apart (memo.sense I moved) (memo.sense I other) := by
    simpa [senses, and_assoc] using apart
  obtain ⟨pushedIs, keptIs⟩ :=
    regrouped_all split (fun conjunct member => (outer conjunct member).1) inner
  let below := I.joined (memo.senses I [moved, other]) (memo.senses I (pushed.map (·.1)))
  have belowMeans : Means I memo (.node innerJoin [.group moved, .group other,
      .conjunction (pushed.map (·.1))]) below := by
    refine Means.joinOf computes rfl (meanAll_pair moves joins) ?_ pushedIs (by simpa using movedOther)
    simpa using ⟨moves.2, joins.2⟩
  -- What is pushed uses columns of the inner join, so none of the relation that stays.
  have belowStay : Apart below (memo.sense I stay) := by
    refine Scope.apart_joined_iff.2 ⟨?_, ?_⟩
    · simpa [senses] using ⟨stayMoved.symm, stayOther.symm⟩
    · intro scope member column used
      simp only [senses, List.map_map, List.mem_map] at member
      obtain ⟨entry, listed, rfl⟩ := member
      have usedIs := (outer entry ((split entry).1 (Or.inl listed))).2
      rcases covered entry listed column (usedIs ▸ used) with inMoved | inOther
      · exact stayMoved.symm.columns column (movedIs ▸ inMoved)
      · exact stayOther.symm.columns column (otherIs ▸ inOther)
  have alike : I.Alike (memo.senses I (pushed.map (·.1)) ++
      memo.senses I (innerConjuncts ++ kept.map (·.1)))
      (memo.senses I (innerConjuncts ++ outerConjuncts.map (·.1))) := by
    refine Alike.of_mem fun condition => ?_
    simp only [senses, List.map_append, List.mem_append, List.map_map, List.mem_map, ← split,
      or_and_right, exists_or]
    exact or_left_comm
  have flat : I.joined [memo.sense I stay, below] (memo.senses I (innerConjuncts ++ kept.map (·.1))) =
      I.joined (memo.senses I [stay, moved, other])
        (memo.senses I (innerConjuncts ++ outerConjuncts.map (·.1))) := calc
    _ = I.joined [below, memo.sense I stay] (memo.senses I (innerConjuncts ++ kept.map (·.1))) :=
      joined_perm (.swap _ _ _) (by simpa using belowStay.symm)
    _ = I.joined (memo.senses I [moved, other] ++ [memo.sense I stay])
        (memo.senses I (pushed.map (·.1)) ++ memo.senses I (innerConjuncts ++ kept.map (·.1))) :=
      joined_joined (by simpa using belowStay)
    _ = I.joined (memo.senses I [stay, moved, other])
        (memo.senses I (pushed.map (·.1)) ++ memo.senses I (innerConjuncts ++ kept.map (·.1))) := by
      refine (joined_perm ?_ apart).symm
      show ([memo.sense I stay] ++ memo.senses I [moved, other]).Perm _
      exact List.perm_append_comm
    _ = _ := joined_congr alike
  rw [← flat]
  refine Means.joinOf computes rfl (.cons (.group stays.1) (.cons belowMeans .nil)) ?_ keptIs
    (by simpa using belowStay.symm)
  simpa using ⟨stays.2, rfl⟩

/-- The conjuncts of a predicate with the columns that they use. -/
theorem usedColumns_all (coherent : context.Coherent I) {predicate : GroupId}
    (isPredicate : context.memo.IsPredicate I predicate) {found : List (GroupId × ColumnSet)}
    (done : (context.memo.conjuncts predicate).mapM (fun conjunct => do
      return (conjunct, ← (usedColumns context conjunct : Except Fault ColumnSet)) :
        GroupId → Except Failure (GroupId × ColumnSet)) = .ok found) :
    (∀ entry ∈ found, context.memo.IsPredicate I entry.1 ∧
      entry.2 = (context.memo.sense I entry.1).scope.free) ∧
    ∀ conjunct, conjunct ∈ found.map (·.1) ↔ conjunct ∈ context.memo.conjuncts predicate := by
  have step : ∀ {conjunct : GroupId} {entry : GroupId × ColumnSet},
      (do return (conjunct, ← (usedColumns context conjunct : Except Fault ColumnSet)) :
        Except Failure (GroupId × ColumnSet)) = .ok entry →
      entry.1 = conjunct ∧ entry.2 = (context.memo.sense I conjunct).scope.free := by
    intro conjunct entry given
    obtain ⟨columns, read, given⟩ := bind_eq_ok_iff.1 given
    have same := pure_eq_ok_iff.1 given
    subst same
    exact ⟨rfl, Context.read_scalar coherent .usedColumns Scope.free id conjunct
      (lift_fault_eq_ok_iff.1 read)⟩
  refine ⟨fun entry member => ?_, fun conjunct => ⟨fun member => ?_, fun member => ?_⟩⟩
  · obtain ⟨conjunct, listed, given⟩ := (mem_mapM_iff done).1 member
    obtain ⟨rfl, used⟩ := step given
    exact ⟨(conjuncts_alike coherent.sound isPredicate).1 _ listed, used⟩
  · obtain ⟨entry, listed, rfl⟩ := List.mem_map.1 member
    obtain ⟨conjunct, inPredicate, given⟩ := (mem_mapM_iff done).1 listed
    exact (step given).1 ▸ inPredicate
  · obtain ⟨entry, listed, given⟩ := exists_mem_of_mapM done member
    exact List.mem_map.2 ⟨entry, listed, (step given).1⟩

section Nested

variable {binding below : Binding} {left right other predicate condition : GroupId}
  (shows : ShowsJoin I memo binding below.group other predicate)
  (showsBelow : ShowsJoin I memo below left right condition)
include shows showsBelow

/-- The three relations of a join above a join are apart from each other. -/
theorem nested_apart : (memo.senses I [left, right, other]).Pairwise Apart := by
  have apartOther := shows.apart
  rw [showsBelow.means] at apartOther
  have both := (Scope.apart_joined_iff.1 apartOther).1
  have leftOther : Apart (memo.sense I left) (memo.sense I other) := both _ (by simp)
  have rightOther : Apart (memo.sense I right) (memo.sense I other) := both _ (by simp)
  simpa [senses, and_assoc] using ⟨showsBelow.apart, leftOther, rightOther⟩

/-- **A join above a join** means the join of the three relations under the conjuncts of both. -/
theorem nested_means (sound : memo.Sound I) {outer : List GroupId}
    (listed : ∀ conjunct, conjunct ∈ outer ↔ conjunct ∈ memo.conjuncts predicate) :
    memo.sense I binding.group = I.joined (memo.senses I [left, right, other])
      (memo.senses I (memo.conjuncts condition ++ outer)) := by
  have outerAlike : I.Alike [memo.sense I predicate] (memo.senses I outer) :=
    (conjuncts_alike sound shows.predicateIs).2.symm.trans
      (senses_alike fun conjunct => (listed conjunct).symm)
  rw [shows.means, joined_below showsBelow (by simpa using shows.apart), senses_append]
  exact joined_congr ((conjuncts_alike sound showsBelow.predicateIs).2.symm.append outerAlike)

end Nested

theorem joinAssociativity_faithful : joinAssociativity.Faithful I := by
  intro context binding proposals coherent drawn done proposal member
  obtain ⟨below, belowGiven, done⟩ := bind_eq_ok_iff.1 done
  obtain ⟨drawnBelow, first⟩ := drawn_below drawn rfl (lift_fault_eq_ok_iff.1 belowGiven)
  by_cases inner : joinType? binding.operator = some .inner ∧ joinType? below.operator = some .inner
  swap
  · have other : (joinType? binding.operator != some .inner ||
        joinType? below.operator != some .inner) = true := by
      simp only [Bool.or_eq_true, bne_iff_ne]
      exact not_and_or.1 inner
    rw [if_pos other] at done
    cases pure_eq_ok_iff.1 done
    cases member
  rw [if_neg (by simp [inner])] at done
  obtain ⟨source, _, _, shows⟩ :=
    shows_join coherent.sound drawn rfl rfl (joinType?_eq_some_iff.1 inner.1) rfl
  obtain ⟨_, _, _, showsBelow⟩ :=
    shows_join coherent.sound drawnBelow rfl rfl (joinType?_eq_some_iff.1 inner.2) rfl
  obtain ⟨left, leftGiven, done⟩ := bind_eq_ok_iff.1 done
  obtain ⟨right, rightGiven, done⟩ := bind_eq_ok_iff.1 done
  obtain ⟨other, otherGiven, done⟩ := bind_eq_ok_iff.1 done
  obtain ⟨leftColumns, leftRead, done⟩ := bind_eq_ok_iff.1 done
  obtain ⟨rightColumns, rightRead, done⟩ := bind_eq_ok_iff.1 done
  obtain ⟨otherColumns, otherRead, done⟩ := bind_eq_ok_iff.1 done
  obtain ⟨predicate, predicateGiven, done⟩ := bind_eq_ok_iff.1 done
  obtain ⟨outerConjuncts, outerRead, done⟩ := bind_eq_ok_iff.1 done
  obtain ⟨condition, conditionGiven, done⟩ := bind_eq_ok_iff.1 done
  have proposed := pure_eq_ok_iff.1 done
  obtain rfl := showsBelow.childGroup_left (lift_fault_eq_ok_iff.1 leftGiven)
  obtain rfl := showsBelow.childGroup_right (lift_fault_eq_ok_iff.1 rightGiven)
  obtain rfl := shows.childGroup_right (lift_fault_eq_ok_iff.1 otherGiven)
  obtain rfl := shows.childGroup_predicate (lift_fault_eq_ok_iff.1 predicateGiven)
  obtain rfl := showsBelow.childGroup_predicate (lift_fault_eq_ok_iff.1 conditionGiven)
  obtain rfl : source = below.group := by
    rw [shows.groups] at first
    exact Option.some.inj first
  have columns : ∀ {id : GroupId} {found : ColumnSet},
      (liftM (outputColumns context id) : Except Failure ColumnSet) = .ok found →
        found = (context.memo.sense I id).scope.columns := fun read =>
    Context.read_relational coherent .outputColumns Scope.columns id _ (lift_fault_eq_ok_iff.1 read)
  obtain ⟨used, listed⟩ := usedColumns_all coherent shows.predicateIs outerRead
  have innerIs := (conjuncts_alike coherent.sound showsBelow.predicateIs).1
  have apart := nested_apart shows showsBelow
  have exchange : (context.memo.senses I [left, right, other]).Perm
      (context.memo.senses I [right, left, other]) := .swap _ _ _
  have flat := nested_means shows showsBelow coherent.sound listed
  rw [← proposed, List.mem_append, Option.mem_toList, Option.mem_toList] at member
  rw [flat]
  rcases member with first | second
  · exact regroup_means showsBelow.leftIs showsBelow.rightIs shows.rightIs apart
      (columns rightRead) (columns otherRead) used innerIs first
  · rw [joined_perm exchange apart]
    exact regroup_means showsBelow.rightIs showsBelow.leftIs shows.rightIs
      (apart.perm exchange Apart.symm) (columns leftRead) (columns otherRead) used innerIs second

end Rule

end Cascades
