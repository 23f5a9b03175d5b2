/-
**Rules that explore gather the same.**

What a rule proposes for a binding holds what the group of the binding holds. Regrouped conjuncts still
lie across the inputs of their join: an outer conjunct that uses columns of the moved and the other
relation only goes to the new inner join, and any other one uses a column of the relation that stays.

* `Rule.Gathering`: a rule whose proposals belong into the group of the binding;
* `Binding.Drawn.accords`: the expression that a binding shows;
* `regroup_gathers`: a regrouped join;
* `joinCommutativity_gathering`, `joinAssociativity_gathering`, `pushSelectIntoJoin_gathering`,
  `Implements.gathering`: the rules for selections and binary joins, and those that implement.
-/

import Cascades.Proofs.Gathering.Gathered
import Cascades.Proofs.Meaning.Implementation
import Mathlib.Tactic.Abel

namespace Cascades

open Memo Interpretation

variable {V : Type} {I : Interpretation V} {strict : Prop} {context : Context} {memo : Memo}

/-- What a rule proposes for a binding belongs into the group of the binding. -/
def Rule.Gathering (I : Interpretation V) (strict : Prop) (rule : Rule) : Prop :=
  ∀ {context : Context} {binding : Binding} {proposals : List Proposal}, context.Coherent I →
    context.memo.Gathered I strict → binding.Drawn context.memo rule.pattern →
      rule.transform context binding = .ok proposals →
        ∀ proposal ∈ proposals, Belongs I strict context.memo binding.group proposal

/-! ### Inputs of joins -/

namespace Memo

variable {sources others : List (Multiset GroupId)} {first second predicate : Multiset GroupId}
  {conjunct : GroupId}

theorem spans_append_iff :
    memo.Spans I (sources ++ [predicate]) ↔ ∀ conjunct ∈ predicate, memo.Across I sources conjunct := by
  constructor
  · rintro ⟨sources, predicate, same, across⟩
    obtain ⟨rfl, last⟩ := List.append_inj' same rfl
    obtain rfl := List.singleton_inj.1 last
    exact across
  · exact fun across => ⟨sources, predicate, rfl, across⟩

/-- A conjunct lies across two inputs. -/
theorem across_pair_iff :
    memo.Across I [first, second] conjunct ↔
      (∀ column, column ∈ (memo.sense I conjunct).scope.free →
        memo.Makes I first column ∨ memo.Makes I second column) ∧
      (∃ column, column ∈ (memo.sense I conjunct).scope.free ∧ ¬ memo.Makes I first column) ∧
      ∃ column, column ∈ (memo.sense I conjunct).scope.free ∧ ¬ memo.Makes I second column := by
  constructor
  · rintro ⟨covered, spread⟩
    exact ⟨by simpa using covered, spread first (by simp), spread second (by simp)⟩
  · rintro ⟨covered, one, two⟩
    exact ⟨by simpa using covered, by simpa using ⟨one, two⟩⟩

theorem Across.swap (across : memo.Across I [first, second] conjunct) :
    memo.Across I [second, first] conjunct := by
  obtain ⟨covered, one, two⟩ := across_pair_iff.1 across
  exact across_pair_iff.2 ⟨fun column used => (covered column used).symm, two, one⟩

/-- No conjunct lies across a single input. -/
theorem not_across_single : ¬ memo.Across I [first] conjunct := by
  rintro ⟨covered, spread⟩
  obtain ⟨column, used, unmade⟩ := spread first (List.mem_singleton.2 rfl)
  obtain ⟨source, among, made⟩ := covered column used
  exact unmade (List.mem_singleton.1 among ▸ made)

/-- **A join of two proposals** under conjuncts that lie across them. -/
theorem Gathers.join {left right : Proposal} {conjuncts : List GroupId}
    (one : Gathers I strict memo left first) (two : Gathers I strict memo right second)
    (each : ∀ conjunct ∈ conjuncts, memo.IsConjunct I conjunct)
    (across : strict → ∀ conjunct ∈ conjuncts, memo.Across I [first, second] conjunct) :
    Gathers I strict memo (.node Rule.innerJoin [left, right, .conjunction conjuncts])
      (first + second + (conjuncts : Multiset GroupId)) := by
  have sum : [first, second, (conjuncts : Multiset GroupId)].sum =
      first + second + (conjuncts : Multiset GroupId) := by
    simp [add_assoc]
  have spans : strict → memo.Spans I ([first, second] ++ [(conjuncts : Multiset GroupId)]) :=
    fun asked => spans_append_iff.2 fun conjunct member => across asked conjunct member
  rw [← sum]
  exact .node (.cons one (.cons two (.cons (gathers_conjunction each) .nil))) rfl
    fun asked _ => spans asked

end Memo

/-! ### Bindings -/

/-- **The expression that a binding shows** is in its group. -/
theorem Binding.Drawn.accords {binding : Binding} {pattern : Pattern}
    (drawn : binding.Drawn memo pattern) (inner : pattern.isLeaf = false)
    (gathered : memo.Gathered I strict) :
    Accords I strict memo binding.group binding.operator
      (binding.childGroups.map memo.contents) := by
  obtain ⟨id, expr, stored, shown, named, groups, _⟩ := drawn.inner inner
  rw [shown, named, groups]
  exact gathered id expr stored

/-- **A physical form** of a bound expression belongs into the group of the expression. -/
theorem Binding.Drawn.belongs {binding : Binding} {pattern : Pattern}
    (drawn : binding.Drawn memo pattern) (inner : pattern.isLeaf = false) (valid : memo.Valid)
    (gathered : memo.Gathered I strict) {operator : PhysicalOp}
    (implemented : binding.operator = .logical operator.logical) :
    Belongs I strict memo binding.group (.overGroups (.physical operator) binding.childGroups) := by
  have accords := drawn.accords inner gathered
  rw [implemented] at accords
  obtain ⟨id, expr, stored, _, _, groups, _⟩ := drawn.inner inner
  have inside : ∀ child ∈ binding.childGroups, child < memo.groups.size := fun child member =>
    valid.childExists stored (groups ▸ member)
  exact .node (.groups inside) ⟨accords.holds, accords.plain, accords.spans⟩

namespace Rule

theorem Implements.gathering {rule : Rule} (implements : rule.Implements)
    (inner : rule.pattern.isLeaf = false) : rule.Gathering I strict := by
  intro context binding proposals coherent gathered drawn done proposal member
  obtain ⟨operator, implemented, rfl⟩ := implements drawn done proposal member
  exact drawn.belongs inner coherent.sound.toValid gathered implemented

/-- **An inner join that a binding shows** holds what its relations and its predicate hold, and the
conjuncts of its predicate lie across its relations. -/
theorem ShowsJoin.gathers (sound : memo.Sound I) {binding : Binding}
    {left right predicate : GroupId} (shows : ShowsJoin I memo binding left right predicate)
    (accords : Accords I strict memo binding.group binding.operator
      (binding.childGroups.map memo.contents)) {type : JoinType}
    (operator : binding.operator = .logical (.join type)) (inner : type.isInner = true) :
    memo.contents binding.group =
        memo.contents left + memo.contents right + memo.contents predicate ∧
      (strict → ∀ conjunct ∈ memo.conjuncts predicate,
        memo.Across I [memo.contents left, memo.contents right] conjunct) := by
  have gathers : (Operator.logical (.join type)).gathers = true := inner
  rw [operator, shows.groups] at accords
  refine ⟨?_, fun asked conjunct member => ?_⟩
  · rw [← accords.holds, Operator.gather_of_gathers gathers]
    simp [add_assoc]
  · have spans : memo.Spans I ([memo.contents left, memo.contents right] ++
        [memo.contents predicate]) := accords.spans asked rfl gathers
    refine spans_append_iff.1 spans conjunct ?_
    rw [← sound.conjuncts_eq shows.predicateIs]
    exact Multiset.mem_coe.2 member

/-! ### Exchange of inputs -/

theorem joinCommutativity_cases {binding : Binding} {proposals : List Proposal} {proposal : Proposal}
    (done : joinCommutativity.transform context binding = .ok proposals)
    (member : proposal ∈ proposals) :
    ∃ type left right predicate, binding.operator = .logical (.join type) ∧ type.isInner = true ∧
      binding.childGroup 0 = .ok left ∧ binding.childGroup 1 = .ok right ∧
      binding.childGroup 2 = .ok predicate ∧
      proposal = .overGroups (.logical (.join type)) [right, left, predicate] := by
  unfold joinCommutativity at done
  simp only at done
  split at done
  · rename_i type operator
    by_cases inner : type.isInner = true
    · rw [if_pos inner] at done
      obtain ⟨right, rightGiven, done⟩ := bind_eq_ok_iff.1 done
      obtain ⟨left, leftGiven, done⟩ := bind_eq_ok_iff.1 done
      obtain ⟨predicate, predicateGiven, done⟩ := bind_eq_ok_iff.1 done
      obtain rfl := pure_eq_ok_iff.1 done
      exact ⟨type, left, right, predicate, joinType?_eq_some_iff.1 operator, inner,
        lift_fault_eq_ok_iff.1 leftGiven, lift_fault_eq_ok_iff.1 rightGiven,
        lift_fault_eq_ok_iff.1 predicateGiven, List.mem_singleton.1 member⟩
    · rw [if_neg inner] at done
      cases pure_eq_ok_iff.1 done
      cases member
  · cases pure_eq_ok_iff.1 done
    cases member

theorem joinCommutativity_gathering : joinCommutativity.Gathering I strict := by
  intro context binding proposals coherent gathered drawn done proposal member
  obtain ⟨type, left, right, predicate, operator, inner, leftGiven, rightGiven, predicateGiven, rfl⟩ :=
    joinCommutativity_cases done member
  obtain ⟨_, _, _, shows⟩ := shows_join coherent.sound drawn rfl rfl operator inner
  obtain rfl := shows.childGroup_left leftGiven
  obtain rfl := shows.childGroup_right rightGiven
  obtain rfl := shows.childGroup_predicate predicateGiven
  obtain ⟨holds, across⟩ :=
    shows.gathers coherent.sound (drawn.accords rfl gathered) operator inner
  have gathers : (Operator.logical (.join type)).gathers = true := inner
  have inside : ∀ child ∈ [right, left, predicate], child < context.memo.groups.size := by
    simpa using ⟨shows.rightIs.1, shows.leftIs.1, shows.predicateIs.1⟩
  refine .node (.groups inside) ⟨?_, Operator.isPlain_of_gathers gathers, fun asked _ _ => ?_⟩
  · rw [Operator.gather_of_gathers gathers, holds]
    simp only [List.map_cons, List.map_nil, List.sum_cons, List.sum_nil]
    abel
  · show context.memo.Spans I ([_, _] ++ [_])
    refine spans_append_iff.2 fun conjunct held => ?_
    rw [← coherent.sound.conjuncts_eq shows.predicateIs] at held
    exact (across asked conjunct (Multiset.mem_coe.1 held)).swap

/-! ### Selections above joins -/

/-- A selection that a binding shows: its relation and its predicate. -/
theorem shows_select (sound : memo.Sound I) {binding : Binding} {patterns : List Pattern}
    (drawn : binding.Drawn memo (.logical .select patterns))
    (single : Pattern.repeatedFirst? patterns = none) (two : patterns.length = 2)
    (operator : binding.operator = .logical .select) :
    ∃ source predicate, binding.childGroups = [source, predicate] ∧ memo.IsRelation I source ∧
      memo.IsPredicate I predicate := by
  obtain ⟨id, expr, stored, shown, _, groups, root, _⟩ := drawn.inner rfl
  obtain ⟨_, arity⟩ := Pattern.matchesRoot_logical single root
  have computes : expr.operator.logical? = some .select := by
    rw [← shown, operator]
    rfl
  obtain ⟨sources, predicate, shape, relations, isPredicate, _⟩ := sound.joining stored computes rfl
  have one : sources.length = 1 := by
    have counts : (sources ++ [predicate]).length = 2 := shape ▸ (arity.trans two)
    simpa using counts
  obtain ⟨source, rfl⟩ := List.length_eq_one_iff.1 one
  exact ⟨source, predicate, groups.trans shape, relations source (List.mem_singleton.2 rfl),
    isPredicate⟩

theorem pushSelectIntoJoin_gathering : pushSelectIntoJoin.Gathering I strict := by
  intro context binding proposals coherent gathered drawn done proposal member
  obtain ⟨below, type, inner, outer, left, right, select, belowGiven, operator, isInner, innerGiven,
    outerGiven, leftGiven, rightGiven, rfl⟩ := pushSelectIntoJoin_cases done member
  obtain ⟨drawnBelow, first⟩ := drawn_below drawn rfl belowGiven
  have sound := coherent.sound
  obtain ⟨_, _, _, shows⟩ := shows_join sound drawnBelow rfl rfl operator isInner
  obtain rfl := shows.childGroup_left leftGiven
  obtain rfl := shows.childGroup_right rightGiven
  obtain rfl := shows.childGroup_predicate innerGiven
  obtain ⟨source, predicate, groups, relation, isPredicate⟩ :=
    shows_select sound drawn rfl rfl select
  have second := Binding.childGroup_ok_iff.1 outerGiven
  rw [groups] at first second
  obtain rfl : source = below.group := Option.some.inj first
  obtain rfl : predicate = outer := Option.some.inj second
  obtain ⟨holdsBelow, across⟩ :=
    shows.gathers sound (drawnBelow.accords rfl gathered) operator isInner
  have accords := drawn.accords rfl gathered
  rw [select, groups] at accords
  have holds : context.memo.contents below.group + context.memo.contents predicate =
      context.memo.contents binding.group := by
    rw [← accords.holds, Operator.gather_of_gathers rfl]
    simp
  -- No conjunct of the selection lies across its only relation.
  have none : strict → ∀ conjunct, conjunct ∉ context.memo.conjuncts predicate := by
    intro asked conjunct member
    have spans : context.memo.Spans I ([context.memo.contents below.group] ++
        [context.memo.contents predicate]) := accords.spans asked rfl rfl
    rw [← Multiset.mem_coe, sound.conjuncts_eq isPredicate] at member
    exact not_across_single (spans_append_iff.1 spans conjunct member)
  have joined := Gathers.join (.group shows.leftIs.1) (.group shows.rightIs.1)
    (List.forall_mem_append.2
      ⟨shows.predicateIs.isConjunct sound, isPredicate.isConjunct sound⟩)
    fun asked conjunct member => (List.mem_append.1 member).elim (across asked conjunct)
      fun outer => absurd outer (none asked conjunct)
  refine joined.belongs ?_
  rw [← holds, holdsBelow, ← Multiset.coe_add, sound.conjuncts_eq shows.predicateIs,
    sound.conjuncts_eq isPredicate]
  abel

/-! ### Regrouping -/

/-- Columns of the moved and the other relation only, and some of each. -/
structure MovesTo (movedColumns otherColumns columns : ColumnSet) : Prop where
  within : ∀ column, column ∈ columns → column ∈ movedColumns ∨ column ∈ otherColumns
  moved : ∃ column, column ∈ columns ∧ column ∈ movedColumns
  other : ∃ column, column ∈ columns ∧ column ∈ otherColumns

/-- The test for conjuncts that move. -/
theorem movesTo_iff {movedColumns otherColumns columns : ColumnSet} :
    ((columns.toList.all fun column => column ∈ movedColumns || column ∈ otherColumns)
      && (columns.toList.any fun column => column ∈ movedColumns)
      && (columns.toList.any fun column => column ∈ otherColumns)) = true ↔
    MovesTo movedColumns otherColumns columns := by
  simp only [Bool.and_eq_true, List.all_eq_true, List.any_eq_true, Bool.or_eq_true,
    decide_eq_true_eq]
  exact ⟨fun ⟨⟨within, moved⟩, other⟩ => ⟨within, moved, other⟩,
    fun moves => ⟨⟨moves.within, moves.moved⟩, moves.other⟩⟩

/-- **A regrouped join** divides the outer conjuncts by the columns that they use. -/
theorem regroup?_divides {outerConjuncts : List (GroupId × ColumnSet)}
    {innerConjuncts : List GroupId} {stay moved other : GroupId}
    {movedColumns otherColumns : ColumnSet} {proposal : Proposal}
    (done : regroup? outerConjuncts innerConjuncts stay moved other movedColumns otherColumns =
      some proposal) :
    ∃ pushed kept : List (GroupId × ColumnSet), pushed ≠ [] ∧ (pushed ++ kept).Perm outerConjuncts ∧
      (∀ entry ∈ pushed, MovesTo movedColumns otherColumns entry.2) ∧
      (∀ entry ∈ kept, ¬ MovesTo movedColumns otherColumns entry.2) ∧
      proposal = .node innerJoin [.group stay,
        .node innerJoin [.group moved, .group other, .conjunction (pushed.map (·.1))],
        .conjunction (innerConjuncts ++ kept.map (·.1))] := by
  unfold regroup? at done
  simp only [List.partition_eq_filter_filter] at done
  split at done
  · cases done
  · rename_i some
    refine ⟨_, _, fun none => some (List.isEmpty_iff.2 none), List.filter_append_perm _ _,
      fun entry member => ?_, fun entry member moves => ?_, (Option.some.inj done).symm⟩
    · exact movesTo_iff.1 (List.mem_filter.1 member).2
    · have stays := (List.mem_filter.1 member).2
      simp [movesTo_iff.2 moves] at stays

/-- There is a regrouped join if some conjunct moves. -/
theorem exists_regroup? {outerConjuncts : List (GroupId × ColumnSet)}
    {innerConjuncts : List GroupId} {stay moved other : GroupId}
    {movedColumns otherColumns : ColumnSet} {entry : GroupId × ColumnSet}
    (member : entry ∈ outerConjuncts) (moves : MovesTo movedColumns otherColumns entry.2) :
    ∃ proposal,
      regroup? outerConjuncts innerConjuncts stay moved other movedColumns otherColumns =
        some proposal := by
  unfold regroup?
  simp only [List.partition_eq_filter_filter]
  split
  · rename_i empty
    exact absurd (movesTo_iff.2 moves) (List.filter_eq_nil_iff.1 (List.isEmpty_iff.1 empty) entry member)
  · exact ⟨_, rfl⟩

section Regroup

variable {stay moved other : GroupId} {conjunct : GroupId} {pushed : List GroupId}
  (sound : memo.Sound I) (stays : memo.IsRelation I stay) (moves : memo.IsRelation I moved)
  (joins : memo.IsRelation I other)
include sound moves joins

/-- A conjunct that moves lies across the relations of the new inner join. -/
theorem MovesTo.across (apart : Apart (memo.sense I moved) (memo.sense I other))
    (moving : MovesTo (memo.sense I moved).scope.columns (memo.sense I other).scope.columns
      (memo.sense I conjunct).scope.free) :
    memo.Across I [memo.contents moved, memo.contents other] conjunct := by
  obtain ⟨within, ⟨first, used, inMoved⟩, ⟨second, usedToo, inOther⟩⟩ := moving
  simp only [across_pair_iff, moves.makes_iff sound, joins.makes_iff sound]
  refine ⟨within, ⟨second, usedToo, fun inside => ?_⟩, ⟨first, used, fun inside => ?_⟩⟩
  · exact apart.columns second inside inOther
  · exact apart.columns first inMoved inside

/-- The new inner join makes the columns of its relations. -/
theorem makes_regrouped (pushedIs : ∀ conjunct ∈ pushed, memo.IsConjunct I conjunct)
    {column : ColumnId} :
    memo.Makes I (memo.contents moved + memo.contents other + (pushed : Multiset GroupId)) column ↔
      column ∈ (memo.sense I moved).scope.columns ∨ column ∈ (memo.sense I other).scope.columns := by
  rw [makes_add, makes_add, moves.makes_iff sound, joins.makes_iff sound,
    or_iff_left (not_makes_conjuncts pushedIs)]

include stays

/-- A conjunct across the relation that stays and the moved one uses a column that only the former
has, so it lies across the regrouped join too. -/
theorem across_regrouped_of_inner (apart : Apart (memo.sense I stay) (memo.sense I other))
    (pushedIs : ∀ conjunct ∈ pushed, memo.IsConjunct I conjunct)
    (across : memo.Across I [memo.contents stay, memo.contents moved] conjunct) :
    memo.Across I [memo.contents stay,
      memo.contents moved + memo.contents other + (pushed : Multiset GroupId)] conjunct := by
  simp only [across_pair_iff, stays.makes_iff sound, moves.makes_iff sound,
    makes_regrouped sound moves joins pushedIs] at across ⊢
  obtain ⟨covered, unstayed, column, used, unmoved⟩ := across
  refine ⟨fun column used => (covered column used).imp_right Or.inl, unstayed, column, used, ?_⟩
  have inStay := (covered column used).resolve_right unmoved
  exact not_or.2 ⟨unmoved, apart.columns column inStay⟩

/-- An outer conjunct that does not move lies across the regrouped join too: it uses a column of the
relation that stays, or none of the moved one. -/
theorem across_regrouped_of_outer {below : Multiset GroupId}
    (belowMakes : ∀ column, memo.Makes I below column ↔
      column ∈ (memo.sense I stay).scope.columns ∨ column ∈ (memo.sense I moved).scope.columns)
    (pushedIs : ∀ conjunct ∈ pushed, memo.IsConjunct I conjunct)
    (staying : ¬ MovesTo (memo.sense I moved).scope.columns (memo.sense I other).scope.columns
      (memo.sense I conjunct).scope.free)
    (across : memo.Across I [below, memo.contents other] conjunct) :
    memo.Across I [memo.contents stay,
      memo.contents moved + memo.contents other + (pushed : Multiset GroupId)] conjunct := by
  simp only [across_pair_iff, belowMakes, stays.makes_iff sound, joins.makes_iff sound,
    makes_regrouped sound moves joins pushedIs, not_or] at across ⊢
  obtain ⟨covered, ⟨first, used, unstayed, unmoved⟩, second, usedToo, unother⟩ := across
  refine ⟨fun column used => or_assoc.1 (covered column used), ⟨first, used, unstayed⟩, ?_⟩
  -- If the new inner join had all columns of the conjunct, the conjunct would move.
  by_contra none
  push Not at none
  refine staying ⟨fun column used => ?_, ⟨second, usedToo, ?_⟩, ⟨first, used, none first used unmoved⟩⟩
  · exact or_iff_not_imp_left.2 (none column used)
  · exact by_contra fun unmovedToo => unother (none second usedToo unmovedToo)

/-- **A regrouped join** gathers what the three relations and all conjuncts hold. -/
theorem regroup_gathers {outerConjuncts : List (GroupId × ColumnSet)}
    {innerConjuncts : List GroupId} {movedColumns otherColumns : ColumnSet} {proposal : Proposal}
    {below : Multiset GroupId} (apart : (memo.senses I [stay, moved, other]).Pairwise Apart)
    (movedIs : movedColumns = (memo.sense I moved).scope.columns)
    (otherIs : otherColumns = (memo.sense I other).scope.columns)
    (outer : ∀ entry ∈ outerConjuncts, memo.IsConjunct I entry.1 ∧
      entry.2 = (memo.sense I entry.1).scope.free)
    (inner : ∀ conjunct ∈ innerConjuncts, memo.IsConjunct I conjunct)
    (belowMakes : ∀ column, memo.Makes I below column ↔
      column ∈ (memo.sense I stay).scope.columns ∨ column ∈ (memo.sense I moved).scope.columns)
    (outerAcross : strict → ∀ entry ∈ outerConjuncts,
      memo.Across I [below, memo.contents other] entry.1)
    (innerAcross : strict → ∀ conjunct ∈ innerConjuncts,
      memo.Across I [memo.contents stay, memo.contents moved] conjunct)
    (done : regroup? outerConjuncts innerConjuncts stay moved other movedColumns otherColumns =
      some proposal) :
    Gathers I strict memo proposal (memo.contents stay + memo.contents moved +
      memo.contents other + (innerConjuncts : Multiset GroupId) +
        (outerConjuncts.map (·.1) : List GroupId)) := by
  obtain ⟨pushed, kept, _, divided, moving, staying, rfl⟩ := regroup?_divides done
  obtain ⟨_, stayOther, movedOther⟩ : Apart (memo.sense I stay) (memo.sense I moved) ∧
      Apart (memo.sense I stay) (memo.sense I other) ∧
      Apart (memo.sense I moved) (memo.sense I other) := by
    simpa [senses, and_assoc] using apart
  subst movedIs otherIs
  have pushedIn : ∀ entry ∈ pushed, entry ∈ outerConjuncts := fun entry member =>
    divided.subset (List.mem_append_left _ member)
  have keptIn : ∀ entry ∈ kept, entry ∈ outerConjuncts := fun entry member =>
    divided.subset (List.mem_append_right _ member)
  have pushedIs : ∀ conjunct ∈ pushed.map (·.1), memo.IsConjunct I conjunct :=
    List.forall_mem_map.2 fun entry member => (outer entry (pushedIn entry member)).1
  have keptIs : ∀ conjunct ∈ kept.map (·.1), memo.IsConjunct I conjunct :=
    List.forall_mem_map.2 fun entry member => (outer entry (keptIn entry member)).1
  have pushedAcross : ∀ conjunct ∈ pushed.map (·.1),
      memo.Across I [memo.contents moved, memo.contents other] conjunct :=
    List.forall_mem_map.2 fun entry member => MovesTo.across sound moves joins movedOther
      ((outer entry (pushedIn entry member)).2 ▸ moving entry member)
  have newInner : Gathers I strict memo _ _ :=
    Gathers.join (.group moves.1) (.group joins.1) pushedIs fun _ => pushedAcross
  have whole := Gathers.join (.group stays.1) newInner (List.forall_mem_append.2 ⟨inner, keptIs⟩)
    fun asked => List.forall_mem_append.2
      ⟨fun conjunct member => across_regrouped_of_inner sound stays moves joins stayOther pushedIs
          (innerAcross asked conjunct member),
        List.forall_mem_map.2 fun entry member =>
          across_regrouped_of_outer sound stays moves joins belowMakes pushedIs
            ((outer entry (keptIn entry member)).2 ▸ staying entry member)
            (outerAcross asked entry (keptIn entry member))⟩
  have all : ((outerConjuncts.map (·.1) : List GroupId) : Multiset GroupId) =
      (pushed.map (·.1) : List GroupId) + (kept.map (·.1) : List GroupId) := by
    rw [Multiset.coe_add, ← List.map_append]
    exact Multiset.coe_eq_coe.2 (divided.map _).symm
  rw [← Multiset.coe_add] at whole
  rw [all]
  convert whole using 1
  abel

end Regroup

/-- What is proposed for an inner join above an inner join. -/
theorem joinAssociativity_cases {binding : Binding} {proposals : List Proposal} {proposal : Proposal}
    (done : joinAssociativity.transform context binding = .ok proposals)
    (member : proposal ∈ proposals) :
    ∃ below left right other predicate condition leftColumns rightColumns otherColumns outer,
      childBinding binding 0 = .ok below ∧ binding.operator = innerJoin ∧
      below.operator = innerJoin ∧ below.childGroup 0 = .ok left ∧ below.childGroup 1 = .ok right ∧
      binding.childGroup 1 = .ok other ∧ binding.childGroup 2 = .ok predicate ∧
      below.childGroup 2 = .ok condition ∧ outputColumns context left = .ok leftColumns ∧
      outputColumns context right = .ok rightColumns ∧
      outputColumns context other = .ok otherColumns ∧
      (context.memo.conjuncts predicate).mapM (fun conjunct => do
        return (conjunct, ← (usedColumns context conjunct : Except Fault ColumnSet)) :
          GroupId → Except Failure (GroupId × ColumnSet)) = .ok outer ∧
      (regroup? outer (context.memo.conjuncts condition) left right other rightColumns otherColumns =
          some proposal ∨
        regroup? outer (context.memo.conjuncts condition) right left other leftColumns otherColumns =
          some proposal) := by
  obtain ⟨below, belowGiven, done⟩ := bind_eq_ok_iff.1 done
  by_cases inner : joinType? binding.operator = some .inner ∧ joinType? below.operator = some .inner
  swap
  · have different : (joinType? binding.operator != some .inner ||
        joinType? below.operator != some .inner) = true := by
      simp only [Bool.or_eq_true, bne_iff_ne]
      exact not_and_or.1 inner
    rw [if_pos different] at done
    cases pure_eq_ok_iff.1 done
    cases member
  rw [if_neg (by simp [inner])] at done
  obtain ⟨left, leftGiven, done⟩ := bind_eq_ok_iff.1 done
  obtain ⟨right, rightGiven, done⟩ := bind_eq_ok_iff.1 done
  obtain ⟨other, otherGiven, done⟩ := bind_eq_ok_iff.1 done
  obtain ⟨leftColumns, leftRead, done⟩ := bind_eq_ok_iff.1 done
  obtain ⟨rightColumns, rightRead, done⟩ := bind_eq_ok_iff.1 done
  obtain ⟨otherColumns, otherRead, done⟩ := bind_eq_ok_iff.1 done
  obtain ⟨predicate, predicateGiven, done⟩ := bind_eq_ok_iff.1 done
  obtain ⟨outer, outerRead, done⟩ := bind_eq_ok_iff.1 done
  obtain ⟨condition, conditionGiven, done⟩ := bind_eq_ok_iff.1 done
  obtain rfl := pure_eq_ok_iff.1 done
  refine ⟨below, left, right, other, predicate, condition, leftColumns, rightColumns, otherColumns,
    outer, lift_fault_eq_ok_iff.1 belowGiven, joinType?_eq_some_iff.1 inner.1,
    joinType?_eq_some_iff.1 inner.2, lift_fault_eq_ok_iff.1 leftGiven,
    lift_fault_eq_ok_iff.1 rightGiven, lift_fault_eq_ok_iff.1 otherGiven,
    lift_fault_eq_ok_iff.1 predicateGiven, lift_fault_eq_ok_iff.1 conditionGiven,
    lift_fault_eq_ok_iff.1 leftRead, lift_fault_eq_ok_iff.1 rightRead,
    lift_fault_eq_ok_iff.1 otherRead, outerRead, ?_⟩
  simpa using member

/-- The conjuncts of a predicate are read with their columns in order. -/
theorem usedColumns_conjuncts {conjuncts : List GroupId} {found : List (GroupId × ColumnSet)}
    (done : conjuncts.mapM (fun conjunct => do
      return (conjunct, ← (usedColumns context conjunct : Except Fault ColumnSet)) :
        GroupId → Except Failure (GroupId × ColumnSet)) = .ok found) :
    found.map (·.1) = conjuncts := by
  have same : List.Forall₂ (fun conjunct entry => conjunct = entry.1) conjuncts found := by
    refine (mapM_eq_ok_iff.1 done).imp fun conjunct entry given => ?_
    obtain ⟨columns, _, given⟩ := bind_eq_ok_iff.1 given
    cases pure_eq_ok_iff.1 given
    rfl
  rw [← List.forall₂_map_right_iff, List.forall₂_eq_eq_eq] at same
  exact same.symm

theorem joinAssociativity_gathering : joinAssociativity.Gathering I strict := by
  intro context binding proposals coherent gathered drawn done proposal member
  obtain ⟨below, left, right, other, predicate, condition, leftColumns, rightColumns, otherColumns,
    outer, belowGiven, operator, operatorBelow, leftGiven, rightGiven, otherGiven, predicateGiven,
    conditionGiven, leftRead, rightRead, otherRead, outerRead, regrouped⟩ :=
    joinAssociativity_cases done member
  obtain ⟨drawnBelow, first⟩ := drawn_below drawn rfl belowGiven
  have sound := coherent.sound
  obtain ⟨source, _, _, shows⟩ := shows_join sound drawn rfl rfl operator rfl
  obtain ⟨_, _, _, showsBelow⟩ := shows_join sound drawnBelow rfl rfl operatorBelow rfl
  obtain rfl := showsBelow.childGroup_left leftGiven
  obtain rfl := showsBelow.childGroup_right rightGiven
  obtain rfl := shows.childGroup_right otherGiven
  obtain rfl := shows.childGroup_predicate predicateGiven
  obtain rfl := showsBelow.childGroup_predicate conditionGiven
  obtain rfl : source = below.group := by
    rw [shows.groups] at first
    exact Option.some.inj first
  obtain ⟨holds, across⟩ := shows.gathers sound (drawn.accords rfl gathered) operator rfl
  obtain ⟨holdsBelow, acrossBelow⟩ :=
    showsBelow.gathers sound (drawnBelow.accords rfl gathered) operatorBelow rfl
  have columns : ∀ {id : GroupId} {found : ColumnSet}, outputColumns context id = .ok found →
      found = (context.memo.sense I id).scope.columns := fun read =>
    Context.read_relational coherent .outputColumns Scope.columns id _ read
  obtain ⟨used, _⟩ := usedColumns_all coherent shows.predicateIs outerRead
  have listed := usedColumns_conjuncts outerRead
  have apart := nested_apart shows showsBelow
  have exchange : (context.memo.senses I [left, right, other]).Perm
      (context.memo.senses I [right, left, other]) := .swap _ _ _
  have conditionIs := showsBelow.predicateIs.isConjunct sound
  have among : ∀ entry ∈ outer, entry.1 ∈ context.memo.conjuncts predicate := fun entry member =>
    listed ▸ List.mem_map.2 ⟨entry, member, rfl⟩
  have conjuncts : ∀ entry ∈ outer, context.memo.IsConjunct I entry.1 ∧
      entry.2 = (context.memo.sense I entry.1).scope.free := fun entry member =>
    ⟨shows.predicateIs.isConjunct sound _ (among entry member), (used entry member).2⟩
  have belowMakes : ∀ column, context.memo.Makes I (context.memo.contents below.group) column ↔
      column ∈ (context.memo.sense I left).scope.columns ∨
        column ∈ (context.memo.sense I right).scope.columns := by
    intro column
    rw [holdsBelow, makes_add, makes_add, showsBelow.leftIs.makes_iff sound,
      showsBelow.rightIs.makes_iff sound, or_iff_left (showsBelow.predicateIs.not_makes sound)]
  rcases regrouped with first | second
  · have gathers : Gathers I strict _ _ _ := regroup_gathers sound showsBelow.leftIs showsBelow.rightIs
      shows.rightIs apart (columns rightRead) (columns otherRead) conjuncts
      conditionIs belowMakes (fun asked entry member => across asked _ (among entry member))
      acrossBelow first
    refine gathers.belongs ?_
    rw [holds, holdsBelow, listed, sound.conjuncts_eq shows.predicateIs,
      sound.conjuncts_eq showsBelow.predicateIs]
    abel
  · have gathers : Gathers I strict _ _ _ := regroup_gathers sound showsBelow.rightIs showsBelow.leftIs
      shows.rightIs (apart.perm exchange Apart.symm) (columns leftRead) (columns otherRead)
      conjuncts conditionIs (fun column => (belowMakes column).trans or_comm)
      (fun asked entry member => across asked _ (among entry member))
      (fun asked conjunct member => (acrossBelow asked conjunct member).swap) second
    refine gathers.belongs ?_
    rw [holds, holdsBelow, listed, sound.conjuncts_eq shows.predicateIs,
      sound.conjuncts_eq showsBelow.predicateIs]
    abel

end Rule

end Cascades
