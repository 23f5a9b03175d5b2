/-
**Every join order.**

A memo that is saturated for commutativity and associativity provides all nestings of the relations of
a tree of inner joins, as far as no join of them is a cross product. The two rules divide the relations
of a group anew in both of the ways in which one division leads to any other.

* `Context.Closed`: a memo that is saturated for both rules;
* `Divided`: a group has an inner join over two given sets; `Divided.exchange`, `Divided.regroup`: the
  two rules, for sets of relations;
* `Joins.divided`: a group that joins some relations has an inner join for every division of them;
* `Joins.provides`: so it provides every nesting without a cross product.
-/

import Cascades.Proofs.Order.Regrouping

namespace Cascades

open Memo

variable {memo : Memo} {context : Context} {same : GroupId → GroupId → Prop}
  {root : GroupId}

/-! ### Predicates on two relations -/

section Apart

variable {relations one two : Finset GroupId} {conjunct first second third fourth : GroupId}

/-- The relations that a predicate is on are known from its columns. -/
theorem Memo.Apart.mem_pair (apart : memo.Apart relations) (inFirst : first ∈ relations)
    (inThird : third ∈ relations) (inFourth : fourth ∈ relations)
    (links : memo.Links conjunct first second) (again : memo.Links conjunct third fourth) :
    first = third ∨ first = fourth := by
  obtain ⟨column, used, there⟩ := links.left
  rcases again.within column used with here | here
  · exact Or.inl (apart first inFirst third inThird column there here)
  · exact Or.inr (apart first inFirst fourth inFourth column there here)

theorem Memo.Apart.mono (apart : memo.Apart relations) (fewer : one ⊆ relations) :
    memo.Apart one := fun first here second there =>
  apart first (fewer here) second (fewer there)

/-- **A predicate on two of some relations** is on the joins of two parts of them just if it is across
the parts. -/
theorem Memo.Apart.links_iff (apart : memo.Apart relations) (inOne : one ⊆ relations)
    (inTwo : two ⊆ relations) (disjoint : Disjoint one two) {moved other : GroupId}
    (movedIs : ∀ column, column ∈ (memo.scope moved).columns ↔
      ∃ relation ∈ one, column ∈ (memo.scope relation).columns)
    (otherIs : ∀ column, column ∈ (memo.scope other).columns ↔
      ∃ relation ∈ two, column ∈ (memo.scope relation).columns)
    (inFirst : first ∈ relations) (inSecond : second ∈ relations)
    (links : memo.Links conjunct first second) :
    memo.Links conjunct moved other ↔ Adjoins (memo.Links conjunct) one two := by
  constructor
  · rintro ⟨within, ⟨column, used, inMoved⟩, ⟨beside, usedToo, inOther⟩⟩
    obtain ⟨low, inLow, lowHas⟩ := (movedIs column).1 inMoved
    obtain ⟨high, inHigh, highHas⟩ := (otherIs beside).1 inOther
    -- The two relations are those that the predicate is on, one in each part.
    have lowIs : low = first ∨ low = second := (links.within column used).imp
      (apart low (inOne inLow) first inFirst column lowHas)
      (apart low (inOne inLow) second inSecond column lowHas)
    have highIs : high = first ∨ high = second := (links.within beside usedToo).imp
      (apart high (inTwo inHigh) first inFirst beside highHas)
      (apart high (inTwo inHigh) second inSecond beside highHas)
    have different : low ≠ high := fun equal =>
      Finset.disjoint_left.1 disjoint inLow (equal ▸ inHigh)
    rcases lowIs with rfl | rfl <;> rcases highIs with rfl | rfl
    · exact absurd rfl different
    · exact ⟨low, inLow, high, inHigh, links⟩
    · exact ⟨low, inLow, high, inHigh, links.symm⟩
    · exact absurd rfl different
  · rintro ⟨low, inLow, high, inHigh, links⟩
    refine ⟨fun column used => ?_, ?_, ?_⟩
    · exact (links.within column used).imp (fun has => (movedIs column).2 ⟨low, inLow, has⟩)
        fun has => (otherIs column).2 ⟨high, inHigh, has⟩
    · obtain ⟨column, used, has⟩ := links.left
      exact ⟨column, used, (movedIs column).2 ⟨low, inLow, has⟩⟩
    · obtain ⟨column, used, has⟩ := links.right
      exact ⟨column, used, (otherIs column).2 ⟨high, inHigh, has⟩⟩

section Within

variable {set : Finset GroupId} (within : memo.Within conjunct set) (apart : memo.Apart relations)
  (inSet : set ⊆ relations)
include within apart inSet

/-- A predicate on two of some relations is on no other one. -/
theorem Memo.Within.not_links {first second : GroupId} (inFirst : first ∈ relations)
    (away : first ∉ set) : ¬ memo.Links conjunct first second := by
  intro links
  obtain ⟨third, here, fourth, there, _, again⟩ := within
  rcases apart.mem_pair inFirst (inSet here) (inSet there) links again with rfl | rfl
  · exact away here
  · exact away there

variable (inTwo : two ⊆ relations) (away : Disjoint set two)
include inTwo away

theorem Memo.Within.not_adjoins : ¬ Adjoins (memo.Links conjunct) one two := by
  rintro ⟨_, _, second, inside, links⟩
  exact within.not_links apart inSet (inTwo inside) (Finset.disjoint_right.1 away inside) links.symm

theorem Memo.Within.not_within : ¬ memo.Within conjunct two := by
  rintro ⟨first, inside, _, _, _, links⟩
  exact within.not_links apart inSet (inTwo inside) (Finset.disjoint_right.1 away inside) links

end Within

end Apart

/-! ### Divisions of a group -/

/-- **A memo that is saturated for both rules** below a root, where some groups count as one. -/
structure Context.Closed (context : Context) (same : GroupId → GroupId → Prop) (root : GroupId) :
    Prop where
  formed : ∃ breadth, context.memo.Formed breadth
  holds : context.memo.Holds
  exact : context.Exact
  merging : context.memo.Merging same
  exchanges : context.Saturated same root Rule.joinCommutativity
  regroups : context.Saturated same root Rule.joinAssociativity

/-- **A group has an inner join over two sets** of relations, under all predicates across them. -/
def Divided (context : Context) (same : GroupId → GroupId → Prop) (given : GroupId → Prop)
    (id : GroupId) (one two : Finset GroupId) : Prop :=
  ∃ left right predicate, context.memo.HasJoin same id left right predicate ∧
    context.memo.Joins same given left one ∧
    context.memo.Joins same given right two ∧
    ∀ conjunct, conjunct ∈ context.memo.conjuncts predicate ↔
      given conjunct ∧ Adjoins (context.memo.Links conjunct) one two

section Closed

variable (closed : context.Closed same root) {given : GroupId → Prop} {id : GroupId}
  {one two stay moved other whole : Finset GroupId}

theorem Memo.LeadsTo.left {breadth : GroupId → Breadth} (leads : memo.LeadsTo same root id)
    (formed : memo.Formed breadth) (merging : memo.Merging same) {left right predicate : GroupId}
    (has : memo.HasJoin same id left right predicate) :
    memo.LeadsTo same root left ∧ memo.LeadsTo same root right := by
  obtain ⟨leftIs, rightIs, _⟩ := has.families formed.toValid formed.laid
  obtain ⟨number, expr, stored, operator, children, is⟩ := has
  have child : ∀ {child : GroupId}, child ∈ [left, right, predicate] → memo.Relational child →
      memo.LeadsTo same root child := fun member relational => by
    refine .input stored (leads.of_same merging is) (List.mem_filter.2 ⟨children ▸ member, ?_⟩)
      (merging.refl _)
    rw [(relational_iff.1 relational).2]
    rfl
  exact ⟨child (by simp) leftIs, child (by simp) rightIs⟩

include closed

/-- The sides of a division can be exchanged. -/
theorem Divided.exchange (leads : context.memo.LeadsTo same root id)
    (divided : Divided context same given id one two) : Divided context same given id two one := by
  obtain ⟨left, right, predicate, has, first, second, conjuncts⟩ := divided
  obtain ⟨breadth, formed⟩ := closed.formed
  obtain ⟨low, high, across, again, lowIs, highIs, alike⟩ :=
    closed.exchanges.exchange formed closed.merging leads has
  refine ⟨low, high, across, again, second.of_same closed.merging lowIs,
    first.of_same closed.merging highIs, fun conjunct => ?_⟩
  rw [alike.mem_iff, conjuncts]
  exact and_congr_right fun _ => ⟨Adjoins.symm Links.symm, Adjoins.symm Links.symm⟩

/-- **The conjuncts of a regrouped join**: those of the upper join that are across what is moved and the
other input go to the new inner join, all others and those of the lower join stay. -/
structure Regrouped (memo : Memo) (below : GroupId → Prop) (stay moved other : Finset GroupId)
    (predicate inner outer : GroupId) : Prop where
  inner_iff : ∀ conjunct, conjunct ∈ memo.conjuncts inner ↔
    conjunct ∈ memo.conjuncts predicate ∧ Adjoins (memo.Links conjunct) moved other
  outer_iff : ∀ conjunct, conjunct ∈ memo.conjuncts outer ↔
    (below conjunct ∧ Adjoins (memo.Links conjunct) stay moved) ∨
      (conjunct ∈ memo.conjuncts predicate ∧ ¬ Adjoins (memo.Links conjunct) moved other)

/-- **A join over a divided input can be regrouped**, where some conjunct is across the part that is
moved and the other input. -/
theorem Context.Closed.regroup {below beside : GroupId → Prop} {upper right predicate witness : GroupId}
    (leads : context.memo.LeadsTo same root id)
    (has : context.memo.HasJoin same id upper right predicate)
    (split : Divided context same below upper stay moved)
    (second : context.memo.Joins same beside right other)
    (apart : context.memo.Apart (stay ∪ moved ∪ other)) (disjoint : Disjoint moved other)
    (each : ∀ conjunct ∈ context.memo.conjuncts predicate,
      context.memo.Within conjunct (stay ∪ moved ∪ other))
    (listed : witness ∈ context.memo.conjuncts predicate)
    (across : Adjoins (context.memo.Links witness) moved other) :
    ∃ low lower outer high last inner, context.memo.HasJoin same id low lower outer ∧
      context.memo.HasJoin same lower high last inner ∧
      context.memo.Joins same below low stay ∧
      context.memo.Joins same below high moved ∧
      context.memo.Joins same beside last other ∧
      Regrouped context.memo below stay moved other predicate inner outer := by
  obtain ⟨breadth, formed⟩ := closed.formed
  have merging := closed.merging
  obtain ⟨left, middle, condition, lower, stays, moves, conditions⟩ := split
  have inMoved : moved ⊆ stay ∪ moved ∪ other :=
    Finset.subset_union_right.trans Finset.subset_union_left
  have links_iff : ∀ conjunct ∈ context.memo.conjuncts predicate,
      (context.memo.Links conjunct middle right ↔
        Adjoins (context.memo.Links conjunct) moved other) := by
    intro conjunct listed
    obtain ⟨_, here, _, there, _, links⟩ := each conjunct listed
    exact apart.links_iff inMoved Finset.subset_union_right disjoint
      (moves.columns formed merging closed.holds) (second.columns formed merging closed.holds) here there
      links
  obtain ⟨low, below', outer, high, last, inner, pushed, kept, again, belowAgain, lowIs, highIs, lastIs,
    parts, moving, staying, innerIs, outerIs⟩ :=
    closed.regroups.regroup formed merging closed.holds closed.exact leads has lower listed
      ((links_iff witness listed).2 across)
  have pushed_iff : ∀ conjunct, conjunct ∈ pushed ↔ conjunct ∈ context.memo.conjuncts predicate ∧
      Adjoins (context.memo.Links conjunct) moved other := by
    refine fun conjunct => ⟨fun push => ?_, fun ⟨listed, across⟩ => ?_⟩
    · have listed := parts.subset (List.mem_append_left _ push)
      exact ⟨listed, (links_iff conjunct listed).1 (moving conjunct push)⟩
    · exact (List.mem_append.1 (parts.mem_iff.2 listed)).resolve_right fun keep =>
        staying conjunct keep ((links_iff conjunct listed).2 across)
  have kept_iff : ∀ conjunct, conjunct ∈ kept ↔ conjunct ∈ context.memo.conjuncts predicate ∧
      ¬ Adjoins (context.memo.Links conjunct) moved other := by
    refine fun conjunct => ⟨fun keep => ?_, fun ⟨listed, within⟩ => ?_⟩
    · have listed := parts.subset (List.mem_append_right _ keep)
      exact ⟨listed, fun across => staying conjunct keep ((links_iff conjunct listed).2 across)⟩
    · exact (List.mem_append.1 (parts.mem_iff.2 listed)).resolve_left fun push =>
        within ((pushed_iff conjunct).1 push).2
  refine ⟨low, below', outer, high, last, inner, again, belowAgain, stays.of_same merging lowIs,
    moves.of_same merging highIs, second.of_same merging lastIs, fun conjunct => ?_,
    fun conjunct => ?_⟩
  · rw [innerIs.mem_iff, pushed_iff]
  · rw [outerIs.mem_iff, List.mem_append, conditions, kept_iff]

/-- **A part of the left side can be moved to the right side**, if the left input is divided accordingly
and a predicate is across what is moved and the right side. -/
theorem Divided.regroup (leads : context.memo.LeadsTo same root id)
    (apart : context.memo.Apart (stay ∪ moved ∪ other))
    (beside : Disjoint (stay ∪ moved) other) (between : Disjoint stay moved)
    (split : ∀ {left : GroupId}, context.memo.LeadsTo same root left →
      context.memo.Joins same given left (stay ∪ moved) →
        Divided context same given left stay moved)
    (adjoins : Adjoins (context.memo.LinkedBy given) moved other)
    (divided : Divided context same given id (stay ∪ moved) other) :
    Divided context same given id stay (moved ∪ other) := by
  obtain ⟨upper, right, predicate, has, first, second, conjuncts⟩ := divided
  obtain ⟨breadth, formed⟩ := closed.formed
  have movedBeside : Disjoint moved other := beside.mono_left Finset.subset_union_right
  obtain ⟨here, inHere, there, inThere, witness, known, links⟩ := adjoins
  have listed : witness ∈ context.memo.conjuncts predicate :=
    (conjuncts witness).2 ⟨known, here, Finset.mem_union_right _ inHere, there, inThere, links⟩
  obtain ⟨low, lower, outer, high, last, inner, again, below, stays, moves, rest, regrouped⟩ :=
    closed.regroup leads has (split (leads.left formed closed.merging has).1 first) second apart
      movedBeside (fun conjunct listed => within_of_adjoins beside ((conjuncts conjunct).1 listed).2)
      listed ⟨here, inHere, there, inThere, links⟩
  refine ⟨low, lower, outer, again, stays, ?_, fun conjunct => ?_⟩
  · refine .join below moves rest movedBeside ⟨here, inHere, there, inThere, witness, known, links⟩
      fun conjunct => ?_
    rw [regrouped.inner_iff, conjuncts, and_assoc, and_congr_right_iff]
    exact fun _ => and_iff_right_of_imp fun across =>
      across.mono Finset.subset_union_right (Finset.Subset.refl _)
  · rw [regrouped.outer_iff, conjuncts, and_assoc, ← and_or_left, and_congr_right_iff]
    refine fun _ => ⟨?_, ?_⟩
    · rintro (⟨first, inFirst, second, inSecond, links⟩ |
        ⟨⟨first, inFirst, second, inSecond, links⟩, keep⟩)
      · exact ⟨first, inFirst, second, Finset.mem_union_left _ inSecond, links⟩
      · have stayed : first ∈ stay := (Finset.mem_union.1 inFirst).resolve_right fun inside =>
          keep ⟨first, inside, second, inSecond, links⟩
        exact ⟨first, stayed, second, Finset.mem_union_right _ inSecond, links⟩
    · rintro ⟨first, inFirst, second, inSecond, links⟩
      rcases Finset.mem_union.1 inSecond with inside | inside
      · exact Or.inl ⟨first, inFirst, second, inside, links⟩
      refine Or.inr ⟨⟨first, Finset.mem_union_left _ inFirst, second, inside, links⟩, ?_⟩
      -- A predicate across what stays and the right side is not across what is moved.
      have stayBeside : Disjoint stay other := beside.mono_left Finset.subset_union_left
      have across : context.memo.Within conjunct (stay ∪ other) :=
        within_of_adjoins stayBeside ⟨first, inFirst, second, inside, links⟩
      refine fun crossing => across.not_adjoins apart ?_ (Finset.subset_union_right.trans
        Finset.subset_union_left) (Finset.disjoint_union_left.2 ⟨between, movedBeside.symm⟩)
        (crossing.symm Links.symm)
      exact Finset.union_subset_union_left Finset.subset_union_left

/-- **A group that joins some relations** has an inner join for every division of them. -/
theorem Memo.Joins.divided (leads : context.memo.LeadsTo same root id)
    (joins : context.memo.Joins same given id whole)
    (apart : context.memo.Apart whole)
    (goal : Divides (context.memo.LinkedBy given) whole one two) :
    Divided context same given id one two := by
  induction size : whole.card using Nat.strongRecOn generalizing id whole one two with
  | ind count ih =>
    let reached (left right : Finset GroupId) : Prop :=
      Divides (context.memo.LinkedBy given) whole left right ∧
        Divided context same given id left right
    obtain ⟨left, right, start⟩ : ∃ left right, reached left right := by
      cases joins with
      | relation =>
        have several : one.card + two.card = 1 := by
          rw [← Finset.card_union_of_disjoint goal.disjoint, goal.union, Finset.card_singleton]
        have first := goal.left.nonempty.card_pos
        have second := goal.right.nonempty.card_pos
        omega
      | join has first second disjoint adjoins conjuncts =>
        exact ⟨_, _, ⟨first.connected, second.connected, disjoint, rfl, adjoins⟩, _, _, _, has, first,
          second, conjuncts⟩
    refine (goal.reaches LinkedBy.symm (fun {_ _} now => now.1) ?_ ?_ start).2
    · rintro left right ⟨now, divided⟩
      exact ⟨now.symm LinkedBy.symm, divided.exchange closed leads⟩
    · rintro stay moved other ⟨now, divided⟩ between stays moves adjoins
      have smaller : (stay ∪ moved).card < count := by
        rw [← size, ← now.union, Finset.card_union_of_disjoint now.disjoint]
        exact Nat.lt_add_of_pos_right now.right.nonempty.card_pos
      have fewer : stay ∪ moved ⊆ whole := now.union ▸ Finset.subset_union_left
      have part : Divides (context.memo.LinkedBy given) (stay ∪ moved) stay moved :=
        now.left.divides stays moves between
      refine ⟨now.move LinkedBy.symm part adjoins, divided.regroup closed leads (now.union ▸ apart)
        now.disjoint between (fun below joins => ?_) adjoins⟩
      exact ih _ smaller below joins (apart.mono fewer) part rfl

/-- **Every nesting without a cross product is provided** by a group that joins its relations. -/
theorem Memo.Joins.provides {nesting : Nesting} (leads : context.memo.LeadsTo same root id)
    (joins : context.memo.Joins same given id nesting.whole)
    (apart : context.memo.Apart nesting.whole) (nodup : nesting.relations.Nodup)
    (crossless : nesting.Crossless (context.memo.LinkedBy given)) :
    context.memo.Provides same id nesting := by
  induction nesting generalizing id with
  | relation relation => exact .relation (joins.is_of_single (List.toFinset_cons.trans (by simp)))
  | join left right low high =>
    obtain ⟨first, second, adjoins⟩ := crossless
    obtain ⟨nodupLeft, nodupRight, disjoint⟩ := Nesting.disjoint_of_nodup nodup
    obtain ⟨_, _, _, has, joinsLeft, joinsRight, _⟩ := joins.divided closed leads apart
      ⟨first.connected LinkedBy.symm, second.connected LinkedBy.symm, disjoint, Nesting.whole_join.symm,
        adjoins⟩
    obtain ⟨breadth, formed⟩ := closed.formed
    obtain ⟨leadsLeft, leadsRight⟩ := leads.left formed closed.merging has
    rw [Nesting.whole_join] at apart
    exact .join has
      (low leadsLeft joinsLeft (apart.mono Finset.subset_union_left) nodupLeft first)
      (high leadsRight joinsRight (apart.mono Finset.subset_union_right) nodupRight second)

end Closed

end Cascades
