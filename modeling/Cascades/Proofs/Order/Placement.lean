/-
**Predicates find their place.**

A tree of inner joins may apply a predicate above the join that first has both its relations. In a memo
that is saturated for commutativity and associativity there is another tree then: a join with such a
stray predicate above two parts of one input is regrouped, so that one part stays and the predicate lies
across both sides. So a group that begins a tree joins its relations, and each join applies all
predicates across its sides.

* `Loose`: a join of two sets of relations with strays among its conjuncts;
* `Loose.place`: one stray less; `Loose.joins`: none is left;
* `Nests.joins`: the group of a tree joins the relations of the tree;
* `Nests.provides`: **it provides every nesting of them without a cross product**.
-/

import Cascades.Proofs.Order.Completeness

namespace Cascades

open Memo

variable {memo : Memo} {context : Context} {same : GroupId → GroupId → Prop}
  {root id : GroupId} {one two : Finset GroupId} {conjunct : GroupId}

/-! ### Predicates within sets -/

/-- A predicate on two relations of two parts is within a part or across them. -/
theorem Memo.Within.cases (within : memo.Within conjunct (one ∪ two)) :
    memo.Within conjunct one ∨ memo.Within conjunct two ∨
      Adjoins (memo.Links conjunct) one two := by
  obtain ⟨first, here, second, there, different, links⟩ := within
  rcases Finset.mem_union.1 here with left | right <;> rcases Finset.mem_union.1 there with low | high
  · exact Or.inl ⟨first, left, second, low, different, links⟩
  · exact Or.inr (Or.inr ⟨first, left, second, high, links⟩)
  · exact Or.inr (Or.inr ⟨second, low, first, right, links.symm⟩)
  · exact Or.inr (Or.inl ⟨first, right, second, high, different, links⟩)

/-! ### Strays -/

/-- The conjuncts of a join of two sets of relations and of the two inputs. -/
def Conjuncts (memo : Memo) (below beside : GroupId → Prop) (predicate conjunct : GroupId) : Prop :=
  below conjunct ∨ beside conjunct ∨ conjunct ∈ memo.conjuncts predicate

/-- **A join of two sets of relations**, each joined by a group, whose conjuncts are on two relations of
the sets. One of them is across the sets. -/
structure Loose (context : Context) (same : GroupId → GroupId → Prop) (id : GroupId)
    (one two : Finset GroupId) (below beside : GroupId → Prop) (left right predicate : GroupId) :
    Prop where
  has : context.memo.HasJoin same id left right predicate
  first : context.memo.Joins same below left one
  second : context.memo.Joins same beside right two
  disjoint : Disjoint one two
  apart : context.memo.Apart (one ∪ two)
  low : ∀ conjunct, below conjunct → context.memo.Within conjunct one
  high : ∀ conjunct, beside conjunct → context.memo.Within conjunct two
  each : ∀ conjunct ∈ context.memo.conjuncts predicate,
    context.memo.Within conjunct (one ∪ two)
  across : ∃ conjunct ∈ context.memo.conjuncts predicate,
    Adjoins (context.memo.Links conjunct) one two

/-- The conjuncts of a predicate that are not across two sets of relations. -/
def strays (context : Context) (one two : Finset GroupId) (predicate : GroupId) :
    Finset GroupId :=
  (context.memo.conjuncts predicate).toFinset.filter fun conjunct =>
    ¬ Adjoins (context.memo.Links conjunct) one two

theorem mem_strays {predicate : GroupId} : conjunct ∈ strays context one two predicate ↔
    conjunct ∈ context.memo.conjuncts predicate ∧
      ¬ Adjoins (context.memo.Links conjunct) one two := by
  simp [strays]

namespace Regrouped

variable {below beside : GroupId → Prop} {stay moved : Finset GroupId} {predicate inner outer : GroupId}
  (regrouped : Regrouped context.memo below stay moved two predicate inner outer)
include regrouped

/-- A stray that is across what stays and what is moved is none any more. -/
theorem strays_ssubset (listed : conjunct ∈ context.memo.conjuncts predicate)
    (stray : ¬ Adjoins (context.memo.Links conjunct) (stay ∪ moved) two)
    (split : Adjoins (context.memo.Links conjunct) stay moved) :
    strays context stay (moved ∪ two) outer ⊂ strays context (stay ∪ moved) two predicate := by
  have kept : stay ⊆ stay := Finset.Subset.refl stay
  refine (Finset.ssubset_iff_of_subset fun other there => ?_).2
    ⟨conjunct, mem_strays.2 ⟨listed, stray⟩, fun there =>
      (mem_strays.1 there).2 (split.mono kept Finset.subset_union_left)⟩
  obtain ⟨there, astray⟩ := mem_strays.1 there
  rcases (regrouped.outer_iff other).1 there with ⟨_, across⟩ | ⟨listed, keep⟩
  · exact absurd (across.mono kept Finset.subset_union_left) astray
  refine mem_strays.2 ⟨listed, ?_⟩
  rintro ⟨first, here, second, there, links⟩
  rcases Finset.mem_union.1 here with inside | inside
  · exact astray ⟨first, inside, second, Finset.mem_union_right _ there, links⟩
  · exact keep ⟨first, inside, second, there, links⟩

/-- The conjuncts of a regrouped join are those of the join. -/
theorem conjuncts_iff (low : ∀ conjunct, below conjunct → context.memo.Within conjunct (stay ∪ moved))
    (conjunct : GroupId) :
    Conjuncts context.memo (fun conjunct => below conjunct ∧ context.memo.Within conjunct stay)
        (Conjuncts context.memo (fun conjunct => below conjunct ∧ context.memo.Within conjunct moved)
          beside inner) outer conjunct ↔
      Conjuncts context.memo below beside predicate conjunct := by
  constructor
  · rintro (⟨known, _⟩ | (⟨known, _⟩ | known | there) | there)
    · exact Or.inl known
    · exact Or.inl known
    · exact Or.inr (Or.inl known)
    · exact Or.inr (Or.inr ((regrouped.inner_iff conjunct).1 there).1)
    · rcases (regrouped.outer_iff conjunct).1 there with ⟨known, _⟩ | ⟨listed, _⟩
      · exact Or.inl known
      · exact Or.inr (Or.inr listed)
  · rintro (known | known | listed)
    · rcases (low conjunct known).cases with within | within | across
      · exact Or.inl ⟨known, within⟩
      · exact Or.inr (Or.inl (Or.inl ⟨known, within⟩))
      · exact Or.inr (Or.inr ((regrouped.outer_iff conjunct).2 (Or.inl ⟨known, across⟩)))
    · exact Or.inr (Or.inl (Or.inr (Or.inl known)))
    · by_cases across : Adjoins (context.memo.Links conjunct) moved two
      · exact Or.inr (Or.inl (Or.inr (Or.inr ((regrouped.inner_iff conjunct).2 ⟨listed, across⟩))))
      · exact Or.inr (Or.inr ((regrouped.outer_iff conjunct).2 (Or.inr ⟨listed, across⟩)))

end Regrouped

namespace Loose

variable {below beside : GroupId → Prop} {left right predicate : GroupId}
  (loose : Loose context same id one two below beside left right predicate)
include loose

theorem not_within (within : context.memo.Within conjunct one) :
    ¬ context.memo.Within conjunct two :=
  within.not_within loose.apart Finset.subset_union_left Finset.subset_union_right loose.disjoint

theorem not_across (within : context.memo.Within conjunct one) :
    ¬ Adjoins (context.memo.Links conjunct) one two :=
  within.not_adjoins loose.apart Finset.subset_union_left Finset.subset_union_right loose.disjoint

theorem not_across' (within : context.memo.Within conjunct two) :
    ¬ Adjoins (context.memo.Links conjunct) one two := fun across =>
  within.not_adjoins loose.apart Finset.subset_union_right Finset.subset_union_left loose.disjoint.symm
    (across.symm Links.symm)

/-- **Without strays** the group joins both sets. -/
theorem joins_of_across (all : ∀ conjunct ∈ context.memo.conjuncts predicate,
      Adjoins (context.memo.Links conjunct) one two) :
    context.memo.Joins same (Conjuncts context.memo below beside predicate) id (one ∪ two) := by
  have onLeft : ∀ conjunct, context.memo.Within conjunct one →
      (below conjunct ↔ Conjuncts context.memo below beside predicate conjunct) := by
    refine fun conjunct within => ⟨Or.inl, ?_⟩
    rintro (known | known | listed)
    · exact known
    · exact absurd (loose.high conjunct known) (loose.not_within within)
    · exact absurd (all conjunct listed) (loose.not_across within)
  have onRight : ∀ conjunct, context.memo.Within conjunct two →
      (beside conjunct ↔ Conjuncts context.memo below beside predicate conjunct) := by
    refine fun conjunct within => ⟨fun known => Or.inr (Or.inl known), ?_⟩
    rintro (known | known | listed)
    · exact absurd within (loose.not_within (loose.low conjunct known))
    · exact known
    · exact absurd (all conjunct listed) (loose.not_across' within)
  refine .join loose.has (loose.first.congr onLeft) (loose.second.congr onRight) loose.disjoint ?_
    fun conjunct => ⟨fun listed => ⟨Or.inr (Or.inr listed), all conjunct listed⟩, ?_⟩
  · obtain ⟨conjunct, listed, first, here, second, there, links⟩ := loose.across
    exact ⟨first, here, second, there, conjunct, Or.inr (Or.inr listed), links⟩
  · rintro ⟨known | known | listed, across⟩
    · exact absurd across (loose.not_across (loose.low conjunct known))
    · exact absurd across (loose.not_across' (loose.high conjunct known))
    · exact listed

/-- The inputs of the join can be exchanged. -/
theorem exchange (closed : context.Closed same root) (leads : context.memo.LeadsTo same root id) :
    ∃ low high across, Loose context same id two one beside below low high across ∧
      (context.memo.conjuncts across).Perm (context.memo.conjuncts predicate) := by
  obtain ⟨breadth, formed⟩ := closed.formed
  obtain ⟨low, high, across, has, lowIs, highIs, alike⟩ :=
    closed.exchanges.exchange formed closed.merging leads loose.has
  refine ⟨low, high, across, ⟨has, loose.second.of_same closed.merging lowIs,
    loose.first.of_same closed.merging highIs, loose.disjoint.symm, ?_, loose.high, loose.low,
    fun conjunct listed => ?_, ?_⟩, alike⟩
  · rw [Finset.union_comm]
    exact loose.apart
  · rw [Finset.union_comm]
    exact loose.each conjunct (alike.mem_iff.1 listed)
  · obtain ⟨conjunct, listed, adjoins⟩ := loose.across
    exact ⟨conjunct, alike.mem_iff.2 listed, adjoins.symm Links.symm⟩

/-- A stray within the left side divides it, so that some conjunct is across one part and the right
side. -/
theorem exists_parts (within : context.memo.Within conjunct one) :
    ∃ stay moved, one = stay ∪ moved ∧
      Divides (context.memo.LinkedBy below) (stay ∪ moved) stay moved ∧
      Adjoins (context.memo.Links conjunct) stay moved ∧
      ∃ witness ∈ context.memo.conjuncts predicate,
        Adjoins (context.memo.Links witness) moved two := by
  obtain ⟨first, here, second, there, different, links⟩ := within
  have connected := loose.first.connected
  obtain ⟨component, among, seeded, joined, rest⟩ := connected.exists_component LinkedBy.symm
    (Finset.singleton_subset_iff.2 here) (.single first) there
    (fun same => different (Finset.mem_singleton.1 same).symm)
  have outside : first ∈ one \ component := Finset.mem_sdiff.2
    ⟨here, fun inside => (Finset.mem_sdiff.1 (among inside)).2 (Finset.mem_singleton_self first)⟩
  have whole : one \ component ∪ component = one :=
    Finset.sdiff_union_of_subset (among.trans Finset.sdiff_subset)
  have parts : Divides (context.memo.LinkedBy below) (one \ component ∪ component)
      (one \ component) component :=
    (whole.symm ▸ connected).divides rest joined Finset.sdiff_disjoint
  obtain ⟨witness, listed, near, inOne, far, inTwo, crossing⟩ := loose.across
  by_cases inside : near ∈ component
  · exact ⟨one \ component, component, whole.symm, parts, ⟨first, outside, second, seeded, links⟩,
      witness, listed, near, inside, far, inTwo, crossing⟩
  · refine ⟨component, one \ component, ((Finset.union_comm _ _).trans whole).symm, ?_,
      ⟨second, seeded, first, outside, links.symm⟩, witness, listed, near,
      Finset.mem_sdiff.2 ⟨inOne, inside⟩, far, inTwo, crossing⟩
    rw [Finset.union_comm]
    exact parts.symm LinkedBy.symm

/-- **A stray within the left side is placed** by regrouping: there are fewer strays then, and the
conjuncts are the same. -/
theorem place (closed : context.Closed same root) (leads : context.memo.LeadsTo same root id)
    (listed : conjunct ∈ context.memo.conjuncts predicate)
    (inside : context.memo.Within conjunct one) :
    ∃ stay rest below' beside' left' right' predicate',
      Loose context same id stay rest below' beside' left' right' predicate' ∧ stay ∪ rest = one ∪ two ∧
      strays context stay rest predicate' ⊂ strays context one two predicate ∧
      ∀ conjunct, Conjuncts context.memo below' beside' predicate' conjunct ↔
        Conjuncts context.memo below beside predicate conjunct := by
  obtain ⟨stay, moved, rfl, parts, split, witness, among, crossing⟩ := loose.exists_parts inside
  obtain ⟨breadth, formed⟩ := closed.formed
  have movedBeside : Disjoint moved two := loose.disjoint.mono_left Finset.subset_union_right
  have divided : Divided context same below left stay moved :=
    loose.first.divided closed (leads.left formed closed.merging loose.has).1
      (loose.apart.mono Finset.subset_union_left) parts
  obtain ⟨low, lower, outer, high, last, inner, again, under, stays, moves, rest, regrouped⟩ :=
    closed.regroup leads loose.has divided loose.second loose.apart movedBeside loose.each among crossing
  -- What is below is divided by the parts in which it is, what is across them goes to the upper join.
  let within (set : Finset GroupId) (conjunct : GroupId) : Prop :=
    below conjunct ∧ context.memo.Within conjunct set
  have restrict : ∀ {id : GroupId} {set : Finset GroupId}, context.memo.Joins same below id set →
      context.memo.Joins same (within set) id set := fun joins =>
    joins.congr fun conjunct among => (and_iff_left among).symm
  have below_lower : Loose context same lower moved two (within moved) beside high last inner :=
    ⟨under, restrict moves, rest, movedBeside,
      loose.apart.mono (Finset.union_subset_union_left Finset.subset_union_right),
      fun conjunct known => known.2, loose.high, fun conjunct there =>
        within_of_adjoins movedBeside ((regrouped.inner_iff conjunct).1 there).2,
      witness, (regrouped.inner_iff witness).2 ⟨among, crossing⟩, crossing⟩
  have joined : Loose context same id stay (moved ∪ two) (within stay)
      (Conjuncts context.memo (within moved) beside inner) low lower outer := by
    refine ⟨again, restrict stays, below_lower.joins_of_across fun conjunct there =>
        ((regrouped.inner_iff conjunct).1 there).2, Finset.disjoint_union_right.2
        ⟨parts.disjoint, loose.disjoint.mono_left Finset.subset_union_left⟩, ?_,
      fun conjunct known => known.2, ?_, ?_, ?_⟩
    · rw [← Finset.union_assoc]
      exact loose.apart
    · rintro conjunct (⟨_, inside⟩ | known | there)
      · exact inside.mono Finset.subset_union_left
      · exact (loose.high conjunct known).mono Finset.subset_union_right
      · exact within_of_adjoins movedBeside ((regrouped.inner_iff conjunct).1 there).2
    · intro conjunct there
      rw [← Finset.union_assoc]
      rcases (regrouped.outer_iff conjunct).1 there with ⟨_, across⟩ | ⟨listed, _⟩
      · exact (within_of_adjoins parts.disjoint across).mono Finset.subset_union_left
      · exact loose.each conjunct listed
    · obtain ⟨first, here, second, there, known, below, links⟩ := parts.adjoins
      have across : Adjoins (context.memo.Links known) stay moved :=
        ⟨first, here, second, there, links⟩
      exact ⟨known, (regrouped.outer_iff known).2 (Or.inl ⟨below, across⟩),
        across.mono (Finset.Subset.refl _) Finset.subset_union_left⟩
  exact ⟨stay, moved ∪ two, _, _, low, lower, outer, joined, (Finset.union_assoc _ _ _).symm,
    regrouped.strays_ssubset listed (loose.not_across inside) split, regrouped.conjuncts_iff loose.low⟩

end Loose

/-- **A loose join** joins both sets: its strays are placed one after another. -/
theorem Loose.joins (closed : context.Closed same root) (leads : context.memo.LeadsTo same root id)
    {below beside : GroupId → Prop} {left right predicate : GroupId}
    (loose : Loose context same id one two below beside left right predicate) :
    context.memo.Joins same (Conjuncts context.memo below beside predicate) id
      (one ∪ two) := by
  induction amount : (strays context one two predicate).card using Nat.strongRecOn
    generalizing one two below beside left right predicate with
  | ind count ih =>
    -- Where a stray is within the left side, it is placed.
    have placed : ∀ {one two : Finset GroupId} {below beside : GroupId → Prop}
        {left right predicate conjunct : GroupId},
        Loose context same id one two below beside left right predicate →
        (strays context one two predicate).card = count →
        conjunct ∈ context.memo.conjuncts predicate →
        context.memo.Within conjunct one →
        context.memo.Joins same (Conjuncts context.memo below beside predicate) id
          (one ∪ two) := by
      intro one two below beside left right predicate conjunct loose amount listed within
      obtain ⟨_, _, _, _, _, _, _, next, same, fewer, alike⟩ := loose.place closed leads listed within
      rw [← same]
      exact (ih _ (amount ▸ Finset.card_lt_card fewer) next rfl).congr fun conjunct _ => alike conjunct
    rcases Finset.eq_empty_or_nonempty (strays context one two predicate) with none | ⟨conjunct, stray⟩
    · refine loose.joins_of_across fun conjunct listed => ?_
      by_contra stray
      exact absurd (mem_strays.2 ⟨listed, stray⟩) (none ▸ Finset.notMem_empty conjunct)
    obtain ⟨listed, astray⟩ := mem_strays.1 stray
    rcases (loose.each conjunct listed).cases with within | within | across
    · exact placed loose amount listed within
    · obtain ⟨low, high, across, turned, alike⟩ := loose.exchange closed leads
      have same : strays context two one across = strays context one two predicate := by
        ext other
        rw [mem_strays, mem_strays, alike.mem_iff]
        exact and_congr_right fun _ => not_congr ⟨Adjoins.symm Links.symm, Adjoins.symm Links.symm⟩
      rw [Finset.union_comm]
      refine (placed turned (same ▸ amount) (alike.mem_iff.2 listed) within).congr fun conjunct _ => ?_
      simp only [Conjuncts, alike.mem_iff, or_left_comm]
    · exact absurd across astray

/-! ### Trees -/

/-- The conjuncts of a tree are on two of its relations. -/
theorem Memo.Nests.within {nesting : Nesting} {conjuncts : List GroupId}
    (nests : memo.Nests id nesting conjuncts) :
    ∀ conjunct ∈ conjuncts, memo.Within conjunct nesting.whole := by
  induction nests with
  | relation => simp
  | join has _ _ each _ low high =>
    intro conjunct member
    rw [Nesting.whole_join]
    rcases List.mem_append.1 member with inside | top
    · rcases List.mem_append.1 inside with left | right
      · exact (low conjunct left).mono Finset.subset_union_left
      · exact (high conjunct right).mono Finset.subset_union_right
    · exact Nesting.whole_join ▸ each conjunct top

/-- **The group of a tree joins the relations** of the tree under its conjuncts. -/
theorem Memo.Nests.joins (closed : context.Closed same root) {nesting : Nesting}
    {conjuncts : List GroupId} (nests : context.memo.Nests id nesting conjuncts)
    (leads : context.memo.LeadsTo same root id) (nodup : nesting.relations.Nodup)
    (apart : context.memo.Apart nesting.whole) :
    context.memo.Joins same (· ∈ conjuncts) id nesting.whole := by
  obtain ⟨breadth, formed⟩ := closed.formed
  have merging := closed.merging
  induction nests with
  | relation relational => exact .relation relational (merging.refl _)
  | join has first second each across low high =>
    obtain ⟨nodupLeft, nodupRight, disjoint⟩ := Nesting.disjoint_of_nodup nodup
    have has := has.of_equal merging
    obtain ⟨leadsLeft, leadsRight⟩ := leads.left formed merging has
    rw [Nesting.whole_join] at apart each ⊢
    have loose : Loose context same _ _ _ _ _ _ _ _ :=
      ⟨has, low leadsLeft nodupLeft (apart.mono Finset.subset_union_left),
        high leadsRight nodupRight (apart.mono Finset.subset_union_right), disjoint, apart, first.within,
        second.within, each, across⟩
    refine (loose.joins closed leads).congr fun conjunct _ => ?_
    simp [Conjuncts]

/-- **The group of a tree provides every nesting** of its relations without a cross product. -/
theorem Memo.Nests.provides (closed : context.Closed same root) {nesting other : Nesting}
    {conjuncts : List GroupId} (nests : context.memo.Nests id nesting conjuncts)
    (leads : context.memo.LeadsTo same root id) (nodup : nesting.relations.Nodup)
    (apart : context.memo.Apart nesting.whole)
    (rearranged : other.relations.Perm nesting.relations)
    (crossless : other.Crossless (context.memo.LinkedBy (· ∈ conjuncts))) :
    context.memo.Provides same id other := by
  have whole : other.whole = nesting.whole := List.toFinset_eq_of_perm _ _ rearranged
  have joins := nests.joins closed leads nodup apart
  rw [← whole] at joins apart
  exact joins.provides closed leads apart (rearranged.nodup_iff.2 nodup) crossless

end Cascades
