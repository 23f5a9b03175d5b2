/-
**Connected sets and their divisions.**

A set of things that are linked in pairs is connected if no division of it is without a link across.
A connected set can be divided into two connected sets in many ways, and one way leads to any other by
two kinds of step: the two sides are exchanged, and a connected part of the left side that is linked to
the right side is moved there, if what stays is connected.

* `connected_iff`: that can be found out;
* `Connected.union`, `Connected.exists_component`, `Connected.exists_erase`: what is connected again;
* `Divides`: a division into connected sets with a link across;
* `Divides.reaches_grown`: the left side grows, component by component, into a greater one;
* `Divides.reaches_within`: it shrinks, member by member, into one side of another division;
* `Divides.reaches`: **any division leads to any other**.
-/

import Mathlib.Data.Finset.Max
import Mathlib.Data.Finset.Powerset

namespace Cascades

variable {α : Type} {linked : α → α → Prop} {one two whole part : Finset α}

/-! ### Connected sets -/

/-- Something in one set is linked to something in another. -/
def Adjoins (linked : α → α → Prop) (one two : Finset α) : Prop :=
  ∃ first ∈ one, ∃ second ∈ two, linked first second

instance [DecidableRel linked] : Decidable (Adjoins linked one two) :=
  inferInstanceAs (Decidable (∃ first ∈ one, ∃ second ∈ two, linked first second))

theorem Adjoins.mono {more further : Finset α} (adjoins : Adjoins linked one two) (low : one ⊆ more)
    (high : two ⊆ further) : Adjoins linked more further :=
  have ⟨first, here, second, there, link⟩ := adjoins
  ⟨first, low here, second, high there, link⟩

/-- **A set that no division leaves without a link across.** -/
structure Connected (linked : α → α → Prop) (whole : Finset α) : Prop where
  nonempty : whole.Nonempty
  across : ∀ inside : α → Prop, (∃ first ∈ whole, inside first) → (∃ second ∈ whole, ¬ inside second) →
    ∃ first ∈ whole, ∃ second ∈ whole, inside first ∧ ¬ inside second ∧ linked first second

theorem Connected.single (only : α) : Connected linked {only} where
  nonempty := Finset.singleton_nonempty only
  across inside := by
    rintro ⟨first, member, within⟩ ⟨second, other, without⟩
    rw [Finset.mem_singleton] at member other
    subst member
    subst other
    exact absurd within without

/-- More links leave a set connected. -/
theorem Connected.imp {other : α → α → Prop} (connected : Connected linked whole)
    (more : ∀ first second, linked first second → other first second) : Connected other whole where
  nonempty := connected.nonempty
  across inside left right :=
    have ⟨first, here, second, there, within, without, link⟩ := connected.across inside left right
    ⟨first, here, second, there, within, without, more first second link⟩

/-- It is enough to look at the parts of the set. -/
theorem connected_iff [DecidableEq α] : Connected linked whole ↔ whole.Nonempty ∧
    ∀ part ∈ whole.powerset, part.Nonempty → part ≠ whole → Adjoins linked part (whole \ part) := by
  constructor
  · refine fun connected => ⟨connected.nonempty, fun part member ⟨one, here⟩ proper => ?_⟩
    have among := Finset.mem_powerset.1 member
    obtain ⟨other, there, outside⟩ := Finset.exists_of_ssubset (among.ssubset_of_ne proper)
    obtain ⟨first, _, second, inWhole, inPart, notInPart, link⟩ :=
      connected.across (· ∈ part) ⟨one, among here, here⟩ ⟨other, there, outside⟩
    exact ⟨first, inPart, second, Finset.mem_sdiff.2 ⟨inWhole, notInPart⟩, link⟩
  · classical
    rintro ⟨nonempty, across⟩
    refine ⟨nonempty, fun inside ⟨one, here, within⟩ ⟨other, there, without⟩ => ?_⟩
    obtain ⟨first, before, second, behind, link⟩ := across (whole.filter inside)
      (Finset.mem_powerset.2 (Finset.filter_subset _ _)) ⟨one, Finset.mem_filter.2 ⟨here, within⟩⟩
      (Finset.filter_ssubset.2 ⟨other, there, without⟩).ne
    obtain ⟨inWhole, notInPart⟩ := Finset.mem_sdiff.1 behind
    obtain ⟨member, held⟩ := Finset.mem_filter.1 before
    exact ⟨first, member, second, inWhole, held,
      fun holds => notInPart (Finset.mem_filter.2 ⟨inWhole, holds⟩), link⟩

instance [DecidableEq α] [DecidableRel linked] : Decidable (Connected linked whole) :=
  decidable_of_iff' _ connected_iff

section Symmetric

variable (symmetric : ∀ {first second : α}, linked first second → linked second first)
include symmetric

theorem Adjoins.symm (adjoins : Adjoins linked one two) : Adjoins linked two one :=
  have ⟨first, member, second, other, link⟩ := adjoins
  ⟨second, other, first, member, symmetric link⟩

/-- It is enough to look at divisions with one given member on the left. -/
theorem Connected.of_anchor {anchor : α} (member : anchor ∈ whole)
    (across : ∀ inside : α → Prop, inside anchor → (∃ second ∈ whole, ¬ inside second) →
      ∃ first ∈ whole, ∃ second ∈ whole, inside first ∧ ¬ inside second ∧ linked first second) :
    Connected linked whole := by
  refine ⟨⟨anchor, member⟩, fun inside some other => ?_⟩
  by_cases left : inside anchor
  · exact across inside left other
  · obtain ⟨first, within, there⟩ := some
    obtain ⟨second, member, third, again, without, back, link⟩ :=
      across (fun value => ¬ inside value) left ⟨first, within, not_not_intro there⟩
    exact ⟨third, again, second, member, not_not.1 back, without, symmetric link⟩

variable [DecidableEq α]

/-- **Two connected sets with a link between them** are connected together. -/
theorem Connected.union (first : Connected linked one) (second : Connected linked two)
    (adjoins : Adjoins linked one two) : Connected linked (one ∪ two) := by
  obtain ⟨low, inOne, high, inTwo, link⟩ := adjoins
  refine of_anchor symmetric (Finset.mem_union_left _ inOne) fun inside left ⟨other, member, right⟩ => ?_
  by_cases out : ∃ value ∈ one, ¬ inside value
  · obtain ⟨here, before, there, after, found⟩ := first.across inside ⟨low, inOne, left⟩ out
    exact ⟨here, Finset.mem_union_left _ before, there, Finset.mem_union_left _ after, found⟩
  have all : ∀ value ∈ one, inside value := fun value within =>
    not_not.1 fun without => out ⟨value, within, without⟩
  have inTwo' : other ∈ two :=
    (Finset.mem_union.1 member).resolve_left fun within => right (all other within)
  by_cases crossed : inside high
  · obtain ⟨here, before, there, after, found⟩ :=
      second.across inside ⟨high, inTwo, crossed⟩ ⟨other, inTwo', right⟩
    exact ⟨here, Finset.mem_union_right _ before, there, Finset.mem_union_right _ after, found⟩
  · exact ⟨low, Finset.mem_union_left _ inOne, high, Finset.mem_union_right _ inTwo, left, crossed, link⟩

/-- **A component outside of a connected part**: it is connected, and so is all the rest. -/
theorem Connected.exists_component (connected : Connected linked whole) (within : part ⊆ whole)
    (kernel : Connected linked part) {seed : α} (member : seed ∈ whole) (outside : seed ∉ part) :
    ∃ component ⊆ whole \ part, seed ∈ component ∧ Connected linked component ∧
      Connected linked (whole \ component) := by
  classical
  let closed (set : Finset α) : Prop := ∀ first ∈ set, ∀ second ∈ whole \ part, linked first second →
    second ∈ set
  -- The component is the least set around the seed that no link leaves.
  obtain ⟨component, fits, least⟩ := Finset.exists_min_image
    ((whole \ part).powerset.filter fun set => seed ∈ set ∧ closed set) Finset.card
    ⟨whole \ part, Finset.mem_filter.2 ⟨Finset.mem_powerset_self _,
      Finset.mem_sdiff.2 ⟨member, outside⟩, fun _ _ _ second _ => second⟩⟩
  obtain ⟨among, seeded, shut⟩ := Finset.mem_filter.1 fits
  have among := Finset.mem_powerset.1 among
  refine ⟨component, among, seeded, ?_, ?_⟩
  · refine of_anchor symmetric seeded fun inside left ⟨other, there, right⟩ => ?_
    by_contra none
    have smaller : (component.filter inside).card < component.card :=
      Finset.card_lt_card (Finset.filter_ssubset.2 ⟨other, there, right⟩)
    refine absurd (least (component.filter inside) ?_) (Nat.not_le.2 smaller)
    refine Finset.mem_filter.2 ⟨Finset.mem_powerset.2 ((Finset.filter_subset _ _).trans among),
      Finset.mem_filter.2 ⟨seeded, left⟩, fun first before second after link => ?_⟩
    obtain ⟨before, inFirst⟩ := Finset.mem_filter.1 before
    have after := shut first before second after link
    refine Finset.mem_filter.2 ⟨after, not_not.1 fun without => none ?_⟩
    exact ⟨first, before, second, after, inFirst, without, link⟩
  · obtain ⟨anchor, inPart⟩ := kernel.nonempty
    have apart : ∀ value ∈ part, value ∈ whole \ component := fun value here =>
      Finset.mem_sdiff.2 ⟨within here, fun there => (Finset.mem_sdiff.1 (among there)).2 here⟩
    refine of_anchor symmetric (apart anchor inPart) fun inside left ⟨other, there, right⟩ => ?_
    by_cases out : ∃ value ∈ part, ¬ inside value
    · obtain ⟨here, before, beyond, after, found⟩ := kernel.across inside ⟨anchor, inPart, left⟩ out
      exact ⟨here, apart here before, beyond, apart beyond after, found⟩
    have all : ∀ value ∈ part, inside value := fun value here =>
      not_not.1 fun without => out ⟨value, here, without⟩
    obtain ⟨there, free⟩ := Finset.mem_sdiff.1 there
    -- No link leads from the component to what is beside it.
    obtain ⟨first, before, second, after, ⟨without, loose⟩, rest, link⟩ :=
      connected.across (fun value => ¬ inside value ∧ value ∉ component) ⟨other, there, right, free⟩
        ⟨anchor, within inPart, fun both => both.1 left⟩
    have beside : first ∈ whole \ part :=
      Finset.mem_sdiff.2 ⟨before, fun here => without (all first here)⟩
    have away : second ∉ component := fun here => loose (shut second here first beside (symmetric link))
    have back : inside second := not_not.1 fun again => rest ⟨again, away⟩
    exact ⟨second, Finset.mem_sdiff.2 ⟨after, away⟩, first, Finset.mem_sdiff.2 ⟨before, loose⟩, back,
      without, symmetric link⟩

/-- **A connected set of several** has a member without which it is connected. -/
theorem Connected.exists_erase (connected : Connected linked whole) (several : 1 < whole.card) :
    ∃ value ∈ whole, Connected linked (whole.erase value) := by
  classical
  obtain ⟨anchor, member⟩ := connected.nonempty
  have proper : ({anchor} : Finset α) ≠ whole := fun same => by
    rw [← same, Finset.card_singleton] at several
    exact absurd several (Nat.lt_irrefl 1)
  -- The greatest connected part lacks one member only.
  obtain ⟨most, fits, greatest⟩ := Finset.exists_max_image
    (whole.powerset.filter fun set => Connected linked set ∧ set ≠ whole) Finset.card
    ⟨{anchor}, Finset.mem_filter.2 ⟨Finset.mem_powerset.2 (Finset.singleton_subset_iff.2 member),
      Connected.single anchor, proper⟩⟩
  obtain ⟨within, joined, less⟩ := Finset.mem_filter.1 fits
  have within := Finset.mem_powerset.1 within
  obtain ⟨missing, there, absent⟩ : ∃ missing ∈ whole, missing ∉ most := by
    by_contra none
    refine less (within.antisymm fun value here => not_not.1 fun out => none ⟨value, here, out⟩)
  obtain ⟨some, inMost⟩ := joined.nonempty
  obtain ⟨first, _, second, after, inside, outside, link⟩ :=
    connected.across (· ∈ most) ⟨some, within inMost, inMost⟩ ⟨missing, there, absent⟩
  have more : Connected linked (most ∪ {second}) :=
    joined.union symmetric (.single second) ⟨first, inside, second, Finset.mem_singleton_self _, link⟩
  have all : most ∪ {second} = whole := by
    by_contra fewer
    have bounded := greatest (most ∪ {second}) (Finset.mem_filter.2 ⟨Finset.mem_powerset.2
      (Finset.union_subset within (Finset.singleton_subset_iff.2 after)), more, fewer⟩)
    rw [Finset.card_union_of_disjoint (Finset.disjoint_singleton_right.2 outside),
      Finset.card_singleton] at bounded
    omega
  refine ⟨second, after, ?_⟩
  rw [← all, Finset.union_comm, Finset.singleton_union, Finset.erase_insert outside]
  exact joined

end Symmetric

/-! ### Divisions -/

variable [DecidableEq α]

/-- **A division of a set into two connected ones** with a link across. -/
structure Divides (linked : α → α → Prop) (whole one two : Finset α) : Prop where
  left : Connected linked one
  right : Connected linked two
  disjoint : Disjoint one two
  union : one ∪ two = whole
  adjoins : Adjoins linked one two

/-- Two connected parts divide a connected set. -/
theorem Connected.divides (connected : Connected linked (one ∪ two)) (first : Connected linked one)
    (second : Connected linked two) (disjoint : Disjoint one two) :
    Divides linked (one ∪ two) one two := by
  refine ⟨first, second, disjoint, rfl, ?_⟩
  obtain ⟨low, inOne⟩ := first.nonempty
  obtain ⟨high, inTwo⟩ := second.nonempty
  obtain ⟨here, _, there, member, inside, outside, link⟩ := connected.across (· ∈ one)
    ⟨low, Finset.mem_union_left _ inOne, inOne⟩
    ⟨high, Finset.mem_union_right _ inTwo, fun again => Finset.disjoint_left.1 disjoint again inTwo⟩
  exact ⟨here, inside, there, (Finset.mem_union.1 member).resolve_left outside, link⟩

theorem Divides.symm (symmetric : ∀ {first second : α}, linked first second → linked second first)
    (divides : Divides linked whole one two) : Divides linked whole two one :=
  ⟨divides.right, divides.left, divides.disjoint.symm, (Finset.union_comm _ _).trans divides.union,
    divides.adjoins.symm symmetric⟩

/-- A part of the left side that is linked to the right side can be moved there. -/
theorem Divides.move (symmetric : ∀ {first second : α}, linked first second → linked second first)
    {stay moved other : Finset α} (divides : Divides linked whole (stay ∪ moved) other)
    (parts : Divides linked (stay ∪ moved) stay moved) (adjoins : Adjoins linked moved other) :
    Divides linked whole stay (moved ∪ other) where
  left := parts.left
  right := parts.right.union symmetric divides.right adjoins
  disjoint := Finset.disjoint_union_right.2
    ⟨parts.disjoint, divides.disjoint.mono_left Finset.subset_union_left⟩
  union := by rw [← divides.union, Finset.union_assoc]
  adjoins :=
    have ⟨here, inStay, there, inMoved, link⟩ := parts.adjoins
    ⟨here, inStay, there, Finset.mem_union_left _ inMoved, link⟩

section Divisions

variable (symmetric : ∀ {first second : α}, linked first second → linked second first)
  {reached : Finset α → Finset α → Prop}
  (divides : ∀ {one two : Finset α}, reached one two → Divides linked whole one two)
  (exchange : ∀ {one two : Finset α}, reached one two → reached two one)
  (move : ∀ {stay moved other : Finset α}, reached (stay ∪ moved) other → Disjoint stay moved →
    Connected linked stay → Connected linked moved → Adjoins linked moved other →
      reached stay (moved ∪ other))
  {left right : Finset α}
include symmetric divides exchange move

/-- **The left side grows** into a greater one: the components of what is missing are moved. -/
theorem Divides.reaches_grown (goal : Divides linked whole left right) :
    ∀ {one two : Finset α}, reached one two → one ⊆ left → reached left right := by
  intro one two start within
  induction missing : (left \ one).card using Nat.strongRecOn generalizing one two with
  | ind count ih =>
    have now := divides start
    have other : two = whole \ one := by
      rw [← now.union, Finset.union_sdiff_cancel_left now.disjoint]
    have last : right = whole \ left := by
      rw [← goal.union, Finset.union_sdiff_cancel_left goal.disjoint]
    have inWhole : left ⊆ whole := goal.union ▸ Finset.subset_union_left
    by_cases done : left ⊆ one
    · obtain rfl := within.antisymm done
      rwa [last, ← other]
    obtain ⟨value, there, absent⟩ := Finset.not_subset.1 done
    obtain ⟨some, inOne⟩ := now.left.nonempty
    obtain ⟨near, _, seed, inLeft, inside, outside, link⟩ :=
      goal.left.across (· ∈ one) ⟨some, within inOne, inOne⟩ ⟨value, there, absent⟩
    have keeps : right ⊆ two := by
      rw [last, other]
      exact Finset.sdiff_subset_sdiff (Finset.Subset.refl _) within
    obtain ⟨component, among, seeded, joined, rest⟩ := now.right.exists_component symmetric keeps
      goal.right (other ▸ Finset.mem_sdiff.2 ⟨inWhole inLeft, outside⟩)
      (last ▸ fun beyond => (Finset.mem_sdiff.1 beyond).2 inLeft)
    have inTwo : component ⊆ two := among.trans Finset.sdiff_subset
    have inGoal : component ⊆ left := fun item here => by
      obtain ⟨beyond, out⟩ := Finset.mem_sdiff.1 (among here)
      rw [last, Finset.mem_sdiff, not_and_not_right] at out
      exact out (now.union ▸ Finset.mem_union_right _ beyond)
    have parts : two \ component ∪ component = two := Finset.sdiff_union_of_subset inTwo
    have next : reached (two \ component) (component ∪ one) := by
      refine move ?_ Finset.sdiff_disjoint rest joined ⟨seed, seeded, near, inside, symmetric link⟩
      rw [parts]
      exact exchange start
    refine ih _ ?_ (exchange next) (Finset.union_subset inGoal within) rfl
    rw [← missing]
    refine Finset.card_lt_card (Finset.ssubset_iff_of_subset ?_ |>.2 ⟨seed, ?_, ?_⟩)
    · exact Finset.sdiff_subset_sdiff (Finset.Subset.refl _) Finset.subset_union_right
    · exact Finset.mem_sdiff.2 ⟨inLeft, outside⟩
    · exact fun again => (Finset.mem_sdiff.1 again).2 (Finset.mem_union_left _ seeded)

omit exchange in
/-- **The left side shrinks** until it lies on one side of another division. -/
theorem Divides.reaches_within (goal : Divides linked whole left right) :
    ∀ {one two : Finset α}, reached one two →
      ∃ less more, reached less more ∧ (less ⊆ left ∨ less ⊆ right) := by
  intro one two start
  induction size : one.card using Nat.strongRecOn generalizing one two with
  | ind count ih =>
    have now := divides start
    have sides : ∀ value ∈ one, value ∈ left ∨ value ∈ right := fun value here =>
      Finset.mem_union.1 (goal.union ▸ now.union ▸ Finset.mem_union_left _ here)
    by_cases several : 1 < one.card
    swap
    · obtain ⟨only, rfl⟩ := Finset.card_eq_one.1
        (Nat.le_antisymm (Nat.not_lt.1 several) now.left.nonempty.card_pos)
      refine ⟨{only}, two, start, ?_⟩
      simpa using sides only (Finset.mem_singleton_self _)
    obtain ⟨value, member, rest⟩ := now.left.exists_erase symmetric several
    have parts : {value} ∪ one.erase value = one := by
      rw [Finset.singleton_union, Finset.insert_erase member]
    have apart : Disjoint {value} (one.erase value) :=
      Finset.disjoint_singleton_left.2 (Finset.notMem_erase _ _)
    by_cases stays : Adjoins linked (one.erase value) two
    · refine ⟨{value}, one.erase value ∪ two, ?_, ?_⟩
      · exact move (parts.symm ▸ start) apart (.single value) rest stays
      · simpa using sides value member
    · obtain ⟨first, here, second, there, link⟩ := now.adjoins
      have only : first = value := not_not.1 fun different =>
        stays ⟨first, Finset.mem_erase.2 ⟨different, here⟩, second, there, link⟩
      have next : reached (one.erase value) ({value} ∪ two) := by
        refine move ?_ apart.symm rest (.single value)
          ⟨value, Finset.mem_singleton_self _, second, there, only ▸ link⟩
        rw [Finset.union_comm, parts]
        exact start
      refine ih _ ?_ next rfl
      rw [← size]
      exact Finset.card_erase_lt_of_mem member

/-- **Any division leads to any other.** -/
theorem Divides.reaches (goal : Divides linked whole left right) {one two : Finset α}
    (start : reached one two) : reached left right := by
  obtain ⟨less, more, near, within | within⟩ :=
    goal.reaches_within symmetric divides move start
  · exact goal.reaches_grown symmetric divides exchange move near within
  · exact exchange
      ((goal.symm symmetric).reaches_grown symmetric divides exchange move near within)

end Divisions

end Cascades
