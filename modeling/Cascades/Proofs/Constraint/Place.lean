/-
**Ranges hold places among values.**

A range is not empty as soon as its bounds leave room, even if no value stands there: between three and
four there is no whole number, yet the open range between them is not empty. So ranges are compared by
the places that they cover, where a place stands on a value or between values. On places everything is
exact: a range is empty where it covers none, the intersection covers the places of both ranges, and a
normal form covers the places of the ranges that it is made from. A value is one of the places.

* `Place`: a place among values; `Place.nextTo`: on a value, just below it or just above it;
* `Range.Covers`: the places of a range; `isEmpty_eq_false_iff`: a range that is not empty has one;
* `Range.Apart`: ranges with a gap between them; `Range.Normal`: ascending ranges, any two of them apart;
* `exists_covers_intersect?`, `exists_covers_normalize`: intersection and normal form are exact;
* `normal_normalize`: a normal form is normal.
-/

import Cascades.Proofs.Constraint.Range

namespace Cascades

/-! ### Places -/

/-- **A place among values**, known by how it compares with each of them: what it is not below it is
not below further down, either. -/
structure Place (values : Value → Prop) where
  side : Value → Ordering
  reaches : ∀ {low high : Value}, values low → values high → Value.order low high ≠ .gt →
    side high ≠ .lt → side low ≠ .lt
  exceeds : ∀ {low high : Value}, values low → values high → Value.order low high ≠ .gt →
    side high = .gt → side low = .gt
  passes : ∀ {low high : Value}, values low → values high → Value.order low high = .lt →
    side high ≠ .lt → side low = .gt

variable {values : Value → Prop}

namespace Place

/-- The place below all values. -/
def bottom : Place values where
  side _ := .lt
  reaches _ _ _ below := absurd rfl below
  exceeds _ _ _ above := nomatch above
  passes _ _ _ below := absurd rfl below

/-- The place on a value, just below it or just above it. -/
def nextTo (ordered : Value.Ordered values) {value : Value} (there : values value)
    (hand : Ordering) : Place values where
  side other := (Value.order value other).then hand
  reaches {low high} one two atMost reaches := by
    have below : Value.order value high ≠ .lt := fun below => reaches (by rw [below]; rfl)
    rcases ordered.gt_or_eq there one two atMost below with above | same
    · simp [above]
    · rwa [same]
  exceeds {low high} one two atMost exceeds := by
    have below : Value.order value high ≠ .lt := fun below => by rw [below] at exceeds; cases exceeds
    rcases ordered.gt_or_eq there one two atMost below with above | same
    · simp [above]
    · rwa [same]
  passes {low high} one two strict reaches := by
    have below : Value.order value high ≠ .lt := fun below => reaches (by rw [below]; rfl)
    have under := ordered.lt_trans one two there strict ((ordered.not_lt_iff there two).1 below)
    rw [(ordered.gt_iff there one).2 under]
    rfl

end Place

/-! ### Bounds -/

namespace Bound

/-- Whether a place is not below a lower bound. -/
def LowerAt (place : Place values) : Bound → Prop
  | unbounded => True
  | included bound => place.side bound ≠ .lt
  | excluded bound => place.side bound = .gt

/-- Whether a place is not above an upper bound. -/
def UpperAt (place : Place values) : Bound → Prop
  | unbounded => True
  | included bound => place.side bound ≠ .gt
  | excluded bound => place.side bound = .lt

variable {first second third : Bound} {place : Place values}

/-- The other side of a bound begins with the other kind of bound. -/
def flip : Bound → Bound
  | unbounded => unbounded
  | included bound => excluded bound
  | excluded bound => included bound

theorem lowerAt_flip (limited : first ≠ .unbounded) :
    first.flip.LowerAt place ↔ ¬ first.UpperAt place := by
  cases first <;> simp_all [flip, LowerAt, UpperAt]

theorem upperAt_flip (limited : first ≠ .unbounded) :
    first.flip.UpperAt place ↔ ¬ first.LowerAt place := by
  cases first <;> simp_all [flip, LowerAt, UpperAt]

theorem in_flip (inside : first.In values) : first.flip.In values := by
  cases first <;> exact inside

section Ordered

variable (ordered : Value.Ordered values)

/-- The first place that is not below a lower bound. -/
def start : (bound : Bound) → bound.In values → Place values
  | unbounded, _ => .bottom
  | included _, there => .nextTo ordered there .eq
  | excluded _, there => .nextTo ordered there .gt

include ordered

theorem orderLower_swap (one : first.In values) (two : second.In values) :
    orderLower second first = (orderLower first second).swap := by
  cases first <;> cases second <;> try rfl
  all_goals
    simp only [orderLower, In] at *
    simp [ordered.swap one two, Ordering.swap_then]

theorem orderUpper_swap (one : first.In values) (two : second.In values) :
    orderUpper second first = (orderUpper first second).swap := by
  cases first <;> cases second <;> try rfl
  all_goals
    simp only [orderUpper, In] at *
    simp [ordered.swap one two, Ordering.swap_then]

theorem orderLower_refl (inside : first.In values) : orderLower first first ≠ .gt := by
  intro above
  have back := orderLower_swap ordered inside inside
  rw [above] at back
  cases back

/-- Lower bounds are in order exactly where the first place of the second is not below the first. -/
theorem lowerAt_start_iff (one : first.In values) (two : second.In values) :
    first.LowerAt (second.start ordered two) ↔ orderLower first second ≠ .gt := by
  cases first <;> cases second <;>
    simp only [LowerAt, start, orderLower, Place.bottom, Place.nextTo, In] at *
  all_goals try simp
  all_goals
    rw [ordered.swap one two]
    cases Value.order _ _ <;> simp

theorem lowerAt_start (inside : first.In values) : first.LowerAt (first.start ordered inside) :=
  (lowerAt_start_iff ordered inside inside).2 (orderLower_refl ordered inside)

omit ordered in
/-- A place that is not below a lower bound is not below a lesser one. -/
theorem LowerAt.of_le (one : first.In values) (two : second.In values)
    (atMost : orderLower first second ≠ .gt) (above : second.LowerAt place) :
    first.LowerAt place := by
  cases first <;> cases second <;> simp only [orderLower, LowerAt, In, ne_eq] at *
  · exact absurd trivial atMost
  · exact place.reaches one two atMost above
  · rename_i low high
    refine place.reaches one two ?_ (by simp [above])
    cases same : Value.order low high <;> simp_all
  · exact absurd trivial atMost
  · rename_i low high
    refine place.passes one two ?_ above
    cases same : Value.order low high <;> simp_all
  · exact place.exceeds one two atMost above

omit ordered in
/-- A place that is not above an upper bound is not above a greater one. -/
theorem UpperAt.of_le (one : first.In values) (two : second.In values)
    (atMost : orderUpper first second ≠ .gt) (below : first.UpperAt place) :
    second.UpperAt place := by
  cases first <;> cases second <;> simp only [orderUpper, UpperAt, In, ne_eq] at *
  · exact absurd trivial atMost
  · exact absurd trivial atMost
  · exact fun above => below (place.exceeds one two atMost above)
  · rename_i low high
    by_contra reaches
    refine below (place.passes one two ?_ reaches)
    cases same : Value.order low high <;> simp_all
  · rename_i low high
    intro above
    refine place.reaches one two ?_ (by simp [above]) below
    cases same : Value.order low high <;> simp_all
  · by_contra reaches
    exact place.reaches one two atMost reaches below

theorem orderLower_trans (one : first.In values) (two : second.In values) (three : third.In values)
    (below : orderLower first second ≠ .gt) (above : orderLower second third ≠ .gt) :
    orderLower first third ≠ .gt :=
  (lowerAt_start_iff ordered one three).1
    (.of_le one two below ((lowerAt_start_iff ordered two three).2 above))

/-- The greater one of two lower bounds. -/
theorem lowerAt_later_iff (one : first.In values) (two : second.In values) :
    (if orderLower first second == .lt then second else first).LowerAt place ↔
      first.LowerAt place ∧ second.LowerAt place := by
  have back := orderLower_swap ordered one two
  split
  · rename_i less
    exact ⟨fun above => ⟨.of_le one two (by simp_all) above, above⟩, And.right⟩
  · rename_i notLess
    exact ⟨fun above => ⟨above, .of_le two one (by rw [back]; simp_all) above⟩, And.left⟩

/-- The lesser one of two upper bounds. -/
theorem upperAt_earlier_iff (one : first.In values) (two : second.In values) :
    (if orderUpper first second == .gt then second else first).UpperAt place ↔
      first.UpperAt place ∧ second.UpperAt place := by
  have back := orderUpper_swap ordered one two
  split
  · rename_i greater
    exact ⟨fun below => ⟨.of_le two one (by rw [back]; simp_all) below, below⟩, And.right⟩
  · rename_i notGreater
    exact ⟨fun below => ⟨below, .of_le one two (by simp_all) below⟩, And.left⟩

/-- The greater one of two upper bounds. -/
theorem upperAt_later_iff (one : first.In values) (two : second.In values) :
    (if orderUpper second first == .gt then second else first).UpperAt place ↔
      first.UpperAt place ∨ second.UpperAt place := by
  have back := orderUpper_swap ordered one two
  split
  · rename_i greater
    exact ⟨Or.inr, fun either => either.elim (.of_le one two (by simp_all)) id⟩
  · rename_i notGreater
    exact ⟨Or.inl, fun either => either.elim id (.of_le two one (by simp_all))⟩

end Ordered

end Bound

/-! ### Ranges -/

namespace Range

/-- **Whether a place lies between the bounds of a range.** -/
def Covers (range : Range) (place : Place values) : Prop :=
  range.lower.LowerAt place ∧ range.upper.UpperAt place

/-- What lies between two ranges of which the first comes before the second; nothing where one has no
bound on that side. -/
def gap? (first second : Range) : Option Range :=
  match first.upper, second.lower with
  | .unbounded, _ => none
  | _, .unbounded => none
  | upper, lower => some ⟨upper.flip, lower.flip⟩

/-- **Whether one range comes before another one with a gap between them**: they neither overlap nor
touch. -/
def Apart (first second : Range) : Prop :=
  ∃ gap, first.gap? second = some gap ∧ gap.isEmpty = false

theorem gap?_cases {first second gap : Range} (between : first.gap? second = some gap) :
    first.upper ≠ .unbounded ∧ second.lower ≠ .unbounded ∧
      gap = ⟨first.upper.flip, second.lower.flip⟩ := by
  unfold gap? at between
  split at between
  · cases between
  · cases between
  · rename_i limited limitedToo
    cases between
    exact ⟨limited, limitedToo, rfl⟩

theorem gap?_of_limited {first second : Range} (one : first.upper ≠ .unbounded)
    (two : second.lower ≠ .unbounded) :
    first.gap? second = some ⟨first.upper.flip, second.lower.flip⟩ := by
  unfold gap?
  split
  · exact absurd ‹_› one
  · exact absurd ‹_› two
  · rfl

variable {first second third range : Range} {place : Place values} {ranges : List Range}

section Ordered

variable (ordered : Value.Ordered values)
include ordered

/-- **A range is not empty exactly where it covers a place.** -/
theorem isEmpty_eq_false_iff (inside : range.In values) :
    range.isEmpty = false ↔ ∃ place : Place values, range.Covers place := by
  obtain ⟨lower, upper⟩ := range
  obtain ⟨one, two⟩ := inside
  constructor
  · intro some
    refine ⟨lower.start ordered one, Bound.lowerAt_start ordered one, ?_⟩
    cases lower <;> cases upper <;>
      simp_all [isEmpty, Bound.UpperAt, Bound.start, Place.bottom, Place.nextTo]
  · rintro ⟨place, above, below⟩
    cases lower <;> cases upper <;>
      simp only [isEmpty, Bound.LowerAt, Bound.UpperAt, Bound.In, beq_eq_false_iff_ne,
        bne_eq_false_iff_eq] at *
    · intro reversed
      exact below (place.passes two one ((ordered.gt_iff one two).1 reversed) above)
    · by_contra reversed
      exact place.reaches two one ((ordered.not_lt_iff one two).1 reversed) above below
    · by_contra reversed
      exact below (place.exceeds two one ((ordered.not_lt_iff one two).1 reversed) above)
    · by_contra reversed
      have exceeds := place.exceeds two one ((ordered.not_lt_iff one two).1 reversed) above
      rw [below] at exceeds
      cases exceeds

/-- **The intersection of two ranges covers what both cover.** -/
theorem exists_covers_intersect? (one : first.In values) (two : second.In values) :
    (∃ range, first.intersect? second = some range ∧ range.Covers place) ↔
      first.Covers place ∧ second.Covers place := by
  have inside := in_overlap one two
  have both : (first.overlap second).Covers place ↔ first.Covers place ∧ second.Covers place := by
    unfold Covers overlap
    rw [Bound.lowerAt_later_iff ordered one.1 two.1, Bound.upperAt_earlier_iff ordered one.2 two.2]
    exact and_and_and_comm
  rw [← both, intersect?_eq]
  constructor
  · rintro ⟨range, given, covers⟩
    obtain ⟨_, given⟩ := Option.ite_none_left_eq_some.1 given
    exact Option.some.inj given ▸ covers
  · intro covers
    have some := (isEmpty_eq_false_iff ordered inside).2 ⟨place, covers⟩
    exact ⟨_, by rw [some]; rfl, covers⟩

/-! ### Gaps -/

/-- Two ranges are apart where some place is above the first and below the second. -/
theorem apart_iff (one : first.In values) (two : second.In values) :
    first.Apart second ↔
      ∃ place : Place values, ¬ first.upper.UpperAt place ∧ ¬ second.lower.LowerAt place := by
  constructor
  · rintro ⟨gap, between, some⟩
    obtain ⟨limited, limitedToo, rfl⟩ := gap?_cases between
    obtain ⟨place, above, below⟩ :=
      (isEmpty_eq_false_iff ordered ⟨Bound.in_flip one.2, Bound.in_flip two.1⟩).1 some
    exact ⟨place, (Bound.lowerAt_flip limited).1 above, (Bound.upperAt_flip limitedToo).1 below⟩
  · rintro ⟨place, above, below⟩
    have limited : first.upper ≠ .unbounded := fun free => above (by rw [free]; trivial)
    have limitedToo : second.lower ≠ .unbounded := fun free => below (by rw [free]; trivial)
    refine ⟨_, gap?_of_limited limited limitedToo, ?_⟩
    exact (isEmpty_eq_false_iff ordered ⟨Bound.in_flip one.2, Bound.in_flip two.1⟩).2
      ⟨place, (Bound.lowerAt_flip limited).2 above, (Bound.upperAt_flip limitedToo).2 below⟩

/-- A range connects with another one unless they are apart. -/
theorem connects_eq_false_iff (one : first.In values) (two : second.In values) :
    first.connects second = false ↔ first.Apart second := by
  obtain ⟨_, upper⟩ := first
  obtain ⟨lower, _⟩ := second
  obtain ⟨_, one⟩ := one
  obtain ⟨two, _⟩ := two
  unfold Apart connects gap?
  cases upper <;> cases lower <;>
    simp only [Bound.In, Bound.flip, isEmpty, Option.some.injEq, exists_eq_left', reduceCtorEq,
      false_and, exists_false, Bool.true_eq_false] at *
  all_goals
    rw [ordered.swap one two]
    cases Value.order _ _ <;> simp

/-- What comes after a range that is apart is apart, too. -/
theorem Apart.of_le (apart : first.Apart second) (one : first.In values) (two : second.In values)
    (three : third.In values) (later : Bound.orderLower second.lower third.lower ≠ .gt) :
    first.Apart third := by
  obtain ⟨place, above, below⟩ := (apart_iff ordered one two).1 apart
  exact (apart_iff ordered one three).2
    ⟨place, above, fun reaches => below (.of_le two.1 three.1 later reaches)⟩

omit ordered in
/-- No place is at the end of a range, or before it, and not before a range that is apart. -/
theorem Apart.not_between (apart : first.Apart second) (one : first.In values)
    (two : second.In values) (below : first.upper.UpperAt place) :
    ¬ second.lower.LowerAt place := by
  intro above
  obtain ⟨gap, between, some⟩ := apart
  obtain ⟨_, _, rfl⟩ := gap?_cases between
  obtain ⟨_, upper⟩ := first
  obtain ⟨lower, _⟩ := second
  obtain ⟨_, one⟩ := one
  obtain ⟨two, _⟩ := two
  cases upper <;> cases lower <;>
    simp only [Bound.LowerAt, Bound.UpperAt, Bound.In, Bound.flip, isEmpty, gap?, reduceCtorEq,
      beq_eq_false_iff_ne, bne_eq_false_iff_eq] at *
  · exact below (place.passes one two some above)
  · exact below (place.exceeds one two (by simp [some]) above)
  · exact place.reaches one two (by simp [some]) above below
  · have exceeds := place.exceeds one two some above
    rw [below] at exceeds
    cases exceeds

/-- A range that is not empty starts before the ranges that are apart from it. -/
theorem Apart.orderLower (apart : first.Apart second) (one : first.In values)
    (two : second.In values) (some : first.isEmpty = false) :
    Bound.orderLower first.lower second.lower = .lt := by
  have back := Bound.orderLower_swap ordered one.1 two.1
  obtain ⟨place, above, below⟩ := (isEmpty_eq_false_iff ordered one).1 some
  by_contra notBefore
  refine apart.not_between one two below (.of_le two.1 one.1 ?_ above)
  rw [back]
  simp_all

/-- A range that is stretched over one that it connects with covers what both cover. -/
theorem covers_stretch (one : first.In values) (two : second.In values)
    (connected : first.connects second = true)
    (later : Bound.orderLower first.lower second.lower ≠ .gt) :
    (first.stretch second).Covers place ↔ first.Covers place ∨ second.Covers place := by
  unfold Covers stretch
  rw [Bound.upperAt_later_iff ordered one.2 two.2]
  constructor
  · rintro ⟨above, below | below⟩
    · exact .inl ⟨above, below⟩
    · by_cases beyond : first.upper.UpperAt place
      · exact .inl ⟨above, beyond⟩
      -- Above the first range and below the second there would be a gap.
      refine .inr ⟨?_, below⟩
      by_contra before
      rw [(connects_eq_false_iff ordered one two).2
        ((apart_iff ordered one two).2 ⟨place, beyond, before⟩)] at connected
      cases connected
  · rintro (⟨above, below⟩ | ⟨above, below⟩)
    · exact ⟨above, .inl below⟩
    · exact ⟨.of_le one.1 two.1 later above, .inr below⟩

end Ordered

/-! ### Normal form -/

/-- Ranges by ascending lower bound. -/
def Ascending (ranges : List Range) : Prop :=
  ranges.Pairwise fun first second => Bound.orderLower first.lower second.lower ≠ .gt

/-- **Normal form**: ranges that are not empty, each before the next one and apart from it. -/
structure Normal (ranges : List Range) : Prop where
  filled : ∀ range ∈ ranges, range.isEmpty = false
  ascending : ranges.Pairwise fun first second =>
    Bound.orderLower first.lower second.lower = .lt
  apart : ranges.Pairwise Apart

/-- A joined range starts where one of the ranges does. -/
theorem lower_of_mem_mergeFrom : ∀ {current : Range}, range ∈ mergeFrom current ranges →
    ∃ source ∈ current :: ranges, range.lower = source.lower := by
  induction ranges with
  | nil =>
    intro current member
    rw [mergeFrom, List.mem_singleton] at member
    exact ⟨current, List.mem_cons_self, member ▸ rfl⟩
  | cons next rest ih =>
    intro current member
    rw [mergeFrom_cons] at member
    split at member
    · obtain ⟨source, among, same⟩ := ih member
      rcases List.mem_cons.1 among with rfl | among
      · exact ⟨current, List.mem_cons_self, same⟩
      · exact ⟨source, List.mem_cons_of_mem _ (List.mem_cons_of_mem _ among), same⟩
    · rcases List.mem_cons.1 member with rfl | member
      · exact ⟨range, List.mem_cons_self, rfl⟩
      · obtain ⟨source, among, same⟩ := ih member
        exact ⟨source, List.mem_cons_of_mem _ among, same⟩

section Ordered

variable (ordered : Value.Ordered values)
include ordered

theorem ascending_insertByLower (inside : first.In values) (each : ∀ range ∈ ranges, range.In values)
    (sorted : Ascending ranges) : Ascending (insertByLower first ranges) := by
  unfold Ascending at *
  induction ranges with
  | nil => simp [insertByLower]
  | cons head tail ih =>
    have here := each head List.mem_cons_self
    have others := fun range member => each range (List.mem_cons_of_mem head member)
    obtain ⟨ahead, rest⟩ := List.pairwise_cons.1 sorted
    have back := Bound.orderLower_swap ordered here.1 inside.1
    unfold insertByLower
    split
    · rename_i earlier
      refine List.pairwise_cons.2 ⟨fun range member => ?_, ih others rest⟩
      rcases mem_insertByLower.1 member with rfl | member
      · simp_all
      · exact ahead range member
    · rename_i later
      have before : Bound.orderLower first.lower head.lower ≠ .gt := by
        rw [back]
        simp_all
      refine List.pairwise_cons.2 ⟨fun range member => ?_, sorted⟩
      rcases List.mem_cons.1 member with rfl | member
      · exact before
      · exact Bound.orderLower_trans ordered inside.1 here.1 (others range member).1 before
          (ahead range member)

theorem ascending_sortByLower (each : ∀ range ∈ ranges, range.In values) :
    Ascending (sortByLower ranges) := by
  induction ranges with
  | nil => exact .nil
  | cons head tail ih =>
    have others := fun range member => each range (List.mem_cons_of_mem head member)
    exact ascending_insertByLower ordered (each head List.mem_cons_self)
      (fun range member => others range (mem_sortByLower.1 member)) (ih others)

/-- Joining a range with its followers neither loses nor adds a place. The first range starts before
all others, so it can be stretched over those that it meets. -/
theorem exists_covers_mergeFrom : ∀ {current : Range}, current.In values →
    (∀ range ∈ ranges, range.In values) → Ascending (current :: ranges) →
      ((∃ range ∈ mergeFrom current ranges, range.Covers place) ↔
        ∃ range ∈ current :: ranges, range.Covers place) := by
  induction ranges with
  | nil => exact fun _ _ _ => Iff.rfl
  | cons next rest ih =>
    intro current inside each sorted
    have following := each next List.mem_cons_self
    have others := fun range member => each range (List.mem_cons_of_mem next member)
    obtain ⟨ahead, later⟩ := List.pairwise_cons.1 sorted
    rw [mergeFrom_cons]
    split
    · rename_i connected
      have stretched : Ascending (current.stretch next :: rest) := List.pairwise_cons.2
        ⟨fun range member => ahead range (List.mem_cons_of_mem next member),
          (List.pairwise_cons.1 later).2⟩
      have both : (current.stretch next).Covers place ↔ current.Covers place ∨ next.Covers place :=
        covers_stretch ordered inside following connected (ahead next List.mem_cons_self)
      rw [ih (in_stretch inside following) others stretched]
      simp only [List.mem_cons, exists_eq_or_imp, both, or_assoc]
    · have tail := ih following others later
      simp only [List.mem_cons, exists_eq_or_imp] at tail ⊢
      rw [tail]

/-- Ranges by ascending lower bound that are not empty are joined to a normal form. -/
theorem normal_mergeFrom : ∀ {current : Range}, current.In values →
    (∀ range ∈ ranges, range.In values) → Ascending (current :: ranges) →
      (∀ range ∈ current :: ranges, range.isEmpty = false) →
        Normal (mergeFrom current ranges) := by
  induction ranges with
  | nil =>
    intro current _ _ _ filled
    exact ⟨filled, List.pairwise_singleton _ _, List.pairwise_singleton _ _⟩
  | cons next rest ih =>
    intro current inside each sorted filled
    have following := each next List.mem_cons_self
    have others := fun range member => each range (List.mem_cons_of_mem next member)
    obtain ⟨ahead, later⟩ := List.pairwise_cons.1 sorted
    have here := filled current List.mem_cons_self
    have behind := fun range member => filled range (List.mem_cons_of_mem current member)
    rw [mergeFrom_cons]
    split
    · rename_i connected
      refine ih (in_stretch inside following) others (List.pairwise_cons.2
        ⟨fun range member => ahead range (List.mem_cons_of_mem next member),
          (List.pairwise_cons.1 later).2⟩) (List.forall_mem_cons.2 ⟨?_, fun range member =>
            behind range (List.mem_cons_of_mem next member)⟩)
      obtain ⟨place, covers⟩ := (isEmpty_eq_false_iff ordered inside).1 here
      exact (isEmpty_eq_false_iff ordered (in_stretch inside following)).2 ⟨place,
        (covers_stretch ordered inside following connected (ahead next List.mem_cons_self)).2
          (.inl covers)⟩
    · rename_i separate
      have normal := ih following others later behind
      have apart : ∀ range ∈ mergeFrom next rest, current.Apart range := by
        intro range member
        obtain ⟨source, among, same⟩ := lower_of_mem_mergeFrom member
        have known := in_of_mem_mergeFrom following others range member
        refine Apart.of_le ordered ((connects_eq_false_iff ordered inside following).1
          (Bool.eq_false_iff.2 separate)) inside following known ?_
        rw [same]
        rcases List.mem_cons.1 among with rfl | among
        · exact Bound.orderLower_refl ordered following.1
        · exact (List.pairwise_cons.1 later).1 source among
      refine ⟨List.forall_mem_cons.2 ⟨here, normal.filled⟩, List.pairwise_cons.2
        ⟨fun range member => ?_, normal.ascending⟩, List.pairwise_cons.2 ⟨apart, normal.apart⟩⟩
      exact (apart range member).orderLower ordered inside
        (in_of_mem_mergeFrom following others range member) here

/-- The ranges that are joined to a normal form ascend. -/
theorem ascending_sortByLower_filter (each : ∀ range ∈ ranges, range.In values) :
    Ascending (sortByLower (ranges.filter fun range => !range.isEmpty)) :=
  ascending_sortByLower ordered fun range member => each range (List.mem_filter.1 member).1

/-- **A normal form is normal**: its ranges are not empty, in strictly ascending order and apart. -/
theorem normal_normalize (each : ∀ range ∈ ranges, range.In values) :
    Normal (normalize ranges) := by
  have sorted := ascending_sortByLower_filter ordered each
  have known : ∀ range ∈ sortByLower (ranges.filter fun range => !range.isEmpty),
      range.In values ∧ range.isEmpty = false := fun range member =>
    (mem_sortByLower_filter.1 member).imp_left (each range)
  unfold normalize merge
  split
  · exact ⟨nofun, .nil, .nil⟩
  · rename_i first rest shape
    rw [shape] at sorted known
    exact normal_mergeFrom ordered (known first List.mem_cons_self).1
      (fun range member => (known range (List.mem_cons_of_mem first member)).1) sorted
      fun range member => (known range member).2

/-- **A normal form covers the places of the ranges that it is made from.** -/
theorem exists_covers_normalize (each : ∀ range ∈ ranges, range.In values) :
    (∃ range ∈ normalize ranges, range.Covers place) ↔ ∃ range ∈ ranges, range.Covers place := by
  have sorted := ascending_sortByLower_filter ordered each
  have known : ∀ range ∈ sortByLower (ranges.filter fun range => !range.isEmpty),
      range.In values := fun range member => each range (mem_sortByLower_filter.1 member).1
  have same : (∃ range ∈ ranges, range.Covers place) ↔
      ∃ range ∈ sortByLower (ranges.filter fun range => !range.isEmpty), range.Covers place := by
    simp only [mem_sortByLower_filter, and_assoc]
    refine exists_congr fun range => and_congr_right fun member =>
      ⟨fun covers => ⟨?_, covers⟩, And.right⟩
    exact (isEmpty_eq_false_iff ordered (each range member)).2 ⟨place, covers⟩
  rw [same]
  unfold normalize merge
  split
  · rename_i shape
    rw [shape]
  · rename_i first rest shape
    rw [shape] at sorted known ⊢
    exact exists_covers_mergeFrom ordered (known first List.mem_cons_self)
      (fun range member => known range (List.mem_cons_of_mem first member)) sorted

end Ordered

end Range

/-! ### Values -/

section Values

variable (ordered : Value.Ordered values) {value : Value} (there : values value)

/-- The place on a value. -/
def Place.on : Place values := .nextTo ordered there .eq

include ordered

theorem Bound.lowerAt_on {bound : Bound} (inside : bound.In values) :
    bound.LowerAt (.on ordered there) ↔ bound.Lower value := by
  cases bound with
  | unbounded => exact Iff.rfl
  | included bound =>
    simp only [LowerAt, Place.on, Place.nextTo, Ordering.then_eq, Lower]
    exact ordered.not_lt_iff there inside
  | excluded bound =>
    simp only [LowerAt, Place.on, Place.nextTo, Ordering.then_eq, Lower]
    exact ordered.gt_iff there inside

theorem Bound.upperAt_on {bound : Bound} :
    bound.UpperAt (.on ordered there) ↔ bound.Upper value := by
  cases bound <;> simp [UpperAt, Upper, Place.on, Place.nextTo]

/-- **A range covers the place on a value exactly where it holds the value.** -/
theorem Range.covers_on {range : Range} (inside : range.In values) :
    range.Covers (.on ordered there) ↔ range.Holds value :=
  and_congr (Bound.lowerAt_on ordered there inside.1) (Bound.upperAt_on ordered there)

include there in
/-- A normal form holds the values of the ranges that it is made from. -/
theorem Range.exists_holds_normalize {ranges : List Range}
    (each : ∀ range ∈ ranges, range.In values) :
    (∃ range ∈ normalize ranges, range.Holds value) ↔ ∃ range ∈ ranges, range.Holds value := by
  have places : ∀ {ranges : List Range}, (∀ range ∈ ranges, range.In values) →
      ((∃ range ∈ ranges, range.Covers (.on ordered there)) ↔
        ∃ range ∈ ranges, range.Holds value) := fun inside =>
    exists_congr fun range => and_congr_right fun member =>
      covers_on ordered there (inside range member)
  rw [← places each, ← places (in_of_mem_normalize each)]
  exact exists_covers_normalize ordered each

/-- No two ranges of a normal form hold the same value. -/
theorem Range.Normal.disjoint {ranges : List Range} (normal : Normal ranges)
    (each : ∀ range ∈ ranges, range.In values) : ranges.Pairwise fun first second =>
      ∀ value, values value → ¬ (first.Holds value ∧ second.Holds value) := by
  refine normal.apart.imp_of_mem fun {first second} one two apart value there held => ?_
  have below := ((covers_on ordered there (each first one)).2 held.1).2
  have above := ((covers_on ordered there (each second two)).2 held.2).1
  exact apart.not_between (each first one) (each second two) below above

end Values

end Cascades
