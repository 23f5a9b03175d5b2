/-
**Finite sets as ascending lists.**

A `SortedSet` is a list without repetitions in ascending order, so two sets with the same members
are the same value.

* `mem_insert`, `mem_union`, `mem_diff`: the operations have their usual members;
* `ext`: a set is determined by its members.
-/

import Std.Data.TreeMap

set_option linter.unusedSectionVars false

namespace Cascades

/-- A finite set, held as the ascending list of its members. -/
structure SortedSet (α : Type) [Ord α] where
  toList : List α
  ascending : toList.Pairwise fun first second => compare first second = .lt

namespace SortedSet

variable {α : Type} [Ord α]

/-! ### Insertion into an ascending list -/

/-- Inserts a value before the first greater one; a value that is already there stays. -/
def insertList (value : α) : List α → List α
  | [] => [value]
  | head :: tail =>
    match compare value head with
    | .lt => value :: head :: tail
    | .eq => head :: tail
    | .gt => head :: insertList value tail

section Laws

variable [Std.TransOrd α] [Std.LawfulEqOrd α]

theorem mem_insertList {value other : α} {list : List α} :
    other ∈ insertList value list ↔ other = value ∨ other ∈ list := by
  induction list with
  | nil => simp [insertList]
  | cons head tail ih =>
    unfold insertList
    split
    · simp
    · rename_i same
      have : value = head := Std.LawfulEqOrd.eq_of_compare same
      subst this
      simp
    · simp [ih, or_left_comm]

theorem pairwise_insertList {value : α} {list : List α}
    (ascending : list.Pairwise fun first second => compare first second = .lt) :
    (insertList value list).Pairwise fun first second => compare first second = .lt := by
  induction list with
  | nil => simp [insertList]
  | cons head tail ih =>
    rw [List.pairwise_cons] at ascending
    unfold insertList
    split
    · rename_i below
      refine List.pairwise_cons.2 ⟨fun other member => ?_, List.pairwise_cons.2 ascending⟩
      rcases List.mem_cons.1 member with rfl | member
      · exact below
      · exact Std.TransCmp.lt_trans below (ascending.1 other member)
    · exact List.pairwise_cons.2 ascending
    · rename_i above
      refine List.pairwise_cons.2 ⟨fun other member => ?_, ih ascending.2⟩
      rcases mem_insertList.1 member with rfl | member
      · exact Std.OrientedCmp.gt_iff_lt.1 above
      · exact ascending.1 other member

/-! ### Operations -/

/-- The set without members. -/
def empty : SortedSet α := ⟨[], .nil⟩

instance : Inhabited (SortedSet α) := ⟨empty⟩

instance : EmptyCollection (SortedSet α) := ⟨empty⟩

instance : Membership α (SortedSet α) := ⟨fun set value => value ∈ set.toList⟩

instance [DecidableEq α] (value : α) (set : SortedSet α) : Decidable (value ∈ set) :=
  inferInstanceAs (Decidable (value ∈ set.toList))

instance [DecidableEq α] : DecidableEq (SortedSet α) := fun first second =>
  decidable_of_iff (first.toList = second.toList) ⟨fun same => by
    cases first; cases second; simp_all, fun same => same ▸ rfl⟩

/-- The set with one more member. -/
def insert (set : SortedSet α) (value : α) : SortedSet α :=
  ⟨insertList value set.toList, pairwise_insertList set.ascending⟩

/-- The set of the members of a list. -/
def ofList (list : List α) : SortedSet α := list.foldl insert empty

/-- The members of either set. -/
def union (first second : SortedSet α) : SortedSet α := second.toList.foldl insert first

/-- The members of the first set that the second lacks. -/
def diff [DecidableEq α] (first second : SortedSet α) : SortedSet α :=
  ⟨first.toList.filter (· ∉ second), first.ascending.filter _⟩

/-- Whether every member of the first set is one of the second. -/
def subset [DecidableEq α] (first second : SortedSet α) : Bool :=
  first.toList.all (· ∈ second)

/-- The number of members. -/
def size (set : SortedSet α) : Nat := set.toList.length

/-- Whether there is no member. -/
def isEmpty (set : SortedSet α) : Bool := set.toList.isEmpty

/-! ### Members -/

@[simp] theorem not_mem_empty (value : α) : ¬ value ∈ (empty : SortedSet α) :=
  List.not_mem_nil

@[simp] theorem mem_insert {set : SortedSet α} {value other : α} :
    other ∈ set.insert value ↔ other = value ∨ other ∈ set :=
  mem_insertList

theorem mem_foldl_insert {list : List α} {set : SortedSet α} {other : α} :
    other ∈ list.foldl insert set ↔ other ∈ set ∨ other ∈ list := by
  induction list generalizing set with
  | nil => simp
  | cons head tail ih => simp [ih, or_assoc, or_left_comm]

@[simp] theorem mem_ofList {list : List α} {other : α} : other ∈ ofList list ↔ other ∈ list := by
  simp [ofList, mem_foldl_insert]

@[simp] theorem mem_union {first second : SortedSet α} {other : α} :
    other ∈ first.union second ↔ other ∈ first ∨ other ∈ second :=
  mem_foldl_insert

@[simp] theorem mem_diff [DecidableEq α] {first second : SortedSet α} {other : α} :
    other ∈ first.diff second ↔ other ∈ first ∧ ¬ other ∈ second := by
  show other ∈ first.toList.filter _ ↔ _
  rw [List.mem_filter, decide_eq_true_iff]
  rfl

theorem subset_iff [DecidableEq α] {first second : SortedSet α} :
    first.subset second = true ↔ ∀ value, value ∈ first → value ∈ second := by
  simp only [subset, List.all_eq_true, decide_eq_true_iff]
  rfl

/-- **A set is determined by its members.** -/
theorem ext {first second : SortedSet α}
    (same : ∀ value, value ∈ first ↔ value ∈ second) : first = second := by
  rcases first with ⟨first, firstAscending⟩
  rcases second with ⟨second, secondAscending⟩
  have lists : first = second := by
    induction first generalizing second with
    | nil =>
      cases second with
      | nil => rfl
      | cons head tail => exact absurd ((same head).2 List.mem_cons_self) List.not_mem_nil
    | cons head tail ih =>
      cases second with
      | nil => exact absurd ((same head).1 List.mem_cons_self) List.not_mem_nil
      | cons head' tail' =>
        rw [List.pairwise_cons] at firstAscending secondAscending
        have heads : head = head' := by
          rcases List.mem_cons.1 ((same head).1 List.mem_cons_self) with equal | inTail'
          · exact equal
          rcases List.mem_cons.1 ((same head').2 List.mem_cons_self) with equal | inTail
          · exact equal.symm
          have up := firstAscending.1 head' inTail
          have down := secondAscending.1 head inTail'
          rw [Std.OrientedOrd.eq_swap, down] at up
          cases up
        subst heads
        refine congrArg _ (ih firstAscending.2 tail' secondAscending.2 fun value => ?_)
        constructor
        · intro member
          rcases List.mem_cons.1 ((same value).1 (List.mem_cons_of_mem _ member)) with rfl | found
          · have := firstAscending.1 value member
            rw [Std.ReflOrd.compare_self] at this
            cases this
          · exact found
        · intro member
          rcases List.mem_cons.1 ((same value).2 (List.mem_cons_of_mem _ member)) with rfl | found
          · have := secondAscending.1 value member
            rw [Std.ReflOrd.compare_self] at this
            cases this
          · exact found
  subst lists
  rfl

end Laws

end SortedSet

end Cascades
