/-
**Finite maps from columns.**

A `ColumnMap` is a list of columns with values in ascending order of the columns, each column at
most once.

* `get?_insert`, `get?_map`: looking up after an insertion and after a change of the values;
* `contains_iff`: which columns have a value.
-/

import Cascades.Operator.Basic

namespace Cascades

/-- Values for finitely many columns. -/
structure ColumnMap (α : Type) where
  entries : List (ColumnId × α)
  ascending : entries.Pairwise fun first second => first.1 < second.1

namespace ColumnMap

variable {α : Type}

/-! ### Insertion into an ascending list -/

/-- Puts a value in the place of its column; an earlier value of the column is dropped. -/
def insertEntry (column : ColumnId) (value : α) : List (ColumnId × α) → List (ColumnId × α)
  | [] => [(column, value)]
  | head :: tail =>
    if column < head.1 then (column, value) :: head :: tail
    else if column = head.1 then (column, value) :: tail
    else head :: insertEntry column value tail

theorem mem_insertEntry {column : ColumnId} {value : α} {entries : List (ColumnId × α)}
    {entry : ColumnId × α} (member : entry ∈ insertEntry column value entries) :
    entry = (column, value) ∨ entry ∈ entries := by
  induction entries with
  | nil => simpa [insertEntry] using member
  | cons head tail ih =>
    unfold insertEntry at member
    split at member
    · simpa using member
    · split at member
      · rcases List.mem_cons.1 member with same | later
        · exact .inl same
        · exact .inr (List.mem_cons_of_mem _ later)
      · rcases List.mem_cons.1 member with same | later
        · exact .inr (same ▸ List.mem_cons_self)
        · exact (ih later).imp id (List.mem_cons_of_mem _)

theorem pairwise_insertEntry {column : ColumnId} {value : α} {entries : List (ColumnId × α)}
    (ascending : entries.Pairwise fun first second => first.1 < second.1) :
    (insertEntry column value entries).Pairwise fun first second => first.1 < second.1 := by
  induction entries with
  | nil => simp [insertEntry]
  | cons head tail ih =>
    rw [List.pairwise_cons] at ascending
    unfold insertEntry
    split
    · rename_i below
      refine List.pairwise_cons.2 ⟨fun entry member => ?_, List.pairwise_cons.2 ascending⟩
      rcases List.mem_cons.1 member with rfl | member
      · exact below
      · exact Nat.lt_trans below (ascending.1 entry member)
    · split
      · rename_i same
        exact List.pairwise_cons.2
          ⟨fun entry member => same ▸ ascending.1 entry member, ascending.2⟩
      · rename_i notBelow different
        refine List.pairwise_cons.2 ⟨fun entry member => ?_, ih ascending.2⟩
        rcases mem_insertEntry member with rfl | member
        · exact Nat.lt_of_le_of_ne (Nat.le_of_not_lt notBelow) fun same => different same.symm
        · exact ascending.1 entry member

/-- The value of a column among some entries. -/
def lookupEntry (column : ColumnId) : List (ColumnId × α) → Option α
  | [] => none
  | head :: tail => if column = head.1 then some head.2 else lookupEntry column tail

/-! ### Operations -/

/-- The map without columns. -/
def empty : ColumnMap α := ⟨[], .nil⟩

instance : Inhabited (ColumnMap α) := ⟨empty⟩

/-- The map with a value for a column; an earlier value of the column is dropped. -/
def insert (map : ColumnMap α) (column : ColumnId) (value : α) : ColumnMap α :=
  ⟨insertEntry column value map.entries, pairwise_insertEntry map.ascending⟩

/-- The value of a column. -/
def get? (map : ColumnMap α) (column : ColumnId) : Option α := lookupEntry column map.entries

/-- Whether a column has a value. -/
def contains (map : ColumnMap α) (column : ColumnId) : Bool := (map.get? column).isSome

/-- The map with every value changed. -/
def map {β : Type} (change : α → β) (map : ColumnMap α) : ColumnMap β :=
  ⟨map.entries.map fun entry => (entry.1, change entry.2),
    List.pairwise_map.2 (map.ascending.imp fun less => less)⟩

/-- The map of a list of entries; of two for one column the later one counts. -/
def ofList (entries : List (ColumnId × α)) : ColumnMap α :=
  entries.foldl (fun map entry => map.insert entry.1 entry.2) empty

/-- The entries of both maps; where both have a column, the second counts. -/
def override (first second : ColumnMap α) : ColumnMap α :=
  second.entries.foldl (fun map entry => map.insert entry.1 entry.2) first

/-- The columns that have a value. -/
def columns (map : ColumnMap α) : ColumnSet := .ofList (map.entries.map (·.1))

/-! ### Lookup -/

theorem lookup_insertEntry {column other : ColumnId} {value : α}
    {entries : List (ColumnId × α)} :
    lookupEntry other (insertEntry column value entries) =
      if other = column then some value else lookupEntry other entries := by
  induction entries with
  | nil => rfl
  | cons head tail ih =>
    unfold insertEntry
    split
    · rfl
    · split
      · rename_i same
        by_cases found : other = column <;> simp_all [lookupEntry]
      · rename_i different
        by_cases found : other = column
        · subst found
          simp [lookupEntry, ih, different]
        · simp [lookupEntry, ih, found]

@[simp] theorem get?_insert {map : ColumnMap α} {column other : ColumnId} {value : α} :
    (map.insert column value).get? other =
      if other = column then some value else map.get? other :=
  lookup_insertEntry

@[simp] theorem get?_empty {column : ColumnId} : (empty : ColumnMap α).get? column = none := rfl

@[simp] theorem get?_map {β : Type} {change : α → β} {map : ColumnMap α} {column : ColumnId} :
    (map.map change).get? column = (map.get? column).map change := by
  show lookupEntry column (map.entries.map _) = (lookupEntry column map.entries).map change
  induction map.entries with
  | nil => rfl
  | cons head tail ih =>
    simp only [List.map_cons, lookupEntry, ih]
    split <;> rfl

theorem isSome_lookupEntry {column : ColumnId} {entries : List (ColumnId × α)} :
    (lookupEntry column entries).isSome = true ↔ ∃ value, (column, value) ∈ entries := by
  induction entries with
  | nil => simp [lookupEntry]
  | cons head tail ih =>
    obtain ⟨other, value⟩ := head
    by_cases same : column = other
    · subst same
      simp [lookupEntry]
    · simp [lookupEntry, same, ih]

/-- The columns of a map are those that have a value. -/
theorem mem_columns_iff {map : ColumnMap α} {column : ColumnId} :
    column ∈ map.columns ↔ (map.get? column).isSome = true := by
  rw [columns, SortedSet.mem_ofList, get?, isSome_lookupEntry]
  simp

theorem contains_iff {map : ColumnMap α} {column : ColumnId} :
    map.contains column = true ↔ ∃ value, map.get? column = some value :=
  Option.isSome_iff_exists

end ColumnMap

end Cascades
