/-
**Renaming the columns of a constraint is a substitution.**

A row satisfies a renamed constraint where the row that has at each column the value of the new column
satisfies the constraint. Two columns may get one name, so parts on different columns can come to share
an entry of an index; all indexes are built anew.

* `ColumnMap.rename_andThen`: renaming by two maps is renaming by one;
* `Indexed.rebuilt_remap`, `Indexed.remap_ofConstraint`: the indexes after a renaming;
* `Constraint.holds_remap`, `Constraint.mem_columns_remap`: the rows and the columns after it;
* `remap_substitutes`: all of this together.
-/

import Cascades.Proofs.Constraint.Indexing

namespace Cascades

/-! ### Maps of columns -/

namespace ColumnMap

variable {α : Type} {column : ColumnId} {entries : List (ColumnId × α)}

theorem get?_foldl_insert (ascending : entries.Pairwise fun first second => first.1 < second.1)
    (map : ColumnMap α) :
    (entries.foldl (fun map entry => map.insert entry.1 entry.2) map).get? column =
      (lookupEntry column entries).or (map.get? column) := by
  induction entries generalizing map with
  | nil => rfl
  | cons head tail ih =>
    obtain ⟨above, ascending⟩ := List.pairwise_cons.1 ascending
    rw [List.foldl_cons, ih ascending, get?_insert, lookupEntry.eq_2]
    by_cases here : column = head.1
    · have absent : lookupEntry column tail = none := by
        rw [← Option.not_isSome_iff_eq_none, isSome_lookupEntry]
        rintro ⟨value, inside⟩
        exact Nat.lt_irrefl head.1 (here ▸ above (column, value) inside)
      rw [absent, if_pos here, if_pos here]
      rfl
    · rw [if_neg here, if_neg here]

/-- Of two maps the second counts where both have a column. -/
theorem get?_override {first second : ColumnMap α} :
    (first.override second).get? column = (second.get? column).or (first.get? column) :=
  get?_foldl_insert second.ascending first

/-- **Renaming by two maps** one after the other is renaming by one. -/
theorem rename_andThen (first second : ColumnMap ColumnId) (column : ColumnId) :
    (first.andThen second).rename column = second.rename (first.rename column) := by
  rw [rename, andThen, get?_override, get?_map]
  cases renamed : first.get? column with
  | none =>
    rw [rename, rename, renamed]
    rfl
  | some target =>
    rw [rename.eq_1 first, renamed]
    rfl

end ColumnMap

namespace Indexed

variable {rename : ColumnId → ColumnId}

/-! ### Indexes after a renaming -/

mutual

theorem rebuilt_remap : (tree : Indexed) → (tree.remap rename).Rebuilt
  | interval _ => trivial
  | all parts _ => ⟨rfl, allRebuilt_remapParts parts⟩
  | any parts _ => ⟨rfl, allRebuilt_remapParts parts⟩

theorem allRebuilt_remapParts : (parts : List Indexed) → AllRebuilt (remapParts rename parts)
  | [] => trivial
  | part :: rest => ⟨rebuilt_remap part, allRebuilt_remapParts rest⟩

end

mutual

theorem remap_ofConstraint : (constraint : Constraint) →
    (ofConstraint constraint).remap rename = ofConstraint (constraint.remap rename)
  | .interval _ => rfl
  | .all parts => by
    rw [ofConstraint, ofAll, remap, Constraint.remap, ofConstraint, remapParts_ofParts parts]
  | .any parts => by
    rw [ofConstraint, ofAny, remap, Constraint.remap, ofConstraint, remapParts_ofParts parts]

theorem remapParts_ofParts : (parts : List Constraint) →
    remapParts rename (ofParts parts) = ofParts (Constraint.remapParts rename parts)
  | [] => rfl
  | part :: rest => by
    rw [ofParts, remapParts, Constraint.remapParts, ofParts, remap_ofConstraint part,
      remapParts_ofParts rest]

end

mutual

/-- Renaming twice is renaming once. -/
theorem remap_remap {first second : ColumnId → ColumnId} : (tree : Indexed) →
    (tree.remap first).remap second = tree.remap fun column => second (first column)
  | interval _ => rfl
  | all parts _ => by rw [remap, ofAll, remap, remap, remapParts_remapParts parts]
  | any parts _ => by rw [remap, ofAny, remap, remap, remapParts_remapParts parts]

theorem remapParts_remapParts {first second : ColumnId → ColumnId} : (parts : List Indexed) →
    remapParts second (remapParts first parts) = remapParts (fun column => second (first column)) parts
  | [] => rfl
  | part :: rest => by
    rw [remapParts, remapParts, remapParts, remap_remap part, remapParts_remapParts rest]

end

/-! ### Constraints without their indexes -/

mutual

theorem toConstraint_ofConstraint : (constraint : Constraint) →
    (ofConstraint constraint).toConstraint = constraint
  | .interval _ => rfl
  | .all parts => by rw [ofConstraint, ofAll, toConstraint, toParts_ofParts parts]
  | .any parts => by rw [ofConstraint, ofAny, toConstraint, toParts_ofParts parts]

theorem toParts_ofParts : (parts : List Constraint) → toParts (ofParts parts) = parts
  | [] => rfl
  | part :: rest => by rw [ofParts, toParts, toConstraint_ofConstraint part, toParts_ofParts rest]

end

end Indexed

/-! ### Rows and columns after a renaming -/

namespace Constraint

variable {rename : ColumnId → ColumnId} {row : ColumnId → Value} {column : ColumnId}

mutual

/-- **A row satisfies a renamed constraint** where the row behind the renaming satisfies the
constraint. -/
theorem holds_remap : (constraint : Constraint) →
    ((constraint.remap rename).Holds row ↔ constraint.Holds fun column => row (rename column))
  | interval _ => Iff.rfl
  | all parts => by
    rw [remap, Holds, Holds]
    exact (holds_remapParts parts).1
  | any parts => by
    rw [remap, Holds, Holds]
    exact (holds_remapParts parts).2

theorem holds_remapParts : (parts : List Constraint) →
    (AllHold row (remapParts rename parts) ↔ AllHold (fun column => row (rename column)) parts) ∧
      (AnyHolds row (remapParts rename parts) ↔ AnyHolds (fun column => row (rename column)) parts)
  | [] => ⟨Iff.rfl, Iff.rfl⟩
  | part :: rest =>
    have here := holds_remap part
    have later := holds_remapParts rest
    ⟨and_congr here later.1, or_congr here later.2⟩

end

mutual

/-- **The columns of a renamed constraint** are the new columns of its own. -/
theorem mem_columns_remap : (constraint : Constraint) →
    (column ∈ (constraint.remap rename).columns ↔ ∃ source ∈ constraint.columns, rename source = column)
  | interval value => by
    rw [remap, mem_columns_interval]
    simp [mem_columns_interval, eq_comm]
  | all parts => by
    rw [remap, Constraint.columns, Constraint.columns]
    exact mem_columnsOfParts_remapParts parts
  | any parts => by
    rw [remap, Constraint.columns, Constraint.columns]
    exact mem_columnsOfParts_remapParts parts

theorem mem_columnsOfParts_remapParts : (parts : List Constraint) →
    (column ∈ columnsOfParts (remapParts rename parts) ↔
      ∃ source ∈ columnsOfParts parts, rename source = column)
  | [] => by simp [remapParts, columnsOfParts]
  | part :: rest => by
    simp only [remapParts, columnsOfParts, SortedSet.mem_union, mem_columns_remap part,
      mem_columnsOfParts_remapParts rest, or_and_right, exists_or]

end

/-- **Renaming the columns of a constraint is a substitution.** A row satisfies the renamed constraint
where the row behind the renaming satisfies the constraint; the columns of the result, as its index has
them, are the new columns; every index in the result is the one that belongs to its parts; and renaming by
two maps is renaming by the one that they make together. -/
theorem remap_substitutes (constraint : Constraint) (map later : ColumnMap ColumnId) :
    let indexed := Indexed.ofConstraint constraint
    (∀ row : ColumnId → Value,
      (constraint.remap map.rename).Holds row ↔ constraint.Holds fun column => row (map.rename column)) ∧
    (∀ column, column ∈ (indexed.remap map.rename).columns ↔
      ∃ source ∈ indexed.columns, map.rename source = column) ∧
    (indexed.remap map.rename = Indexed.ofConstraint (constraint.remap map.rename) ∧
      (indexed.remap map.rename).Rebuilt) ∧
    (indexed.remap map.rename).remap later.rename = indexed.remap (map.andThen later).rename ∧
    (constraint.remap map.rename).remap later.rename = constraint.remap (map.andThen later).rename := by
  intro indexed
  have composed : (fun column => later.rename (map.rename column)) = (map.andThen later).rename :=
    funext fun column => (ColumnMap.rename_andThen map later column).symm
  have twice : (indexed.remap map.rename).remap later.rename = indexed.remap fun column =>
      later.rename (map.rename column) := Indexed.remap_remap _
  rw [composed] at twice
  refine ⟨fun row => holds_remap constraint, fun column => ?_,
    ⟨Indexed.remap_ofConstraint constraint, Indexed.rebuilt_remap _⟩, twice, ?_⟩
  · rw [Indexed.remap_ofConstraint, Indexed.columns_ofConstraint, Indexed.columns_ofConstraint]
    exact mem_columns_remap constraint
  · simp only [indexed, Indexed.remap_ofConstraint] at twice
    rw [← Indexed.toConstraint_ofConstraint ((constraint.remap map.rename).remap later.rename), twice,
      Indexed.toConstraint_ofConstraint]

/-- Two columns that get one name share an entry. -/
example : (Indexed.indexOf (Indexed.remapParts (fun _ => 3)
    [.interval (.notNull 1), .interval (.nullOnly 5), .interval (.notNull 2)])).get? 3 = some [0, 1, 2] := by
  decide

end Constraint

end Cascades
