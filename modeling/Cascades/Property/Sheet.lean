/-
**Sheets: records that are filled in field by field.**

A sheet is a draft, in which some fields have values, until it is completed and has all of them. The
type of a value depends on its field.

* `get?_put`: a field keeps the value that was put, and the others keep theirs;
* `count`: how many fields have values.
-/

namespace Cascades

/-- A record with a value for some fields, or for all once it is complete. -/
inductive Sheet {Field : Type} (Value : Field → Type) where
  | draft (known : (field : Field) → Option (Value field))
  | complete (values : (field : Field) → Value field)

namespace Sheet

variable {Field : Type} {Value : Field → Type}

/-- The sheet without values. -/
def blank : Sheet Value := .draft fun _ => none

instance : Inhabited (Sheet Value) := ⟨blank⟩

/-- Whether a sheet is complete. -/
def isComplete : Sheet Value → Bool
  | draft _ => false
  | complete _ => true

/-- The value of a field. -/
def get? (sheet : Sheet Value) (field : Field) : Option (Value field) :=
  match sheet with
  | draft known => known field
  | complete values => some (values field)

/-- The sheet with a value for a field; a complete one stays as it is. -/
def put [DecidableEq Field] (sheet : Sheet Value) (field : Field) (value : Value field) :
    Sheet Value :=
  match sheet with
  | draft known =>
    draft fun other => if same : other = field then some (same ▸ value) else known other
  | complete values => complete values

/-- The number of the given fields that have values. -/
def count (fields : List Field) (sheet : Sheet Value) : Nat :=
  fields.countP fun field => (sheet.get? field).isSome

/-! ### Values after a change -/

@[simp] theorem get?_blank {field : Field} : (blank : Sheet Value).get? field = none := rfl

theorem get?_put [DecidableEq Field] {sheet : Sheet Value} {field : Field} {value : Value field}
    (unknown : sheet.get? field = none) : (sheet.put field value).get? field = some value := by
  cases sheet with
  | draft known => simp [put, get?]
  | complete values => simp [get?] at unknown

theorem get?_put_ne [DecidableEq Field] {sheet : Sheet Value} {field other : Field}
    {value : Value field} (different : other ≠ field) :
    (sheet.put field value).get? other = sheet.get? other := by
  cases sheet with
  | draft known => simp [put, get?, different]
  | complete values => rfl

theorem count_le {fields : List Field} {sheet : Sheet Value} :
    sheet.count fields ≤ fields.length :=
  List.countP_le_length

theorem count_complete {fields : List Field} {values : (field : Field) → Value field} :
    (complete values).count fields = fields.length := by
  simp [count, get?]

end Sheet

end Cascades
