/-
**The catalog: what is known of tables and functions.**

A catalog answers questions about tables and functions, wherever the answers come from.

* `Catalog`: the questions;
* `Catalog.Entries`: a catalog that is kept as lists. Tables are filed under their text `schema.name`,
  so two tables with one text share an entry.
-/

import Cascades.Property.Function
import Cascades.Statistics.Basic

namespace Cascades

/-- What is known of tables and functions. -/
structure Catalog where
  statistics? : Table → Option Statistics := fun _ => none
  columns? : Table → Option (List Column) := fun _ => none
  function? : String → Option FunctionTraits := fun _ => none
  isPartitioned : Table → Bool := fun _ => false
  deriving Inhabited

namespace Catalog

/-- The entry of a table. -/
structure TableEntry where
  columns : List Column
  statistics : Statistics
  deriving Inhabited

/-- Entries of tables and functions; of two entries under one name the first counts. -/
structure Entries where
  tables : List (String × TableEntry) := []
  functions : List (String × FunctionTraits) := []
  partitioned : List String := []
  deriving Inhabited

namespace Entries

/-- The entries with one for a table, in place of any earlier one. -/
def addTable (entries : Entries) (table : Table) (entry : TableEntry) : Entries :=
  { entries with tables := (table.toText, entry) :: entries.tables }

/-- The entries with the traits of a function, in place of any earlier ones. -/
def addFunction (entries : Entries) (name : String) (traits : FunctionTraits) : Entries :=
  { entries with functions := (name, traits) :: entries.functions }

/-- The entries with a table noted as partitioned. -/
def addPartitioned (entries : Entries) (table : Table) : Entries :=
  { entries with partitioned := table.toText :: entries.partitioned }

/-- The entry of a table. -/
def table? (entries : Entries) (table : Table) : Option TableEntry :=
  entries.tables.lookup table.toText

/-- The catalog that looks up its entries. -/
def toCatalog (entries : Entries) : Catalog where
  statistics? table := (entries.table? table).map (·.statistics)
  columns? table := (entries.table? table).map (·.columns)
  function? name := entries.functions.lookup name
  isPartitioned table := entries.partitioned.contains table.toText

instance : Coe Entries Catalog := ⟨toCatalog⟩

end Entries

end Catalog

end Cascades
