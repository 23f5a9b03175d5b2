/-
**Join trees in a memo.**

Relations can be joined two by two in many ways. A group of a memo provides such a nesting if its leaves
and joins can be chosen among the members of the group and, further below, of the groups of its inputs.
Some groups may be counted as one then, for which they have to hold the same relations under the same
conjuncts.

* `Nesting`: a binary tree over relations; `Nesting.Crossless`: no join of it is a cross product;
* `Memo.Links`: a predicate on two relations;
* `Memo.Nests`: a group begins a tree of inner joins under such predicates;
* `Memo.Merging`, `Memo.Provides`: groups that count as one, and what they provide together;
  `decidableProvides`: that can be found out from the expressions of a memo;
* `Memo.Joins`: a group joins a set of relations, and each join applies all predicates across its sides;
  `Joins.columns`, `Joins.connected`: its columns, and the set is connected.
-/

import Cascades.Proofs.Gathering.Members
import Cascades.Proofs.Order.Connected

namespace Cascades

/-! ### Nestings -/

/-- A way to join relations two by two. -/
inductive Nesting where
  | relation (id : GroupId)
  | join (left right : Nesting)

namespace Nesting

/-- The relations from left to right. -/
def relations : Nesting → List GroupId
  | relation id => [id]
  | join left right => left.relations ++ right.relations

/-- The relations as a set. -/
def whole (nesting : Nesting) : Finset GroupId := nesting.relations.toFinset

/-- **No join is a cross product**: something on its left is linked to something on its right. -/
def Crossless (linked : GroupId → GroupId → Prop) : Nesting → Prop
  | relation _ => True
  | join left right =>
    left.Crossless linked ∧ right.Crossless linked ∧ Adjoins linked left.whole right.whole

variable {left right nesting : Nesting} {linked : GroupId → GroupId → Prop}

instance decidableCrossless [DecidableRel linked] : (nesting : Nesting) →
    Decidable (nesting.Crossless linked)
  | relation _ => isTrue trivial
  | join left right =>
    letI := decidableCrossless left
    letI := decidableCrossless right
    inferInstanceAs (Decidable (left.Crossless linked ∧ right.Crossless linked ∧
      Adjoins linked left.whole right.whole))

theorem whole_join : (join left right).whole = left.whole ∪ right.whole :=
  List.toFinset_append

theorem disjoint_of_nodup (nodup : (join left right).relations.Nodup) :
    left.relations.Nodup ∧ right.relations.Nodup ∧ Disjoint left.whole right.whole := by
  obtain ⟨first, second, apart⟩ := List.nodup_append'.1 nodup
  exact ⟨first, second, List.disjoint_toFinset_iff_disjoint.2 apart⟩

theorem Crossless.connected (crossless : nesting.Crossless linked)
    (symmetric : ∀ {first second : GroupId}, linked first second → linked second first) :
    Connected linked nesting.whole := by
  induction nesting with
  | relation id => exact .single id
  | join left right low high =>
    obtain ⟨first, second, adjoins⟩ := crossless
    rw [whole_join]
    exact (low first).union symmetric (high second) adjoins

end Nesting

namespace Memo

variable {memo : Memo} {one two : Finset GroupId} {conjunct first second : GroupId}

/-! ### Columns -/

/-- The columns that a group makes and those that it takes from outside, whatever the catalog. -/
def scope (memo : Memo) (id : GroupId) : Scope := (memo.profile {} id).scope

/-- Groups that are there keep their columns. -/
theorem Grows.profile_scope {next : Memo} (grows : memo.Grows next) (valid : memo.Valid)
    (later : next.Valid) (catalog : Catalog) : ∀ {id : GroupId}, id < memo.groups.size →
      (next.profile catalog id).scope = memo.scope id := by
  intro id
  induction id using Nat.strongRecOn with
  | ind id ih =>
    intro inside
    obtain ⟨expr, found⟩ := valid.exists_firstMember inside
    rw [scope, valid.scope_eq {} found, later.scope_eq catalog (grows.firstMember found)]
    congr 1
    refine List.map_congr_left fun child member => ?_
    have older := (valid.of_firstMember found).2 child member
    exact ih child older (Nat.lt_trans older inside)

/-! ### Predicates on two relations -/

/-- **A predicate on two relations** uses columns of both and no other ones. -/
structure Links (memo : Memo) (conjunct first second : GroupId) : Prop where
  within : ∀ column ∈ (memo.scope conjunct).free,
    column ∈ (memo.scope first).columns ∨
      column ∈ (memo.scope second).columns
  left : ∃ column ∈ (memo.scope conjunct).free,
    column ∈ (memo.scope first).columns
  right : ∃ column ∈ (memo.scope conjunct).free,
    column ∈ (memo.scope second).columns

theorem Links.symm (links : memo.Links conjunct first second) :
    memo.Links conjunct second first :=
  ⟨fun column used => (links.within column used).symm, links.right, links.left⟩

instance : Decidable (memo.Links conjunct first second) :=
  decidable_of_iff ((∀ column ∈ (memo.scope conjunct).free.toList,
      column ∈ (memo.scope first).columns ∨ column ∈ (memo.scope second).columns) ∧
    (∃ column ∈ (memo.scope conjunct).free.toList, column ∈ (memo.scope first).columns) ∧
      ∃ column ∈ (memo.scope conjunct).free.toList, column ∈ (memo.scope second).columns)
    ⟨fun ⟨within, left, right⟩ => ⟨within, left, right⟩,
      fun links => ⟨links.within, links.left, links.right⟩⟩

section Grows

variable {next : Memo} {id : GroupId} (grows : memo.Grows next) (valid : memo.Valid)
  (later : next.Valid)
include grows valid later

theorem Grows.scope_eq (inside : id < memo.groups.size) : next.scope id = memo.scope id :=
  grows.profile_scope valid later {} inside

theorem Links.of_grows (links : memo.Links conjunct first second)
    (inConjunct : conjunct < memo.groups.size) (inFirst : first < memo.groups.size)
    (inSecond : second < memo.groups.size) : next.Links conjunct first second := by
  refine ⟨?_, ?_, ?_⟩
  · rw [grows.scope_eq valid later inConjunct, grows.scope_eq valid later inFirst,
      grows.scope_eq valid later inSecond]
    exact links.within
  · rw [grows.scope_eq valid later inConjunct, grows.scope_eq valid later inFirst]
    exact links.left
  · rw [grows.scope_eq valid later inConjunct, grows.scope_eq valid later inSecond]
    exact links.right

end Grows

/-- A predicate is on two different ones of some relations. -/
def Within (memo : Memo) (conjunct : GroupId) (relations : Finset GroupId) : Prop :=
  ∃ first ∈ relations, ∃ second ∈ relations, first ≠ second ∧ memo.Links conjunct first second

instance {relations : Finset GroupId} : Decidable (memo.Within conjunct relations) :=
  inferInstanceAs (Decidable (∃ first ∈ relations, ∃ second ∈ relations, first ≠ second ∧
    memo.Links conjunct first second))

theorem Within.mono {fewer more : Finset GroupId} (within : memo.Within conjunct fewer)
    (included : fewer ⊆ more) : memo.Within conjunct more :=
  have ⟨first, here, second, there, different, links⟩ := within
  ⟨first, included here, second, included there, different, links⟩

/-- A predicate across two parts is on two relations. -/
theorem within_of_adjoins (disjoint : Disjoint one two)
    (across : Adjoins (memo.Links conjunct) one two) : memo.Within conjunct (one ∪ two) :=
  have ⟨first, here, second, there, links⟩ := across
  ⟨first, Finset.mem_union_left _ here, second, Finset.mem_union_right _ there,
    fun equal => Finset.disjoint_left.1 disjoint here (equal ▸ there), links⟩

/-- One of some predicates is on two given relations. -/
def LinkedBy (memo : Memo) (given : GroupId → Prop) (first second : GroupId) : Prop :=
  ∃ conjunct, given conjunct ∧ memo.Links conjunct first second

instance {conjuncts : List GroupId} : DecidableRel (memo.LinkedBy (· ∈ conjuncts)) :=
  fun first second =>
    inferInstanceAs (Decidable (∃ conjunct ∈ conjuncts, memo.Links conjunct first second))

theorem LinkedBy.symm {given : GroupId → Prop} (linked : memo.LinkedBy given first second) :
    memo.LinkedBy given second first :=
  have ⟨conjunct, known, links⟩ := linked
  ⟨conjunct, known, links.symm⟩

/-- No two of some relations have a column in common. -/
def Apart (memo : Memo) (relations : Finset GroupId) : Prop :=
  ∀ first ∈ relations, ∀ second ∈ relations, ∀ column,
    column ∈ (memo.scope first).columns →
      column ∈ (memo.scope second).columns → first = second

instance {relations : Finset GroupId} : Decidable (memo.Apart relations) :=
  decidable_of_iff (∀ first ∈ relations, ∀ second ∈ relations,
    ∀ column ∈ (memo.scope first).columns.toList,
      column ∈ (memo.scope second).columns → first = second) Iff.rfl

/-! ### Inner joins -/

instance {id : GroupId} : Decidable (memo.Relational id) := decidable_of_iff _ relational_iff.symm

/-- An inner join over two relations and a predicate is a member of a group, or of another one that
counts as one with it. -/
def HasJoin (memo : Memo) (same : GroupId → GroupId → Prop) (id left right predicate : GroupId) : Prop :=
  ∃ (number : ExprId) (expr : Expr), memo.exprs[number]? = some expr ∧
    expr.operator = Rule.innerJoin ∧ expr.children = [left, right, predicate] ∧ same id expr.group

/-! ### Trees -/

/-- **A tree of inner joins** that begins in a group, with the conjuncts of its predicates. Each conjunct
is on two of the relations below its join, and each join has one across its sides. -/
inductive Nests (memo : Memo) : GroupId → Nesting → List GroupId → Prop
  | relation {id : GroupId} (relational : memo.Relational id) : Nests memo id (.relation id) []
  | join {id left right predicate : GroupId} {low high : Nesting} {below beside : List GroupId}
      (has : memo.HasJoin (· = ·) id left right predicate) (first : Nests memo left low below)
      (second : Nests memo right high beside)
      (each : ∀ conjunct ∈ memo.conjuncts predicate,
        memo.Within conjunct (Nesting.join low high).whole)
      (across : ∃ conjunct ∈ memo.conjuncts predicate,
        Adjoins (memo.Links conjunct) low.whole high.whole) :
      Nests memo id (.join low high) (below ++ beside ++ memo.conjuncts predicate)

/-- A join under a predicate that is its own only conjunct. -/
theorem Nests.of_links {id left right predicate : GroupId} {low high : Nesting}
    {below beside : List GroupId} (has : memo.HasJoin (· = ·) id left right predicate)
    (lower : memo.Nests left low below) (upper : memo.Nests right high beside)
    (alone : memo.conjuncts predicate = [predicate]) (here : first ∈ low.whole)
    (there : second ∈ high.whole) (different : first ≠ second)
    (links : memo.Links predicate first second) :
    memo.Nests id (.join low high) (below ++ beside ++ [predicate]) := by
  have nests : memo.Nests id (.join low high) (below ++ beside ++ memo.conjuncts predicate) := by
    refine .join has lower upper ?_
      ⟨predicate, alone ▸ List.mem_cons_self, first, here, second, there, links⟩
    rw [alone, Nesting.whole_join]
    exact List.forall_mem_singleton.2 ⟨first, Finset.mem_union_left _ here, second,
      Finset.mem_union_right _ there, different, links⟩
  rwa [alone] at nests

/-! ### Groups that count as one -/

/-- **Groups that may be counted as one** hold the same relations under the same conjuncts. -/
structure Merging (memo : Memo) (same : GroupId → GroupId → Prop) : Prop extends Equivalence same where
  family : ∀ {first second : GroupId}, same first second →
    (memo.Relational first ↔ memo.Relational second)
  contents : ∀ {first second : GroupId}, same first second →
    memo.contents first = memo.contents second

/-- Every group may be counted for itself. -/
theorem Merging.equal : memo.Merging (· = ·) where
  toEquivalence := eq_equivalence
  family same := same ▸ Iff.rfl
  contents same := same ▸ rfl

/-- **A nesting is provided by a group** if its joins can be chosen, one among the members of each group,
where some groups count as one. -/
inductive Provides (memo : Memo) (same : GroupId → GroupId → Prop) : GroupId → Nesting → Prop
  | relation {id relation : GroupId} (is : same id relation) : Provides memo same id (.relation relation)
  | join {id left right predicate : GroupId} {low high : Nesting}
      (has : memo.HasJoin same id left right predicate) (first : Provides memo same left low)
      (second : Provides memo same right high) : Provides memo same id (.join low high)

section Decidable

variable {same : GroupId → GroupId → Prop} [DecidableRel same]

instance {id left right predicate : GroupId} : Decidable (memo.HasJoin same id left right predicate) :=
  decidable_of_iff (∃ expr ∈ memo.exprs.toList, (expr.operator == Rule.innerJoin) = true ∧
      expr.children = [left, right, predicate] ∧ same id expr.group) <| by
    constructor
    · rintro ⟨expr, member, operator, children, is⟩
      obtain ⟨number, stored⟩ := Array.mem_iff_getElem?.1 (Array.mem_toList_iff.1 member)
      exact ⟨number, expr, stored, Operator.eq_of_beq operator rfl, children, is⟩
    · rintro ⟨number, expr, stored, operator, children, is⟩
      refine ⟨expr, Array.mem_toList_iff.2 (Array.mem_of_getElem? stored), ?_, children, is⟩
      rw [operator]
      exact ReflBEq.rfl

instance decidableProvides : (nesting : Nesting) → (id : GroupId) →
    Decidable (memo.Provides same id nesting)
  | .relation relation, id => decidable_of_iff (same id relation) ⟨.relation, fun | .relation is => is⟩
  | .join low high, id =>
    letI := decidableProvides low
    letI := decidableProvides high
    decidable_of_iff (∃ expr ∈ memo.exprs.toList, ∃ left ∈ expr.children, ∃ right ∈ expr.children,
      ∃ predicate ∈ expr.children, memo.HasJoin same id left right predicate ∧
        memo.Provides same left low ∧ memo.Provides same right high) <| by
      constructor
      · rintro ⟨_, _, left, _, right, _, predicate, _, has, first, second⟩
        exact .join has first second
      · rintro (_ | ⟨has, first, second⟩)
        obtain ⟨number, expr, stored, operator, children, is⟩ := has
        have member := Array.mem_toList_iff.2 (Array.mem_of_getElem? stored)
        exact ⟨expr, member, _, by simp [children], _, by simp [children], _, by simp [children],
          ⟨number, expr, stored, operator, children, is⟩, first, second⟩

end Decidable

/-! ### Joins of a set of relations -/

/-- **A join of a set of relations** under some predicates: each inner join of it applies all those that
are across its two sides, and there is one. -/
inductive Joins (memo : Memo) (same : GroupId → GroupId → Prop)
    (given : GroupId → Prop) : GroupId → Finset GroupId → Prop
  | relation {id relation : GroupId} (relational : memo.Relational relation) (is : same id relation) :
      Joins memo same given id {relation}
  | join {id left right predicate : GroupId} {one two : Finset GroupId}
      (has : memo.HasJoin same id left right predicate) (first : Joins memo same given left one)
      (second : Joins memo same given right two) (disjoint : Disjoint one two)
      (adjoins : Adjoins (memo.LinkedBy given) one two)
      (conjuncts : ∀ conjunct, conjunct ∈ memo.conjuncts predicate ↔
        given conjunct ∧ Adjoins (memo.Links conjunct) one two) :
      Joins memo same given id (one ∪ two)

section Joins

variable {same : GroupId → GroupId → Prop} {given other : GroupId → Prop} {id : GroupId}
  {whole : Finset GroupId}

theorem Joins.connected (joins : memo.Joins same given id whole) :
    Connected (memo.LinkedBy given) whole := by
  induction joins with
  | relation => exact .single _
  | join _ _ _ _ adjoins _ low high => exact low.union LinkedBy.symm high adjoins

/-- A group that joins one relation counts as one with it. -/
theorem Joins.is_of_single (joins : memo.Joins same given id whole) {relation : GroupId}
    (single : whole = {relation}) : same id relation := by
  cases joins with
  | relation _ is => exact Finset.singleton_injective single ▸ is
  | join _ first second disjoint =>
    have several := congrArg Finset.card single
    rw [Finset.card_union_of_disjoint disjoint, Finset.card_singleton] at several
    have left := first.connected.nonempty.card_pos
    have right := second.connected.nonempty.card_pos
    omega

theorem HasJoin.of_same (merging : memo.Merging same) {twin left right predicate : GroupId}
    (is : same twin id) (has : memo.HasJoin same id left right predicate) :
    memo.HasJoin same twin left right predicate :=
  have ⟨number, expr, stored, operator, children, here⟩ := has
  ⟨number, expr, stored, operator, children, merging.trans is here⟩

theorem HasJoin.of_equal (merging : memo.Merging same) {left right predicate : GroupId}
    (has : memo.HasJoin (· = ·) id left right predicate) :
    memo.HasJoin same id left right predicate := by
  obtain ⟨number, expr, stored, operator, children, is⟩ := has
  obtain rfl : id = expr.group := is
  exact ⟨number, expr, stored, operator, children, merging.refl _⟩

/-- A group that counts as one with another joins the same. -/
theorem Joins.of_same (merging : memo.Merging same) {twin : GroupId} (is : same twin id)
    (joins : memo.Joins same given id whole) : memo.Joins same given twin whole := by
  cases joins with
  | relation relational here => exact .relation relational (merging.trans is here)
  | join has first second disjoint adjoins conjuncts =>
    exact .join (has.of_same merging is) first second disjoint adjoins conjuncts

/-- Predicates on other relations make no difference. -/
theorem Joins.congr (joins : memo.Joins same given id whole)
    (alike : ∀ conjunct, memo.Within conjunct whole → (given conjunct ↔ other conjunct)) :
    memo.Joins same other id whole := by
  induction joins with
  | relation relational is => exact .relation relational is
  | @join _ _ _ _ one two has _ _ disjoint adjoins conjuncts low high =>
    have across : ∀ conjunct, Adjoins (memo.Links conjunct) one two →
        (given conjunct ↔ other conjunct) := fun conjunct adjoins =>
      alike conjunct (within_of_adjoins disjoint adjoins)
    refine .join has (low fun conjunct within => ?_) (high fun conjunct within => ?_) disjoint ?_
      fun conjunct => (conjuncts conjunct).trans (and_congr_left fun adjoins => across conjunct adjoins)
    · exact alike conjunct (within.mono Finset.subset_union_left)
    · exact alike conjunct (within.mono Finset.subset_union_right)
    · obtain ⟨first, here, second, there, conjunct, known, links⟩ := adjoins
      exact ⟨first, here, second, there, conjunct,
        (across conjunct ⟨first, here, second, there, links⟩).1 known, links⟩

/-- The inputs of an inner join, by their families. -/
theorem HasJoin.families (valid : memo.Valid) (laid : memo.Laid) {left right predicate : GroupId}
    (has : memo.HasJoin same id left right predicate) :
    memo.Relational left ∧ memo.Relational right ∧ memo.Scalar predicate := by
  obtain ⟨_, _, stored, operator, children, _⟩ := has
  obtain ⟨_, _, _, shape, families⟩ := laid.logical valid.toLinked stored operator
  rw [children] at shape
  cases shape
  exact families

section Formed

variable {breadth : GroupId → Breadth} (formed : memo.Formed breadth) (merging : memo.Merging same)
include formed merging

/-- **An inner join makes the columns** of its two inputs. -/
theorem HasJoin.columns (holds : memo.Holds) {left right predicate : GroupId}
    (has : memo.HasJoin same id left right predicate) (column : ColumnId) :
    column ∈ (memo.scope id).columns ↔
      column ∈ (memo.scope left).columns ∨ column ∈ (memo.scope right).columns := by
  have valid := formed.toValid
  have laid : memo.Laid := formed.laid
  have spread : ∀ {id : GroupId}, memo.Relational id →
      (column ∈ (memo.scope id).columns ↔ ∃ atom ∈ memo.contents id,
        memo.Relational atom ∧ column ∈ (memo.scope atom).columns) := fun relational =>
    (formed.spread relational.inside).columns relational column
  obtain ⟨leftIs, rightIs, predicateIs⟩ := has.families valid laid
  obtain ⟨number, expr, stored, operator, children, is⟩ := has
  have relational := valid.relational_of_stored stored (operator ▸ rfl)
  have whole := holds number expr stored
  rw [operator, Operator.gather_of_gathers rfl, children] at whole
  have none : ¬ ∃ atom ∈ memo.contents predicate, memo.Relational atom ∧
      column ∈ (memo.scope atom).columns := by
    rintro ⟨atom, held, relational, _⟩
    exact (laid.scalar_contents valid predicateIs atom held).not_relational relational
  rw [spread ((merging.family is).2 relational), merging.contents is, ← whole, exists_mem_sum]
  simp only [List.exists_mem_cons_iff, ← spread leftIs, ← spread rightIs, none, List.not_mem_nil,
    false_and, exists_false, or_false]

/-- **The columns of a join** are those of its relations. -/
theorem Joins.columns (holds : memo.Holds) (joins : memo.Joins same given id whole)
    (column : ColumnId) : column ∈ (memo.scope id).columns ↔
      ∃ relation ∈ whole, column ∈ (memo.scope relation).columns := by
  have spread : ∀ {id : GroupId}, memo.Relational id →
      (column ∈ (memo.scope id).columns ↔ ∃ atom ∈ memo.contents id,
        memo.Relational atom ∧ column ∈ (memo.scope atom).columns) := fun relational =>
    (formed.spread relational.inside).columns relational column
  induction joins with
  | relation relational is =>
    rw [spread ((merging.family is).2 relational), merging.contents is, ← spread relational]
    simp
  | join has _ _ _ _ _ low high =>
    rw [has.columns formed merging holds column]
    simp only [low, high, Finset.mem_union, or_and_right, exists_or]

end Formed

end Joins

end Memo

end Cascades
