/-
**Joined tables in what groups hold.**

A group stands for as many tables as the groups that it holds. Rearranging a memo adds groups that hold
a part of what some group held before, so no number of tables gets greater than the greatest one there
was: where all of them could be counted, they still can.

* `Takes.tables_eq`: a joining operator adds up the tables of its children;
* `Formed.addsUp`, `Formed.tables_eq_contents`: the numbers of tables of a formed memo;
* `Memo.tables`, `Formed.tables_eq`: how they are found;
* `Rearranged.tables_le`, `Countable.counting`: they do not get greater;
* `Context.Tracked`: a rearranged memo with what is known of its numbers of tables.
-/

import Cascades.Proofs.Gathering.Rearranged
import Cascades.Proofs.Property.Completion

namespace Cascades

/-! ### What operators add up -/

section Takes

variable {inputs : List Breadth}

/-- A logical operator over relations adds up their tables. -/
theorem LogicalOp.Takes.tables_eq {operator : LogicalOp} {tables : Nat}
    (takes : operator.Takes inputs tables) (taking : ∀ table columns, operator ≠ .get table columns) :
    tables = (inputs.map Breadth.tables).sum := by
  cases takes with
  | @get table columns => exact absurd rfl (taking table columns)
  | select | project | aggregate | limit | join => simp [Breadth.tables]
  | @naryJoin counts _ =>
    have relations : Breadth.tables ∘ Breadth.relation = id := rfl
    simp [Breadth.tables, relations]

/-- An operator that gathers what is below it adds up the tables there. -/
theorem Operator.Takes.tables_eq {operator : Operator} {result : Breadth}
    (takes : operator.Takes inputs result) (gathers : operator.gathers = true) :
    result.tables = (inputs.map Breadth.tables).sum := by
  cases takes with
  | logical takes =>
    refine takes.tables_eq ?_
    rintro table columns rfl
    cases gathers
  | @physical operator _ _ takes =>
    refine takes.tables_eq fun table columns same => ?_
    unfold Operator.gathers at gathers
    simp only [same] at gathers
    cases gathers
  | scalar takes =>
    rcases ScalarOp.gathers_iff.1 gathers with rfl | rfl
    · cases takes
      simp [Breadth.tables]
    · cases takes
      rfl

end Takes

namespace Memo

variable {exact forms : Prop} {faulty : Fault → Prop} {first memo : Memo}
  {breadth later : GroupId → Breadth}

/-! ### Formed memos -/

namespace Formed

variable (formed : memo.Formed breadth)
include formed

/-- Only relations among the children of an expression have tables. -/
theorem sum_relationalChildren {number : ExprId} {expr : Expr}
    (stored : memo.exprs[number]? = some expr) :
    ((memo.relationalChildren expr).map fun child => (breadth child).tables).sum =
      (expr.children.map fun child => (breadth child).tables).sum := by
  have inside : ∀ child ∈ expr.children, child < memo.groups.size :=
    fun child => formed.childExists stored
  unfold relationalChildren
  generalize expr.children = children at inside
  induction children with
  | nil => rfl
  | cons child children ih =>
    have rest := ih fun other member => inside other (List.mem_cons_of_mem _ member)
    have family := formed.isScalar_eq (inside child List.mem_cons_self)
    cases shown : breadth child with
    | scalar =>
      rw [shown] at family
      rw [List.filter_cons_of_neg (by simp [← family, Breadth.isScalar]), rest, List.map_cons,
        List.sum_cons, shown]
      exact (Nat.zero_add _).symm
    | relation tables =>
      rw [shown] at family
      rw [List.filter_cons_of_pos (by simp [← family, Breadth.isScalar]), List.map_cons,
        List.sum_cons, rest, List.map_cons, List.sum_cons]

/-- A table is one table. -/
theorem tables_single {number : ExprId} {expr : Expr} (stored : memo.exprs[number]? = some expr)
    {table : Table} {columns : List Column} (logical : expr.operator = .logical (.get table columns)) :
    (breadth expr.group).tables = 1 := by
  have takes := (formed.seated stored).takes
  rw [logical] at takes
  generalize breadth expr.group = result at takes ⊢
  generalize expr.children.map breadth = inputs at takes
  cases takes with
  | logical takes =>
  cases takes
  rfl

/-- Any other logical expression adds up the tables of its relations. -/
theorem tables_sum {number : ExprId} {expr : Expr} (stored : memo.exprs[number]? = some expr)
    {operator : LogicalOp} (logical : expr.operator = .logical operator)
    (taking : ∀ table columns, operator ≠ .get table columns) :
    (breadth expr.group).tables =
      ((memo.relationalChildren expr).map fun child => (breadth child).tables).sum := by
  have takes := (formed.seated stored).takes
  rw [logical] at takes
  rw [formed.sum_relationalChildren stored]
  generalize breadth expr.group = result at takes ⊢
  cases takes with
  | logical takes =>
    have total := takes.tables_eq taking
    rwa [List.map_map] at total

/-- The first logical member of a group is stored in it. -/
theorem firstLogical_stored {id : GroupId} {expr : Expr} {operator : LogicalOp}
    (found : memo.firstLogical id = .ok (expr, operator)) :
    (∃ number : ExprId, memo.exprs[number]? = some expr) ∧ expr.group = id ∧
      expr.operator = .logical operator :=
  have valid : ({ memo } : Context).memo.Valid := formed.toValid
  Context.firstLogical_cases valid found

/-- **The numbers of tables of a formed memo** add up. -/
theorem addsUp : memo.AddsUp fun id => (breadth id).tables where
  single {id expr table columns} found := by
    obtain ⟨⟨number, stored⟩, rfl, logical⟩ :=
      firstLogical_stored formed found
    exact formed.tables_single stored logical
  sum {id expr operator} found taking := by
    obtain ⟨⟨number, stored⟩, rfl, logical⟩ :=
      firstLogical_stored formed found
    exact formed.tables_sum stored logical taking

/-- **A group stands for as many tables as what it holds.** -/
theorem tables_eq_contents : ∀ {id : GroupId}, id < memo.groups.size →
    (breadth id).tables = ((memo.contents id).map fun atom => (breadth atom).tables).sum := by
  intro id
  induction id using Nat.strongRecOn with
  | ind id ih =>
    intro inside
    obtain ⟨expr, found⟩ := formed.toValid.exists_firstMember inside
    obtain ⟨_, number, _, _, stored⟩ := firstMember_ok_iff.1 found
    obtain ⟨rfl, older⟩ := formed.of_firstMember found
    rw [formed.contents_eq found]
    cases gathers : expr.operator.gathers with
    | false => simp [Operator.gather_of_not_gathers gathers]
    | true =>
      let weigh : Multiset GroupId →+ Nat :=
        Multiset.sumAddMonoidHom.comp (Multiset.mapAddMonoidHom fun atom => (breadth atom).tables)
      have below : expr.children.map (fun child => (breadth child).tables) =
          expr.children.map fun child => weigh (memo.contents child) :=
        List.map_congr_left fun child member =>
          ih child (older child member) (formed.childExists stored member)
      have total := (formed.seated stored).takes.tables_eq gathers
      rw [List.map_map, show Breadth.tables ∘ breadth = fun child => (breadth child).tables from rfl,
        below] at total
      rw [Operator.gather_of_gathers gathers, total]
      show _ = weigh _
      rw [map_list_sum, List.map_map]
      rfl

end Formed

/-! ### Numbers of tables -/

/-- The number of tables that are joined in a group, down to a number of levels. -/
def tablesWithin (memo : Memo) : (levels : Nat) → GroupId → Nat
  | 0, _ => 0
  | levels + 1, id =>
    match memo.firstMember id with
    | .error _ => 0
    | .ok expr =>
      match expr.operator with
      | .logical (.get ..) => 1
      | .logical _ => ((memo.relationalChildren expr).map (memo.tablesWithin levels)).sum
      | _ => 0

/-- **The number of tables that are joined in a group**; a table that is joined with itself counts
every time. -/
def tables (memo : Memo) (id : GroupId) : Nat := memo.tablesWithin (id + 1) id

theorem Formed.tablesWithin_eq (formed : memo.Formed breadth) (levels : Nat) :
    ∀ {id : GroupId}, id < memo.groups.size → id < levels →
      memo.tablesWithin levels id = (breadth id).tables := by
  induction levels with
  | zero => exact fun _ none => absurd none (Nat.not_lt_zero _)
  | succ levels ih =>
    intro id inside below
    obtain ⟨expr, found⟩ := formed.toValid.exists_firstMember inside
    obtain ⟨_, number, there, place, stored⟩ := firstMember_ok_iff.1 found
    obtain ⟨rfl, older⟩ := formed.of_firstMember found
    obtain ⟨_, again, _, first⟩ := formed.toValid.listed there place
    obtain rfl := Option.some.inj (stored.symm.trans again)
    have children : (memo.relationalChildren expr).map (memo.tablesWithin levels) =
        (memo.relationalChildren expr).map fun child => (breadth child).tables := by
      refine List.map_congr_left fun child member => ?_
      have among := List.mem_of_mem_filter member
      exact ih (formed.childExists stored among)
        (Nat.lt_of_lt_of_le (older child among) (Nat.le_of_lt_succ below))
    have takes := (formed.seated stored).takes
    have head := (formed.seated stored).headed first
    unfold tablesWithin
    simp only [found, children]
    cases shown : expr.operator with
    | physical operator =>
      rw [shown] at head
      cases head
    | scalar operator =>
      rw [shown] at takes
      generalize breadth expr.group = result at takes ⊢
      cases takes
      rfl
    | logical operator =>
      cases operator with
      | get => exact (formed.tables_single stored shown).symm
      | _ => exact (formed.tables_sum stored shown nofun).symm

theorem Formed.tables_eq (formed : memo.Formed breadth) {id : GroupId}
    (inside : id < memo.groups.size) : memo.tables id = (breadth id).tables :=
  formed.tablesWithin_eq (id + 1) inside (Nat.lt_succ_self id)

/-! ### Rearranged memos -/

/-- The tables in every group of a formed memo are followed and can be counted, unless their number may
be too great. -/
def Countable (exact : Prop) (faulty : Fault → Prop) (breadth : GroupId → Breadth)
    (memo : Memo) : Prop :=
  ¬ faulty .sumTooGreat → exact ∧ memo.Formed breadth ∧
    ∀ id < memo.groups.size, (breadth id).tables ≤ greatestCount

section Rearranged

variable (develops : first.Develops breadth memo later)
include develops

/-- **A group stands for no more tables** than some group of the memo at first. -/
theorem Rearranged.tables_le (rearranged : Rearranged forms first memo) (formed : first.Formed breadth)
    {id : GroupId} (inside : id < memo.groups.size) :
    ∃ old < first.groups.size, (later id).tables ≤ (breadth old).tables := by
  obtain ⟨old, there, part⟩ := rearranged.within inside
  refine ⟨old, there, ?_⟩
  have same : (first.contents old).map (fun atom => (later atom).tables) =
      (first.contents old).map fun atom => (breadth atom).tables := by
    refine Multiset.map_congr rfl fun atom held => ?_
    rw [develops.agrees (formed.toValid.contents_inside there atom held)]
  obtain ⟨rest, whole⟩ := Multiset.le_iff_exists_add.1 part
  rw [develops.formed.tables_eq_contents inside, formed.tables_eq_contents there, ← same, whole,
    Multiset.map_add, Multiset.sum_add]
  exact Nat.le_add_right _ _

/-- **Tables that could be counted** still can. -/
theorem Countable.counting (countable : Countable exact faulty breadth first)
    (rearranged : exact → Rearranged forms first memo) :
    memo.Counting exact faulty fun id => (later id).tables where
  adds _ := develops.formed.addsUp
  small proper := by
    obtain ⟨known, formed, counts⟩ := countable proper
    refine ⟨known, fun id relational => ?_⟩
    obtain ⟨old, there, fewer⟩ := (rearranged known).tables_le develops formed relational.inside
    exact fewer.trans (counts old there)

end Rearranged

end Memo

/-! ### What is known of rearranged memos -/

namespace Context

open Memo

/-- A memo that another one was rearranged into, and the numbers of tables in it that are known. -/
structure Tracked (forms : Prop) (first : Memo) (breadth : GroupId → Breadth) (context : Context) :
    Prop where
  rearranged : Rearranged forms first context.memo
  knows : context.KnowsTables fun id => (breadth id).tables

/-- Numbers of tables that are known stay right while the memo grows. -/
theorem KnowsTables.develops {context : Context} {breadth later : GroupId → Breadth} {next : Memo}
    (knows : context.KnowsTables fun id => (breadth id).tables)
    (develops : context.memo.Develops breadth next later) :
    ({ context with memo := next } : Context).KnowsTables fun id => (later id).tables := by
  intro id property value known
  obtain ⟨inside, counts⟩ := knows id property value known
  refine ⟨Nat.lt_of_lt_of_le inside develops.grows.size_groups, ?_⟩
  cases property with
  | joinDepth =>
    show value = (later id).tables ∧ _
    rw [develops.agrees inside]
    exact counts
  | _ => trivial

end Context

end Cascades
