/-
**A search keeps the meaning of queries.**

Queries are inserted into an empty memo. Whatever phases a search runs then, with whatever rules and
limits, the members of a group mean the same, and the cheapest plan for the group of a query means
the query.

* `Query.sense`, `Query.WellFormed`: the meaning of a query, and what it takes to have one;
* `Search.Reached`: the states that a search goes through;
* `reached_keeps_meaning`: the members of groups and the plans of queries.
-/

import Cascades.Proofs.Meaning.Plan
import Cascades.Proofs.Meaning.Run

namespace Cascades

open Memo Interpretation

variable {V : Type} {I : Interpretation V}

/-! ### Queries -/

/-- An operator over inputs. -/
inductive Query where
  | node (operator : Operator) (inputs : List Query)
  deriving Inhabited

namespace Query

mutual

/-- The columns that a query makes and those that it takes from outside. -/
def scope : Query → Scope
  | node operator inputs => Scope.of operator (scopes inputs)

/-- The scopes of some queries. -/
def scopes : List Query → List Scope
  | [] => []
  | query :: rest => scope query :: scopes rest

end

mutual

/-- **The meaning of a query.** -/
noncomputable def sense (I : Interpretation V) : Query → Sense V
  | node operator inputs => I.sense operator (senses I inputs)

/-- What some queries mean. -/
noncomputable def senses (I : Interpretation V) : List Query → List (Sense V)
  | [] => []
  | query :: rest => sense I query :: senses I rest

end

mutual

/-- A query as it is inserted into a memo. -/
def toProposal : Query → Proposal
  | node operator inputs => .node operator (toProposals inputs)

/-- Some queries as they are inserted. -/
def toProposals : List Query → List Proposal
  | [] => []
  | query :: rest => toProposal query :: toProposals rest

end

mutual

/-- The scope of a query is that of its meaning. -/
theorem scope_sense : (query : Query) → (query.sense I).scope = query.scope
  | node operator inputs => by
    rw [sense, Interpretation.scope_sense, scope, scope_senses inputs]

theorem scope_senses : (queries : List Query) → (senses I queries).map Sense.scope = scopes queries
  | [] => rfl
  | query :: rest => by rw [senses, List.map_cons, scope_sense query, scope_senses rest, scopes]

end

end Query

/-! ### Well-formed queries -/

namespace Scope

/-- The columns that the scalar inputs of an operator can refer to: those from outside, and below a
relational operator those of its relations. -/
def visible (outside : ColumnSet) (operator : Operator) (inputs : List Scope) : ColumnSet :=
  if operator.isScalar then outside else outside.addAll ((relations inputs).map columns)

/-- An operator refers to columns that it can see and has inputs of the right families. The relations
of a selection or an inner join make different columns, none of them known outside: the number of a
column is unique within a query. -/
structure Proper (outside : ColumnSet) (operator : Operator) (inputs : List Scope) : Prop where
  uses : ∀ column ∈ operator.uses, column ∈ visible outside operator inputs
  joins : ∀ logical, operator.logical? = some logical → logical.isJoining = true →
    ∃ sources predicate, inputs = sources ++ [predicate] ∧
      (∀ source ∈ sources, source.isScalar = false) ∧ predicate.isScalar = true ∧
      (sources.Pairwise fun first second =>
        ∀ column, column ∈ first.columns → ¬ column ∈ second.columns) ∧
      ∀ source ∈ sources, ∀ column, column ∈ source.columns → ¬ column ∈ outside
  conjoins : operator = .scalar .and → ∀ input ∈ inputs, input.isScalar = true
  constants : ∀ value, operator = .scalar (.constant value) → inputs = []

variable {outside : ColumnSet} {operator : Operator} {inputs : List Scope}

/-- A proper operator takes from outside what is known there. -/
theorem Proper.free (proper : Proper outside operator inputs)
    (taken : ∀ input ∈ inputs, ∀ column, column ∈ input.free →
      column ∈ if input.isScalar then visible outside operator inputs else outside) :
    ∀ column, column ∈ (Scope.of operator inputs).free → column ∈ outside := by
  intro column free
  have relational : ∀ logical, Scope.of operator inputs = ofLogical logical inputs →
      operator.uses = logical.uses → operator.isScalar = false → column ∈ outside := by
    intro logical shown refers family
    have seen : ∀ other, other ∈ visible outside operator inputs ↔ other ∈ outside ∨
        ∃ input ∈ inputs, input.isScalar = false ∧ other ∈ input.columns := by
      intro other
      simp [visible, family, relations, and_assoc]
    rw [shown, mem_free_ofLogical] at free
    obtain ⟨(used | ⟨input, member, scalar, used⟩) | ⟨input, member, relation, used⟩, unmade⟩ := free
    · exact ((seen column).1 (proper.uses column (refers ▸ used))).resolve_right unmade
    · have known := taken input member column used
      rw [if_pos scalar] at known
      exact ((seen column).1 known).resolve_right unmade
    · have known := taken input member column used
      rw [relation] at known
      exact known
  cases operator with
  | logical logical => exact relational logical rfl rfl rfl
  | physical physical => exact relational physical.logical rfl rfl rfl
  | scalar scalar =>
    have seen : visible outside (.scalar scalar) inputs = outside := rfl
    rcases mem_free_ofScalar.1 free with used | ⟨input, member, used⟩
    · exact proper.uses column used
    · have known := taken input member column used
      rw [seen, ite_self] at known
      exact known

/-- The relations of a proper join do not see each other. -/
theorem Proper.admissible (proper : Proper outside operator inputs)
    (taken : ∀ input ∈ inputs, input.isScalar = false → ∀ column, column ∈ input.free →
      column ∈ outside) : Admissible operator inputs where
  joins logical computes joining := by
    obtain ⟨sources, predicate, rfl, relational, scalar, different, fresh⟩ :=
      proper.joins logical computes joining
    refine ⟨sources, predicate, rfl, relational, scalar, ?_⟩
    refine different.imp_of_mem fun {first second} here there apart => ⟨apart, ?_, ?_⟩
    · intro column used made
      exact fresh second there column made
        (taken first (List.mem_append_left _ here) (relational first here) column used)
    · intro column used made
      exact fresh first here column made
        (taken second (List.mem_append_left _ there) (relational second there) column used)
  conjoins := proper.conjoins
  constants := proper.constants

end Scope

namespace Query

mutual

/-- A query whose operators are proper, over the columns that are known outside. -/
def WellFormed (outside : ColumnSet) : Query → Prop
  | node operator inputs =>
    AllWellFormed outside (Scope.visible outside operator (scopes inputs)) inputs ∧
      Scope.Proper outside operator (scopes inputs)

/-- Some inputs are well-formed, the scalar ones over the columns that are known inside. -/
def AllWellFormed (outside inside : ColumnSet) : List Query → Prop
  | [] => True
  | query :: rest => query.WellFormed (if query.scope.isScalar then inside else outside) ∧
      AllWellFormed outside inside rest

end

mutual

/-- A well-formed query takes from outside what is known there. -/
theorem WellFormed.free {outside : ColumnSet} : (query : Query) → query.WellFormed outside →
    ∀ column, column ∈ query.scope.free → column ∈ outside
  | node _ inputs, wellFormed => wellFormed.2.free (AllWellFormed.free inputs wellFormed.1)

theorem AllWellFormed.free {outside inside : ColumnSet} : (queries : List Query) →
    AllWellFormed outside inside queries → ∀ input ∈ scopes queries, ∀ column,
      column ∈ input.free → column ∈ if input.isScalar then inside else outside
  | [], _, _, member => absurd member List.not_mem_nil
  | query :: rest, wellFormed, input, member => by
    rw [scopes] at member
    rcases List.mem_cons.1 member with rfl | member
    · exact WellFormed.free query wellFormed.1
    · exact AllWellFormed.free rest wellFormed.2 input member

end

mutual

/-- A well-formed query means as a proposal what it means. -/
theorem WellFormed.means {memo : Memo} {outside : ColumnSet} : (query : Query) →
    query.WellFormed outside → Means I memo query.toProposal (query.sense I)
  | node operator inputs, wellFormed => by
    refine .node (AllWellFormed.means inputs wellFormed.1) ?_
    rw [scope_senses]
    refine wellFormed.2.admissible fun input member relational column used => ?_
    have known := AllWellFormed.free inputs wellFormed.1 input member column used
    rwa [relational] at known

theorem AllWellFormed.means {memo : Memo} {outside inside : ColumnSet} : (queries : List Query) →
    AllWellFormed outside inside queries → MeanAll I memo (toProposals queries) (senses I queries)
  | [], _ => .nil
  | query :: rest, wellFormed =>
    .cons (WellFormed.means query wellFormed.1) (AllWellFormed.means rest wellFormed.2)

end

/-- Well-formed queries mean as proposals what they mean. -/
theorem meanAll {memo : Memo} {queries : List Query}
    (wellFormed : ∀ query ∈ queries, ∃ outside, query.WellFormed outside) :
    MeanAll I memo (toProposals queries) (senses I queries) := by
  induction queries with
  | nil => exact .nil
  | cons query queries ih =>
    obtain ⟨outside, first⟩ := wellFormed query List.mem_cons_self
    exact .cons first.means (ih fun other member => wellFormed other (List.mem_cons_of_mem _ member))

end Query

/-! ### States of a search -/

/-- The states that a search goes through from a first one: phases of any kind run any number of
rounds below any group, to their end or until a limit or an abort stops them. Between phases the
limits may change, and the search may be cancelled. -/
inductive Search.Reached (start : Search) : Search → Prop
  | start : Reached start start
  | rounds {search next : Search} {kind : RuleKind} {root : GroupId} {fuel : Nat}
      {outcome : Except Abort PUnit} : Reached start search →
        Search.rounds kind root fuel search = .ok (outcome, next) → Reached start next
  | limits {search : Search} (config : Config) (guard : Guard) : Reached start search →
      Reached start { search with context := { search.context with guard }, config }

/-- A phase leads from one such state to another. -/
theorem Search.Reached.phase {start search next : Search} {kind : RuleKind} {root : GroupId}
    {outcome : Except Abort PUnit} (reached : Reached start search)
    (done : Search.phase kind root search = .ok (outcome, next)) : Reached start next := by
  rcases Action.bind_eq_ok_iff.1 done with ⟨_, _, started, run⟩ | ⟨_, stopped, _⟩
  · cases started
    exact reached.rounds run
  · cases stopped

theorem Search.Reached.refines {start final : Search} (reached : Reached start final)
    (coherent : start.context.Coherent I) (faithful : ∀ rule ∈ start.rules, rule.Faithful I) :
    Refines I start final := by
  induction reached with
  | start => exact .refl coherent
  | rounds _ done ih => exact ih.trans (rounds_refines ih.coherent (ih.rules_eq ▸ faithful) done)
  | limits _ _ _ ih =>
    exact ⟨⟨ih.coherent.sound, ih.coherent.scalar, ih.coherent.relational⟩, ih.grows, ih.rules_eq⟩

/-! ### Initial memos -/

theorem Context.coherent_of_sound {memo : Memo} (sound : memo.Sound I) (catalog : Catalog)
    (guard : Guard) : ({ memo, catalog, guard } : Context).Coherent I where
  sound := sound
  scalar known := by simp [Facts.scalar] at known
  relational known := by simp [Facts.relational] at known

/-- Queries that are inserted into an empty memo give their groups their meaning. -/
theorem Query.inserted_means {queries : List Query} {roots : List GroupId} {memo : Memo}
    (wellFormed : ∀ query ∈ queries, ∃ outside, query.WellFormed outside)
    (inserted : Memo.empty.materializeAll (toProposals queries) = .ok (roots, memo)) :
    memo.Sound I ∧ List.Forall₂ (fun root query => root < memo.groups.size ∧
      memo.sense I root = query.sense I) roots queries := by
  obtain ⟨sound, _, inside, means⟩ :=
    materializeAll_sound empty_sound _ (meanAll wellFormed) inserted
  refine ⟨sound, ?_⟩
  clear inserted wellFormed
  induction queries generalizing roots with
  | nil =>
    have none : roots = [] := List.map_eq_nil_iff.1 means
    exact none ▸ .nil
  | cons query queries ih =>
    obtain ⟨root, rest, rfl, one, others⟩ := List.map_eq_cons_iff.1 means
    exact .cons ⟨inside root List.mem_cons_self, one⟩
      (ih (fun id member => inside id (List.mem_cons_of_mem _ member)) others)

/-- **A search keeps the meaning.** Queries are inserted into an empty memo, and phases run with any
of the rules. In every state that is reached, each member of a group means what the first one does,
and the first member of the group of a query and its cheapest plan mean the query. -/
theorem reached_keeps_meaning {queries : List Query} {roots : List GroupId} {memo : Memo}
    {catalog : Catalog} {rules : List Rule} {config : Config} {final : Search}
    (wellFormed : ∀ query ∈ queries, ∃ outside, query.WellFormed outside)
    (inserted : Memo.empty.materializeAll (Query.toProposals queries) = .ok (roots, memo))
    (standard : ∀ rule ∈ rules, rule ∈ Rule.standard)
    (reached : (Search.ofMemo memo catalog rules config).Reached final) :
    (∀ (id : GroupId) (first : Expr) (member : ExprId) (expr : Expr),
      final.context.memo.firstMember id = .ok first →
      final.context.memo.exprs[member]? = some expr → expr.group = id → ∀ environment,
        (final.context.memo.exprSense I expr).rows environment =
          (final.context.memo.exprSense I first).rows environment) ∧
    List.Forall₂ (fun root query => ∀ environment,
      (∀ first, final.context.memo.firstMember root = .ok first →
        (final.context.memo.exprSense I first).rows environment =
          (query.sense I).rows environment) ∧
      ∀ model plan, final.cheapest? model root = .ok (some plan) →
        (plan.sense I final.context.memo).rows environment = (query.sense I).rows environment)
      roots queries := by
  obtain ⟨sound, means⟩ := Query.inserted_means (I := I) wellFormed inserted
  have refines := reached.refines (I := I) (Context.coherent_of_sound sound catalog _)
    fun rule member => Rule.standard_faithful rule (standard rule member)
  have last := refines.coherent.sound
  refine ⟨?_, means.imp fun root query => ?_⟩
  · rintro id first member expr found stored rfl environment
    rw [last.same stored, last.sense_eq found]
  · rintro ⟨inside, means⟩ environment
    have same : final.context.memo.sense I root = query.sense I := by
      rw [← means]
      exact refines.grows.sense_eq sound.toValid last.toValid inside
    refine ⟨fun first found => ?_, fun model plan found => ?_⟩
    · rw [← same, last.sense_eq found]
    · rw [← same, Plan.ofGroup?_means last found]

/-! ### An example -/

/-- Tables of truth values, which are compared, negated and joined; other relations are empty. -/
noncomputable def Interpretation.ofTables (table : Table → List Column → Bag Bool) :
    Interpretation Bool where
  table := table
  relation _ _ _ := 0
  scalar operator inputs environment :=
    open Classical in
    match operator with
    | .and => decide (∀ input ∈ inputs, input.value environment = some true)
    | .column column => (environment column.id).getD false
    | .binary .eq => decide (∀ first ∈ inputs, ∀ second ∈ inputs,
        first.value environment = second.value environment)
    | .unary .not => decide (∀ input ∈ inputs, input.value environment = some false)
    | _ => true
  isTrue value := value = true
  true_iff := by simp
  true_truth := rfl
  scalar_congr equal := by
    rcases ScalarOp.beq_iff.1 equal with rfl | ⟨_, _, rfl, rfl, _⟩ <;> rfl

/-- The items of orders. -/
def orderedItems : Query :=
  .node (.logical (.join .inner))
    [.node (.logical (.get ⟨"shop", "orders"⟩ [⟨1, none, "item"⟩])) [],
      .node (.logical (.get ⟨"shop", "items"⟩ [⟨2, none, "id"⟩])) [],
      .node (.scalar (.binary .eq))
        [.node (.scalar (.column ⟨1, none, "item"⟩)) [],
          .node (.scalar (.column ⟨2, none, "id"⟩)) []]]

theorem orderedItems_wellFormed : orderedItems.WellFormed .empty := by
  have table : ∀ {table : Table} {columns : List Column},
      (Query.node (.logical (.get table columns)) []).WellFormed .empty := by
    intro table columns
    refine ⟨trivial, ⟨?_, ?_, nofun, nofun⟩⟩
    · intro column used
      cases used
    · intro logical same joining
      cases same
      cases joining
  have reference : ∀ {outside : ColumnSet} {column : Column}, column.id ∈ outside →
      (Query.node (.scalar (.column column)) []).WellFormed outside := by
    intro outside column known
    refine ⟨trivial, ⟨?_, nofun, nofun, nofun⟩⟩
    intro other used
    rw [List.mem_singleton.1 used]
    exact known
  refine ⟨⟨table, table, ⟨⟨reference ?_, reference ?_, trivial⟩, ⟨?_, nofun, nofun, nofun⟩⟩, trivial⟩,
    ⟨?_, ?_, nofun, nofun⟩⟩
  · decide
  · decide
  · exact fun column used => absurd used List.not_mem_nil
  · exact fun column used => absurd used List.not_mem_nil
  · intro logical _ _
    refine ⟨[_, _], _, rfl, ?_, rfl, ?_, ?_⟩
    · decide
    · decide
    · simp

/-- A search for the items of orders: the groups of the query, the memo at its start, and its end. -/
def orderedItemsRun : Option (List GroupId × Memo × Search) :=
  (Memo.empty.materializeAll (Query.toProposals [orderedItems])).toOption.bind fun start =>
    (Search.explore 5 (Search.ofMemo start.2 {} Rule.standard {})).toOption.bind fun explored =>
      (Search.implement 5 explored.2).toOption.map fun final => (start.1, start.2, final.2)

theorem orderedItemsRun_reached {roots : List GroupId} {memo : Memo} {final : Search}
    (run : orderedItemsRun = some (roots, memo, final)) :
    Memo.empty.materializeAll (Query.toProposals [orderedItems]) = .ok (roots, memo) ∧
      (Search.ofMemo memo {} Rule.standard {}).Reached final := by
  unfold orderedItemsRun at run
  obtain ⟨start, inserted, run⟩ := Option.bind_eq_some_iff.1 run
  obtain ⟨⟨outcome, explored⟩, first, run⟩ := Option.bind_eq_some_iff.1 run
  obtain ⟨⟨ending, last⟩, second, same⟩ := Option.map_eq_some_iff.1 run
  simp only [Prod.mk.injEq] at same
  obtain ⟨rfl, rfl, rfl⟩ := same
  have explores : Search.explore 5 (Search.ofMemo start.2 {} Rule.standard {}) =
      .ok (outcome, explored) := toOption_eq_some_iff.1 first
  have implements : Search.implement 5 explored = .ok (ending, last) :=
    toOption_eq_some_iff.1 second
  exact ⟨toOption_eq_some_iff.1 inserted, (Search.Reached.start.phase explores).phase implements⟩

/-- The cheapest plan, whatever operators cost. -/
def cheapestOf (final : Search) : Option Plan :=
  match final.cheapest? (fun _ _ _ _ => .zero) 5 with
  | .ok found => found
  | .error _ => none

theorem reached_keeps_meaning_orderedItems :
    ∃ memo final plan,
      Memo.empty.materializeAll (Query.toProposals [orderedItems]) = .ok ([5], memo) ∧
      (Search.ofMemo memo {} Rule.standard {}).Reached final ∧
      (final.context.memo.groups[5]?).map final.context.memo.logicalMembers = some [5, 6] ∧
      final.cheapest? (fun _ _ _ _ => .zero) 5 = .ok (some plan) ∧
      ∀ table environment,
        (plan.sense (.ofTables table) final.context.memo).rows environment =
          (orderedItems.sense (.ofTables table)).rows environment := by
  have results : orderedItemsRun.map (fun (roots, _, final) =>
      (roots, (final.context.memo.groups[5]?).map final.context.memo.logicalMembers,
        (cheapestOf final).isSome)) = some ([5], some [5, 6], true) := by
    decide +kernel
  obtain ⟨⟨roots, memo, final⟩, run, shown⟩ := Option.map_eq_some_iff.1 results
  simp only [Prod.mk.injEq] at shown
  obtain ⟨rfl, members, found⟩ := shown
  obtain ⟨inserted, reached⟩ := orderedItemsRun_reached run
  obtain ⟨plan, found⟩ := Option.isSome_iff_exists.1 found
  have planned : final.cheapest? (fun _ _ _ _ => .zero) 5 = .ok (some plan) := by
    unfold cheapestOf at found
    split at found
    · rename_i given
      rw [given, found]
    · cases found
  refine ⟨memo, final, plan, inserted, reached, members, planned, fun table environment => ?_⟩
  have wellFormed : ∀ query ∈ [orderedItems], ∃ outside, query.WellFormed outside := by
    intro query member
    rw [List.mem_singleton.1 member]
    exact ⟨_, orderedItems_wellFormed⟩
  have keeps := (reached_keeps_meaning (I := .ofTables table) wellFormed inserted
    (fun _ => id) reached).2
  exact ((List.forall₂_cons.1 keeps).1 environment).2 _ _ planned

end Cascades
