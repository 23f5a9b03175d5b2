/-
**Regular expressions of a memo.**

The standard meaning of an operator speaks of a fixed layout of its inputs, and of inputs whose columns
do not get mixed up: a projection makes new columns, and the sides of an outer join are apart. In a
regular memo every expression is of that kind. What rules propose is so over any inputs.

* `Scope.Regular`: what is asked of an operator over inputs; `Query.Regular`: of a query;
* `Memo.Each`, `Query.Each`: every operator of a memo or of a query has some shape;
* `Query.inserted_each`: a memo keeps the shape of the queries, and `Search.Reached.each`: so does a
  run;
* `reached_regular`: a run over regular queries has a regular memo.
-/

import Cascades.Proofs.Search.Invariant

namespace Cascades

open Memo Interpretation

variable {V : Type} {I : Interpretation V} {memo next : Memo}

/-! ### Operators -/

/-- A layout of inputs, and columns that are not mixed up: the sides of an outer join are apart, and
the columns that a projection or an aggregation makes are not those that it is given. -/
structure Scope.Regular (operator : Operator) (inputs : List Scope) : Prop where
  selects : operator = .logical .select → inputs.length = 2
  joins : ∀ type, operator = .logical (.join type) → inputs.length = 3
  outerJoins : ∀ type, operator = .logical (.join type) → type.isInner = false →
    ∃ left right predicate, inputs = [left, right, predicate] ∧ left.isScalar = false ∧
      right.isScalar = false ∧ predicate.isScalar = true ∧ left.Apart right
  projects : operator = .logical .project →
    ∃ input list, inputs = [input, list] ∧ input.isScalar = false ∧ list.isScalar = true ∧
      ∀ column, column ∈ list.columns → ¬ column ∈ input.columns ∧ ¬ column ∈ input.free
  aggregates : ∀ keys, operator = .logical (.aggregate keys) →
    ∃ input list, inputs = [input, list] ∧ input.isScalar = false ∧ list.isScalar = true ∧
      ∀ column, column ∈ list.columns → ∀ key ∈ keys, key.id ≠ column
  limits : ∀ offset count, operator = .logical (.limit offset count) →
    ∃ input, inputs = [input] ∧ input.isScalar = false
  binaries : ∀ binary, operator = .scalar (.binary binary) → inputs.length = 2
  unaries : ∀ unary, operator = .scalar (.unary unary) → inputs.length = 1

/-- An operator that is regular over any inputs of some number. -/
def Operator.AlwaysRegular (operator : Operator) (arity : Nat) : Prop :=
  ∀ inputs : List Scope, inputs.length = arity → Scope.Regular operator inputs

theorem Operator.alwaysRegular_physical {operator : PhysicalOp} {arity : Nat} :
    (Operator.physical operator).AlwaysRegular arity :=
  fun _ _ => ⟨nofun, nofun, nofun, nofun, nofun, nofun, nofun, nofun⟩

theorem Operator.alwaysRegular_and {arity : Nat} :
    (Operator.scalar .and).AlwaysRegular arity :=
  fun _ _ => ⟨nofun, nofun, nofun, nofun, nofun, nofun, nofun, nofun⟩

theorem Operator.alwaysRegular_truth : Operator.truth.AlwaysRegular 0 :=
  fun _ _ => ⟨nofun, nofun, nofun, nofun, nofun, nofun, nofun, nofun⟩

theorem Operator.alwaysRegular_select : (Operator.logical .select).AlwaysRegular 2 :=
  fun _ two => ⟨fun _ => two, nofun, nofun, nofun, nofun, nofun, nofun, nofun⟩

theorem Operator.alwaysRegular_join {type : JoinType} (inner : type.isInner = true) :
    (Operator.logical (.join type)).AlwaysRegular 3 := by
  refine fun _ three => ⟨nofun, fun _ _ => three, fun other same outer => ?_, nofun, nofun, nofun,
    nofun, nofun⟩
  cases same
  rw [inner] at outer
  cases outer

/-! ### Memos -/

namespace Memo

section Each

variable {shape : Operator → List (Sense V) → Prop}

/-- Every expression has some shape: its operator over the meanings of its child groups. -/
def Each (I : Interpretation V) (shape : Operator → List (Sense V) → Prop) (memo : Memo) : Prop :=
  ∀ (id : ExprId) (expr : Expr), memo.exprs[id]? = some expr →
    shape expr.operator (expr.children.map (memo.sense I))

theorem Each.of_grows (each : memo.Each I shape) (grows : memo.Grows next) (valid : memo.Valid)
    (later : next.Valid)
    (added : ∀ (id : ExprId) (expr : Expr), next.exprs[id]? = some expr →
      memo.exprs[id]? = some expr ∨ shape expr.operator (expr.children.map (next.sense I))) :
    next.Each I shape := by
  intro id expr stored
  rcases added id expr stored with old | new
  · rw [grows.map_sense_eq valid later fun child member => valid.childExists old member]
    exact each id expr old
  · exact new

/-- What every expression is after growth, it was before. -/
theorem Each.earlier (each : next.Each I shape) (valid : memo.Valid) (later : next.Valid)
    (grows : memo.Grows next) : memo.Each I shape := by
  intro id expr stored
  rw [← grows.map_sense_eq valid later fun child member => valid.childExists stored member]
  exact each id expr (grows.exprs stored)

end Each

/-- Every expression is regular over its child groups. -/
def Regular (I : Interpretation V) (memo : Memo) : Prop :=
  memo.Each I fun operator inputs => Scope.Regular operator (inputs.map Sense.scope)

theorem Regular.expr (regular : memo.Regular I) {id : ExprId} {expr : Expr}
    (stored : memo.exprs[id]? = some expr) :
    Scope.Regular expr.operator (expr.children.map fun child => (memo.sense I child).scope) := by
  have shape : Scope.Regular expr.operator ((expr.children.map (memo.sense I)).map Sense.scope) :=
    regular id expr stored
  rwa [List.map_map] at shape

section Layout

variable (regular : memo.Regular I) {id : ExprId} {expr : Expr}
  (stored : memo.exprs[id]? = some expr)
include regular stored

theorem Regular.outerJoin {type : JoinType} (kind : expr.operator = .logical (.join type))
    (outer : type.isInner = false) :
    ∃ left right predicate, expr.children = [left, right, predicate] ∧
      (memo.sense I left).scope.isScalar = false ∧ (memo.sense I right).scope.isScalar = false ∧
      (memo.sense I predicate).scope.isScalar = true ∧
      (memo.sense I left).scope.Apart (memo.sense I right).scope := by
  obtain ⟨_, _, _, shape, leftIs, rightIs, predicateIs, apart⟩ :=
    (regular.expr stored).outerJoins type kind outer
  obtain ⟨left, others, same, rfl, behind⟩ := List.map_eq_cons_iff.1 shape
  obtain ⟨right, rest, rfl, rfl, last⟩ := List.map_eq_cons_iff.1 behind
  obtain ⟨predicate, rfl, rfl⟩ := List.map_eq_singleton_iff.1 last
  exact ⟨left, right, predicate, same, leftIs, rightIs, predicateIs, apart⟩

theorem Regular.project (kind : expr.operator = .logical .project) :
    ∃ input list, expr.children = [input, list] ∧ (memo.sense I input).scope.isScalar = false ∧
      (memo.sense I list).scope.isScalar = true ∧
      ∀ column, column ∈ (memo.sense I list).scope.columns →
        ¬ column ∈ (memo.sense I input).scope.columns ∧
          ¬ column ∈ (memo.sense I input).scope.free := by
  obtain ⟨_, _, shape, inputIs, listIs, new⟩ := (regular.expr stored).projects kind
  obtain ⟨input, others, same, rfl, behind⟩ := List.map_eq_cons_iff.1 shape
  obtain ⟨list, rfl, rfl⟩ := List.map_eq_singleton_iff.1 behind
  exact ⟨input, list, same, inputIs, listIs, new⟩

theorem Regular.aggregate {keys : List Column} (kind : expr.operator = .logical (.aggregate keys)) :
    ∃ input list, expr.children = [input, list] ∧ (memo.sense I input).scope.isScalar = false ∧
      (memo.sense I list).scope.isScalar = true ∧
      ∀ column, column ∈ (memo.sense I list).scope.columns → ∀ key ∈ keys, key.id ≠ column := by
  obtain ⟨_, _, shape, inputIs, listIs, new⟩ := (regular.expr stored).aggregates keys kind
  obtain ⟨input, others, same, rfl, behind⟩ := List.map_eq_cons_iff.1 shape
  obtain ⟨list, rfl, rfl⟩ := List.map_eq_singleton_iff.1 behind
  exact ⟨input, list, same, inputIs, listIs, new⟩

theorem Regular.limit {offset count : Nat}
    (kind : expr.operator = .logical (.limit offset count)) :
    ∃ input, expr.children = [input] ∧ (memo.sense I input).scope.isScalar = false := by
  obtain ⟨_, shape, inputIs⟩ := (regular.expr stored).limits offset count kind
  obtain ⟨input, same, rfl⟩ := List.map_eq_singleton_iff.1 shape
  exact ⟨input, same, inputIs⟩

end Layout

/-- What insertion adds has the shape that was inserted. -/
theorem insert_adds {operator : Operator} {children : List GroupId} {number id : ExprId}
    {expr : Expr} (done : memo.insert operator children = .ok (number, next))
    (stored : next.exprs[id]? = some expr) :
    memo.exprs[id]? = some expr ∨ (expr.operator = operator ∧ expr.children = children) := by
  obtain ⟨_, ⟨_, rfl⟩ | ⟨_, _, _, rfl⟩⟩ := insert_cases done
  · exact Or.inl stored
  · rcases stored_append_iff.1 stored with old | ⟨_, rfl⟩
    · exact Or.inl old
    · exact Or.inr ⟨rfl, rfl⟩

theorem insertInto_adds {target : GroupId} {operator : Operator} {children : List GroupId}
    {number id : ExprId} {expr : Expr}
    (done : memo.insertInto target operator children = .ok (number, next))
    (stored : next.exprs[id]? = some expr) :
    memo.exprs[id]? = some expr ∨ (expr.operator = operator ∧ expr.children = children) := by
  obtain ⟨_, ⟨_, rfl⟩ | ⟨_, _, rfl, _⟩⟩ := insertInto_cases done
  · exact Or.inl stored
  · rcases stored_append_iff.1 stored with old | ⟨_, rfl⟩
    · exact Or.inl old
    · exact Or.inr ⟨rfl, rfl⟩

end Memo

/-! ### Queries -/

namespace Query

mutual

/-- A query in which every operator has some shape over its inputs. -/
def Each (shape : Operator → List Query → Prop) : Query → Prop
  | node operator inputs => AllEach shape inputs ∧ shape operator inputs

/-- Some queries in which every operator has some shape. -/
def AllEach (shape : Operator → List Query → Prop) : List Query → Prop
  | [] => True
  | query :: rest => query.Each shape ∧ AllEach shape rest

end

/-- A query whose operators are regular. -/
def Regular (query : Query) : Prop :=
  query.Each fun operator inputs => Scope.Regular operator (scopes inputs)

section Each

variable {shape : Operator → List Query → Prop} {meaning : Operator → List (Sense V) → Prop}

mutual

/-- What every operator of a query is, every expression of the memo stays. -/
theorem materialize_each {memo next : Memo} {id : GroupId} {outside : ColumnSet}
    (means : ∀ operator inputs, shape operator inputs → meaning operator (senses I inputs))
    (sound : memo.Sound I) (before : memo.Each I meaning) : (query : Query) →
      query.WellFormed outside → query.Each shape →
        memo.materialize query.toProposal = .ok (id, next) → next.Each I meaning
  | node operator inputs, wellFormed, each, done => by
    unfold toProposal materialize at done
    obtain ⟨⟨groups, middle⟩, below, done⟩ := bind_eq_ok_iff.1 done
    obtain ⟨⟨number, last⟩, inserted, done⟩ := bind_eq_ok_iff.1 done
    obtain ⟨expr, _, done⟩ := bind_eq_ok_iff.1 done
    cases pure_eq_ok_iff.1 done
    have proposed : MeanAll I memo _ _ := AllWellFormed.means inputs wellFormed.1
    obtain ⟨between, _, inside, same⟩ := materializeAll_sound sound _ proposed below
    have early := materializeAll_each means sound before inputs wellFormed.1 each.1 below
    obtain ⟨later, grows⟩ := insert_keeps inserted between.toValid
    refine early.of_grows grows between.toValid later fun number expr stored => ?_
    rcases insert_adds inserted stored with old | ⟨rfl, rfl⟩
    · exact Or.inl old
    · rw [grows.map_sense_eq between.toValid later inside, same]
      exact Or.inr (means _ _ each.2)

theorem materializeAll_each {memo next : Memo} {ids : List GroupId} {outside inside : ColumnSet}
    (means : ∀ operator inputs, shape operator inputs → meaning operator (senses I inputs))
    (sound : memo.Sound I) (before : memo.Each I meaning) :
    (queries : List Query) → AllWellFormed outside inside queries → AllEach shape queries →
      memo.materializeAll (toProposals queries) = .ok (ids, next) → next.Each I meaning
  | [], _, _, done => by
    cases pure_eq_ok_iff.1 done
    exact before
  | query :: rest, wellFormed, each, done => by
    unfold toProposals materializeAll at done
    obtain ⟨⟨id, middle⟩, one, done⟩ := bind_eq_ok_iff.1 done
    obtain ⟨⟨others, last⟩, more, done⟩ := bind_eq_ok_iff.1 done
    cases pure_eq_ok_iff.1 done
    have first := materialize_each means sound before query wellFormed.1 each.1 one
    obtain ⟨between, _⟩ := materialize_sound sound _ (WellFormed.means query wellFormed.1) one
    exact materializeAll_each means between first rest wellFormed.2 each.2 more

end

/-- **Queries that are inserted into an empty memo** give every expression the shape of theirs. -/
theorem inserted_each {queries : List Query} {roots : List GroupId} {memo : Memo}
    (means : ∀ operator inputs, shape operator inputs → meaning operator (senses I inputs))
    (wellFormed : ∀ query ∈ queries, ∃ outside, query.WellFormed outside)
    (each : ∀ query ∈ queries, query.Each shape)
    (inserted : Memo.empty.materializeAll (toProposals queries) = .ok (roots, memo)) :
    memo.Each I meaning := by
  have start : Memo.empty.Each I meaning := fun _ _ stored => by simp [Memo.empty] at stored
  have sound : Memo.empty.Sound I := empty_sound
  revert start sound
  generalize Memo.empty = first at inserted
  intro start sound
  induction queries generalizing first roots with
  | nil =>
    cases pure_eq_ok_iff.1 inserted
    exact start
  | cons query rest ih =>
    unfold toProposals materializeAll at inserted
    obtain ⟨⟨id, middle⟩, one, inserted⟩ := bind_eq_ok_iff.1 inserted
    obtain ⟨⟨others, last⟩, more, inserted⟩ := bind_eq_ok_iff.1 inserted
    cases pure_eq_ok_iff.1 inserted
    obtain ⟨outside, proper⟩ := wellFormed query List.mem_cons_self
    have early := materialize_each means sound start query proper (each query List.mem_cons_self) one
    obtain ⟨between, _⟩ := materialize_sound sound _ (WellFormed.means query proper) one
    exact ih (fun other member => wellFormed other (List.mem_cons_of_mem _ member))
      (fun other member => each other (List.mem_cons_of_mem _ member)) middle more early between

end Each

end Query

/-! ### Proposals -/

namespace Proposal

mutual

/-- A proposal whose operators are regular over any inputs. -/
def AlwaysRegular : Proposal → Prop
  | group _ => True
  | node operator children =>
    AllAlwaysRegular children ∧ operator.AlwaysRegular children.length

/-- Some proposals are regular over any inputs. -/
def AllAlwaysRegular : List Proposal → Prop
  | [] => True
  | proposal :: rest => proposal.AlwaysRegular ∧ AllAlwaysRegular rest

end

theorem allAlwaysRegular_iff {proposals : List Proposal} :
    AllAlwaysRegular proposals ↔ ∀ proposal ∈ proposals, proposal.AlwaysRegular := by
  induction proposals with
  | nil => simp [AllAlwaysRegular]
  | cons proposal rest ih => rw [AllAlwaysRegular, List.forall_mem_cons, ih]

theorem alwaysRegular_overGroups {operator : Operator} {groups : List GroupId}
    (regular : operator.AlwaysRegular groups.length) : (overGroups operator groups).AlwaysRegular := by
  refine ⟨allAlwaysRegular_iff.2 fun proposal member => ?_, by simpa using regular⟩
  obtain ⟨_, _, rfl⟩ := List.mem_map.1 member
  trivial

theorem alwaysRegular_conjunction {conjuncts : List GroupId} :
    (conjunction conjuncts).AlwaysRegular := by
  unfold conjunction
  split
  · exact ⟨trivial, Operator.alwaysRegular_truth⟩
  · trivial
  · exact alwaysRegular_overGroups Operator.alwaysRegular_and

/-- An inner join of proposals that are regular over any inputs. -/
theorem alwaysRegular_join {left right predicate : Proposal} (one : left.AlwaysRegular)
    (two : right.AlwaysRegular) (condition : predicate.AlwaysRegular) :
    (node Rule.innerJoin [left, right, predicate]).AlwaysRegular :=
  ⟨⟨one, two, condition, trivial⟩, Operator.alwaysRegular_join rfl⟩

end Proposal

namespace Memo

/-- A memo came from another one by adding expressions that are regular over any inputs. -/
def AddsRegular (memo next : Memo) : Prop :=
  ∀ (id : ExprId) (expr : Expr), next.exprs[id]? = some expr →
    memo.exprs[id]? = some expr ∨ expr.operator.AlwaysRegular expr.children.length

theorem AddsRegular.refl (memo : Memo) : memo.AddsRegular memo := fun _ _ => Or.inl

theorem AddsRegular.trans {last : Memo} (first : memo.AddsRegular next)
    (second : next.AddsRegular last) : memo.AddsRegular last := by
  intro id expr stored
  rcases second id expr stored with old | new
  · exact first id expr old
  · exact Or.inr new

theorem length_of_materializeAll {proposals : List Proposal} {ids : List GroupId}
    (done : memo.materializeAll proposals = .ok (ids, next)) : ids.length = proposals.length := by
  induction proposals generalizing memo ids with
  | nil =>
    cases pure_eq_ok_iff.1 done
    rfl
  | cons proposal rest ih =>
    unfold materializeAll at done
    obtain ⟨⟨id, middle⟩, _, done⟩ := bind_eq_ok_iff.1 done
    obtain ⟨⟨others, last⟩, more, done⟩ := bind_eq_ok_iff.1 done
    cases pure_eq_ok_iff.1 done
    rw [List.length_cons, ih more, List.length_cons]

mutual

theorem materialize_addsRegular {memo next : Memo} {id : GroupId} : (proposal : Proposal) →
    proposal.AlwaysRegular → memo.materialize proposal = .ok (id, next) → memo.AddsRegular next
  | .group _, _, done => by
    cases pure_eq_ok_iff.1 done
    exact .refl memo
  | .node operator children, regular, done => by
    unfold materialize at done
    obtain ⟨⟨groups, middle⟩, below, done⟩ := bind_eq_ok_iff.1 done
    obtain ⟨⟨number, last⟩, inserted, done⟩ := bind_eq_ok_iff.1 done
    obtain ⟨expr, _, done⟩ := bind_eq_ok_iff.1 done
    cases pure_eq_ok_iff.1 done
    refine (materializeAll_addsRegular children regular.1 below).trans fun id expr stored => ?_
    refine (insert_adds inserted stored).imp_right ?_
    rintro ⟨rfl, rfl⟩
    rw [length_of_materializeAll below]
    exact regular.2

theorem materializeAll_addsRegular {memo next : Memo} {ids : List GroupId} :
    (proposals : List Proposal) → Proposal.AllAlwaysRegular proposals →
      memo.materializeAll proposals = .ok (ids, next) → memo.AddsRegular next
  | [], _, done => by
    cases pure_eq_ok_iff.1 done
    exact .refl memo
  | proposal :: rest, regular, done => by
    unfold materializeAll at done
    obtain ⟨⟨id, middle⟩, one, done⟩ := bind_eq_ok_iff.1 done
    obtain ⟨⟨others, last⟩, more, done⟩ := bind_eq_ok_iff.1 done
    cases pure_eq_ok_iff.1 done
    exact (materialize_addsRegular proposal regular.1 one).trans
      (materializeAll_addsRegular rest regular.2 more)

end

/-- Proposals that are regular over any inputs add nothing else. -/
theorem insertProposals_addsRegular {target : GroupId} {proposals : List Proposal} {count : Nat}
    (regular : ∀ proposal ∈ proposals, proposal.AlwaysRegular)
    (done : memo.insertProposals target proposals = .ok (count, next)) : memo.AddsRegular next := by
  obtain ⟨grown, run, done⟩ := bind_eq_ok_iff.1 done
  cases pure_eq_ok_iff.1 done
  refine foldlM_relates AddsRegular.refl AddsRegular.trans (fun {proposal before after} member step => ?_) run
  cases proposal with
  | group id =>
    cases pure_eq_ok_iff.1 step
    exact .refl before
  | node operator children =>
    unfold insertProposal at step
    obtain ⟨⟨groups, middle⟩, below, step⟩ := bind_eq_ok_iff.1 step
    obtain ⟨⟨number, last⟩, inserted, step⟩ := bind_eq_ok_iff.1 step
    cases pure_eq_ok_iff.1 step
    obtain ⟨each, own⟩ := regular _ member
    refine (materializeAll_addsRegular children each below).trans fun id expr stored => ?_
    refine (insertInto_adds inserted stored).imp_right ?_
    rintro ⟨rfl, rfl⟩
    rw [length_of_materializeAll below]
    exact own

end Memo

/-! ### Rules -/

namespace Rule

/-- What a rule proposes is regular over any inputs. -/
def ProposesRegular (rule : Rule) : Prop :=
  ∀ {context : Context} {binding : Binding} {proposals : List Proposal},
    binding.Drawn context.memo rule.pattern → rule.transform context binding = .ok proposals →
      ∀ proposal ∈ proposals, proposal.AlwaysRegular

theorem Implements.proposesRegular {rule : Rule} (implements : rule.Implements) :
    rule.ProposesRegular := by
  intro context binding proposals drawn done proposal member
  obtain ⟨operator, _, rfl⟩ := implements drawn done proposal member
  exact Proposal.alwaysRegular_overGroups Operator.alwaysRegular_physical

theorem ProposesRegular.proposals {rule : Rule} (regular : rule.ProposesRegular) {context : Context}
    (valid : context.memo.Valid) {id : ExprId} {expr : Expr}
    (stored : context.memo.exprs[id]? = some expr) {proposals : List Proposal}
    (done : rule.proposals context id = .ok proposals) :
    ∀ proposal ∈ proposals, proposal.AlwaysRegular := by
  intro proposal member
  obtain ⟨binding, alternatives, drawn, _, transformed, inside⟩ :=
    Rule.exists_of_proposals valid stored done member
  exact regular drawn transformed proposal inside

theorem joinCommutativity_proposesRegular : joinCommutativity.ProposesRegular := by
  intro context binding proposals _ done proposal member
  unfold joinCommutativity at done
  simp only at done
  split at done
  · rename_i type _
    by_cases inner : type.isInner = true
    · rw [if_pos inner] at done
      obtain ⟨right, _, done⟩ := bind_eq_ok_iff.1 done
      obtain ⟨left, _, done⟩ := bind_eq_ok_iff.1 done
      obtain ⟨predicate, _, done⟩ := bind_eq_ok_iff.1 done
      obtain rfl := pure_eq_ok_iff.1 done
      rw [List.mem_singleton.1 member]
      exact Proposal.alwaysRegular_overGroups (Operator.alwaysRegular_join inner)
    · rw [if_neg inner] at done
      cases pure_eq_ok_iff.1 done
      cases member
  · cases pure_eq_ok_iff.1 done
    cases member

theorem joinAssociativity_proposesRegular : joinAssociativity.ProposesRegular := by
  intro context binding proposals _ done proposal member
  have regrouped : ∀ {outer : List (GroupId × ColumnSet)} {inner : List GroupId}
      {stay moved other : GroupId} {movedColumns otherColumns : ColumnSet},
      proposal ∈ (regroup? outer inner stay moved other movedColumns otherColumns).toList →
        proposal.AlwaysRegular := by
    intro outer inner stay moved other movedColumns otherColumns listed
    obtain ⟨pushed, kept, _, _, rfl⟩ := regroup?_cases (Option.mem_toList.1 listed)
    exact Proposal.alwaysRegular_join trivial
      (Proposal.alwaysRegular_join trivial trivial Proposal.alwaysRegular_conjunction)
      Proposal.alwaysRegular_conjunction
  unfold joinAssociativity at done
  obtain ⟨below, _, done⟩ := bind_eq_ok_iff.1 done
  split at done
  · cases pure_eq_ok_iff.1 done
    cases member
  · obtain ⟨left, _, done⟩ := bind_eq_ok_iff.1 done
    obtain ⟨right, _, done⟩ := bind_eq_ok_iff.1 done
    obtain ⟨other, _, done⟩ := bind_eq_ok_iff.1 done
    obtain ⟨leftColumns, _, done⟩ := bind_eq_ok_iff.1 done
    obtain ⟨rightColumns, _, done⟩ := bind_eq_ok_iff.1 done
    obtain ⟨otherColumns, _, done⟩ := bind_eq_ok_iff.1 done
    obtain ⟨predicate, _, done⟩ := bind_eq_ok_iff.1 done
    obtain ⟨outer, _, done⟩ := bind_eq_ok_iff.1 done
    obtain ⟨inner, _, done⟩ := bind_eq_ok_iff.1 done
    obtain rfl := pure_eq_ok_iff.1 done
    rcases List.mem_append.1 member with listed | listed
    · exact regrouped listed
    · exact regrouped listed

theorem joinsOf_alwaysRegular {graph : JoinGraph} {inputs : List GroupId} (tree : JoinTree) :
    ∀ {extra : List GroupId}, (joinsOf graph inputs extra tree).AlwaysRegular := by
  induction tree with
  | leaf component => exact trivial
  | join left right predicates cardinality one two =>
    exact Proposal.alwaysRegular_join one two Proposal.alwaysRegular_conjunction

theorem expandNaryJoin_proposesRegular : expandNaryJoin.ProposesRegular := by
  intro context binding proposals _ done proposal member
  unfold expandNaryJoin at done
  simp only at done
  split at done
  · split at done
    · obtain rfl := pure_eq_ok_iff.1 done
      rw [List.mem_singleton.1 member]
      exact Proposal.alwaysRegular_overGroups Operator.alwaysRegular_select
    · obtain ⟨graph, _, done⟩ := bind_eq_ok_iff.1 done
      obtain ⟨tree, _, done⟩ := bind_eq_ok_iff.1 done
      obtain rfl := pure_eq_ok_iff.1 done
      rw [List.mem_singleton.1 member]
      exact joinsOf_alwaysRegular tree
  · cases pure_eq_ok_iff.1 done
    cases member

theorem pushSelectIntoJoin_proposesRegular : pushSelectIntoJoin.ProposesRegular := by
  intro context binding proposals _ done proposal member
  obtain ⟨_, _, _, _, left, right, _, _, _, _, _, _, _, _, rfl⟩ :=
    pushSelectIntoJoin_cases done member
  exact Proposal.alwaysRegular_join trivial trivial Proposal.alwaysRegular_conjunction

/-- **The standard rules** propose what is regular over any inputs. -/
theorem standard_proposesRegular : ∀ rule ∈ standard, rule.ProposesRegular := by
  refine forall_standard joinCommutativity_proposesRegular joinAssociativity_proposesRegular
    expandNaryJoin_proposesRegular pushSelectIntoJoin_proposesRegular fun rule listed => ?_
  have implements : rule.Implements := implementing_implements rule listed
  show rule.ProposesRegular
  exact implements.proposesRegular

end Rule

/-! ### Runs -/

namespace Search

variable {start final : Search}

/-- **A run keeps the shape of every expression**, if what is regular over any inputs has it. -/
theorem Reached.each {shape : Operator → List (Sense V) → Prop} (reached : start.Reached final)
    (always : ∀ {operator : Operator} {inputs : List (Sense V)},
      operator.AlwaysRegular inputs.length → shape operator inputs)
    (coherent : start.context.Coherent I) (first : start.context.memo.Each I shape)
    (standard : ∀ rule ∈ start.rules, rule ∈ Rule.standard) :
    final.context.memo.Each I shape := by
  have maintains : Maintains I start.rules fun context => context.memo.Each I shape := by
    refine ⟨?_, ?_, fun _ holds => holds⟩
    · intro context after outcome coherent holds done
      rw [(Context.deriveAll_coherent coherent done).2]
      exact holds
    · intro early context rule id expr proposals count memo listed before _ stored proposed coherent
        holds _ inserted later
      have adds := insertProposals_addsRegular
        (Rule.ProposesRegular.proposals (Rule.standard_proposesRegular rule (standard rule listed))
          before.sound.toValid stored proposed) inserted
      obtain ⟨valid, grows⟩ := (mark_keeps.trans (insertProposals_keeps inserted))
        coherent.sound.toValid
      refine holds.of_grows grows coherent.sound.toValid valid fun number added stored => ?_
      refine (adds number added stored).imp (fun old => ?_) fun regular => always (by simpa using regular)
      rwa [exprs_mark] at old
  exact (reached.maintains maintains coherent first fun rule member =>
    Rule.standard_faithful rule (standard rule member)).invariant

end Search

/-- **A run over regular queries** has a coherent start, a coherent end and a regular memo. -/
theorem reached_regular {queries : List Query} {roots : List GroupId} {memo : Memo}
    {catalog : Catalog} {rules : List Rule} {config : Config} {final : Search}
    (wellFormed : ∀ query ∈ queries, ∃ outside, query.WellFormed outside)
    (regular : ∀ query ∈ queries, query.Regular)
    (inserted : Memo.empty.materializeAll (Query.toProposals queries) = .ok (roots, memo))
    (standard : ∀ rule ∈ rules, rule ∈ Rule.standard)
    (reached : (Search.ofMemo memo catalog rules config).Reached final) :
    (Search.ofMemo memo catalog rules config).context.Coherent I ∧ final.context.Coherent I ∧
      final.context.memo.Regular I := by
  obtain ⟨sound, _⟩ := Query.inserted_means (I := I) wellFormed inserted
  have coherent := Context.coherent_of_sound sound catalog { maxDepth := config.maxDepth }
  have faithful : ∀ rule ∈ rules, rule.Faithful I :=
    fun rule member => Rule.standard_faithful rule (standard rule member)
  have start : memo.Regular I := Query.inserted_each (fun operator inputs shape =>
    (Query.scope_senses (I := I) inputs).symm ▸ shape) wellFormed regular inserted
  refine ⟨coherent, (reached.refines coherent faithful).coherent,
    reached.each (fun always => always _ (List.length_map _)) coherent start standard⟩

end Cascades
