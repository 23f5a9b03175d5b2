/-
**Memos that are rearranged.**

Exploring divides and exchanges what the groups of a memo hold, and adds nothing to it. So every
expression goes on holding what its group holds, and a new group holds a part of what some group held
before. What is added is of few kinds: a conjunction of predicates that stand for themselves, an inner
join of two relations, a selection beside other members.

* `Laid.conjuncts_eq`: a predicate holds its conjuncts; `Atomic`: a predicate that is its only one;
* `Additional`, `Rearranged`: the kinds of new expressions, and the invariant;
* `Rearranged.insert`, `Rearranged.insertInto`: what one insertion keeps;
* `Rearranges`, `Redistributes`: proposals that hold a part, or all, of what a group holds;
* `insertProposals_rearranged`: they keep a memo rearranged.
-/

import Cascades.Proofs.Gathering.Contents
import Cascades.Proofs.Memo.Formed
import Cascades.Rule.Exploration
import Mathlib.Algebra.Order.Group.Multiset

namespace Cascades

open Multiset (le_add_right le_add_left)

namespace Memo

variable {forms : Prop} {first memo next last : Memo} {id old target : GroupId}
  {breadth : GroupId → Breadth}

/-! ### Predicates -/

/-- A scalar group has an operator, which is that of its first member. -/
theorem Scalar.exists_scalarFirst? (scalar : memo.Scalar id) (valid : memo.Valid) :
    ∃ operator expr, memo.firstMember id = .ok expr ∧ expr.operator = .scalar operator ∧
      memo.scalarFirst? id = some (operator, expr.children) := by
  obtain ⟨expr, found⟩ := valid.exists_firstMember scalar.inside
  obtain ⟨group, number, there, place, stored⟩ := firstMember_ok_iff.1 found
  obtain ⟨rfl, _⟩ := valid.of_firstMember found
  obtain ⟨_, again, family⟩ := scalar
  obtain rfl := Option.some.inj (there.symm.trans again)
  have same := valid.family stored there
  rw [family] at same
  cases kind : expr.operator with
  | scalar operator =>
    refine ⟨operator, expr, found, kind, ?_⟩
    simp [scalarFirst?, there, family, place, stored, kind]
  | logical operator =>
    rw [kind] at same
    cases same
  | physical operator =>
    rw [kind] at same
    cases same

theorem Laid.conjunctsWithin_eq (laid : memo.Laid) (valid : memo.Valid) (levels : Nat) :
    ∀ {id : GroupId}, memo.Scalar id →
      (memo.conjunctsWithin levels id : Multiset GroupId) = memo.contentsWithin levels id := by
  induction levels with
  | zero => exact fun _ => rfl
  | succ levels ih =>
    intro id scalar
    obtain ⟨operator, expr, found, kind, top⟩ := scalar.exists_scalarFirst? valid
    obtain ⟨_, number, _, _, stored⟩ := firstMember_ok_iff.1 found
    unfold Memo.conjunctsWithin contentsWithin
    rw [found, top]
    simp only [kind]
    split
    · rename_i children same
      cases same
      rw [Operator.gather_of_gathers rfl, ← Multiset.coe_bind]
      show (Multiset.map _ (expr.children : Multiset GroupId)).sum = _
      rw [Multiset.map_coe, Multiset.sum_coe]
      refine congrArg List.sum (List.map_congr_left fun child member => ?_)
      exact ih (laid.and stored kind child member)
    · rename_i children same
      cases same
      obtain ⟨inputs, _, families, takes⟩ := laid stored
      rw [kind] at takes
      have none : expr.children = [] := by
        cases takes with
        | scalar takes =>
        cases takes
        exact List.map_eq_nil_iff.1 families.symm
      rw [none]
      rfl
    · rename_i notAnd notTruth
      rw [Operator.gather_of_not_gathers]
      · rfl
      · refine Bool.eq_false_iff.2 fun gathers => ?_
        rcases ScalarOp.gathers_iff.1 gathers with rfl | rfl
        · exact notAnd _ rfl
        · exact notTruth _ rfl

/-- **A predicate holds its conjuncts.** -/
theorem Laid.conjuncts_eq (laid : memo.Laid) (valid : memo.Valid) (scalar : memo.Scalar id) :
    (memo.conjuncts id : Multiset GroupId) = memo.contents id :=
  laid.conjunctsWithin_eq valid (id + 1) scalar

/-- A predicate that is its only conjunct. -/
structure Atomic (memo : Memo) (id : GroupId) : Prop where
  scalar : memo.Scalar id
  alone : memo.contents id = {id}

/-- The conjuncts of a predicate are so. -/
theorem Laid.atomic_conjuncts (laid : memo.Laid) (valid : memo.Valid) (scalar : memo.Scalar id) :
    ∀ conjunct ∈ memo.conjuncts id, memo.Atomic conjunct := by
  intro conjunct member
  refine ⟨laid.conjuncts scalar conjunct member, ?_⟩
  rw [← Multiset.mem_coe, laid.conjuncts_eq valid scalar] at member
  exact (valid.of_mem_contents scalar.inside member).2

theorem Atomic.mono (grows : memo.Grows next) (atomic : memo.Atomic id) (valid : memo.Valid)
    (later : next.Valid) : next.Atomic id where
  scalar := atomic.scalar.mono grows
  alone := (grows.contents_eq valid later atomic.scalar.inside).trans atomic.alone

/-- What predicates that stand for themselves hold together. -/
theorem sum_atomic {ids : List GroupId} (each : ∀ id ∈ ids, memo.Atomic id) :
    (ids.map memo.contents).sum = (ids : Multiset GroupId) := by
  rw [List.map_congr_left fun id member => (each id member).alone]
  exact Multiset.sum_map_singleton (ids : Multiset GroupId)

/-! ### What is added -/

/-- The operator of a conjunction of some groups; of none it is the constant truth. -/
def conjoining : List GroupId → Operator
  | [] => .truth
  | _ => .scalar .and

theorem gathers_conjoining {ids : List GroupId} : (conjoining ids).gathers = true := by
  cases ids <;> rfl

theorem isScalar_conjoining {ids : List GroupId} : (conjoining ids).isScalar = true := by
  cases ids <;> rfl

/-- **An expression that is added** while a memo is explored or, where physical forms are allowed,
implemented. New groups begin with conjunctions and joins only. -/
inductive Additional (memo : Memo) (forms : Prop) (expr : Expr) : Prop
  | conjunction (operator : expr.operator = conjoining expr.children)
      (each : ∀ child ∈ expr.children, memo.Atomic child)
  | join {type : JoinType} {left right predicate : GroupId} (inner : type.isInner = true)
      (operator : expr.operator = .logical (.join type))
      (children : expr.children = [left, right, predicate]) (leftIs : memo.Relational left)
      (rightIs : memo.Relational right) (predicateIs : memo.Scalar predicate)
  | select {input predicate : GroupId} (later : expr.position ≠ 0)
      (operator : expr.operator = .logical .select) (children : expr.children = [input, predicate])
  | physical (allowed : forms) (later : expr.position ≠ 0)
      (family : expr.operator.isPhysical = true)

theorem Additional.mono {expr : Expr} (additional : memo.Additional forms expr) (grows : memo.Grows next)
    (valid : memo.Valid) (finish : next.Valid) : next.Additional forms expr := by
  cases additional with
  | conjunction operator each =>
    exact .conjunction operator fun child member => (each child member).mono grows valid finish
  | join inner operator children leftIs rightIs predicateIs =>
    exact .join inner operator children (leftIs.mono grows) (rightIs.mono grows)
      (predicateIs.mono grows)
  | select later operator children => exact .select later operator children
  | physical allowed later family => exact .physical allowed later family

/-! ### The invariant -/

/-- **A memo that another one was rearranged into**: every expression holds what its group holds, every
group a part of what a group of the other memo holds, and what was added is of a few kinds. -/
structure Rearranged (forms : Prop) (first memo : Memo) : Prop extends memo.Valid where
  start : first.Valid
  grows : first.Grows memo
  holds : memo.Holds
  within : ∀ {id : GroupId}, id < memo.groups.size →
    ∃ old < first.groups.size, memo.contents id ≤ first.contents old
  added : ∀ {id : ExprId} {expr : Expr}, memo.exprs[id]? = some expr →
    first.exprs[id]? = some expr ∨ memo.Additional forms expr

theorem Holds.rearranged (holds : memo.Holds) (valid : memo.Valid) : Rearranged forms memo memo where
  toValid := valid
  start := valid
  grows := .refl memo
  holds := holds
  within inside := ⟨_, inside, le_rfl⟩
  added stored := Or.inl stored

/-- In a memo of well-formed logical expressions every expression holds what its group holds. -/
theorem Built.holds (built : memo.Built) : memo.Holds := by
  induction built with
  | empty =>
    intro id expr stored
    simp [Memo.empty] at stored
  | insert built _ _ done ih =>
    obtain ⟨_, formed⟩ := built.formed
    exact (insert_holds ih formed.toValid done).1

/-- A memo that grew is rearranged if what was added is. -/
theorem Rearranged.of_grows (rearranged : Rearranged forms first memo) (grows : memo.Grows next)
    (valid : next.Valid) (holds : next.Holds)
    (within : ∀ {id : GroupId}, memo.groups.size ≤ id → id < next.groups.size →
      ∃ old < first.groups.size, next.contents id ≤ first.contents old)
    (added : ∀ {id : ExprId} {expr : Expr}, next.exprs[id]? = some expr →
      memo.exprs[id]? = some expr ∨ next.Additional forms expr) : Rearranged forms first next where
  toValid := valid
  start := rearranged.start
  grows := rearranged.grows.trans grows
  holds := holds
  within {id} inside := by
    rcases Nat.lt_or_ge id memo.groups.size with before | new
    · rw [grows.contents_eq rearranged.toValid valid before]
      exact rearranged.within before
    · exact within new inside
  added {id expr} stored := by
    rcases added stored with before | additional
    · exact (rearranged.added before).imp_right fun known =>
        known.mono grows rearranged.toValid valid
    · exact Or.inr additional

/-- What only changes marks or knowledge about a memo leaves it rearranged. -/
theorem Rearranged.of_same (rearranged : Rearranged forms first memo) (keeps : memo.Keeps next)
    (exprs : next.exprs = memo.exprs) (groups : next.groups = memo.groups) :
    Rearranged forms first next := by
  obtain ⟨valid, grows⟩ := keeps rearranged.toValid
  refine rearranged.of_grows grows valid ?_ ?_ fun stored => Or.inl (exprs ▸ stored)
  · exact rearranged.holds.of_grows grows rearranged.toValid valid fun stored =>
      Or.inl (exprs ▸ stored)
  · intro id new inside
    rw [groups] at inside
    exact absurd inside (Nat.not_lt.2 new)

theorem Rearranged.mark (rearranged : Rearranged forms first memo) {id : ExprId} {mark : Mark} :
    Rearranged forms first (memo.mark id mark) :=
  rearranged.of_same mark_keeps exprs_mark groups_mark

/-! ### Insertion of expressions -/

section Insertion

variable {operator : Operator} {children : List GroupId} {number : ExprId}

/-- **A shape that is inserted** holds what it gathers, which is a part of what some group held. -/
theorem Rearranged.insert (rearranged : Rearranged forms first memo) (gathers : operator.gathers = true)
    (there : old < first.groups.size)
    (part : (children.map memo.contents).sum ≤ first.contents old)
    (additional : ∀ {expr : Expr}, expr.operator = operator → expr.children = children →
      memo.Additional forms expr)
    (done : memo.insert operator children = .ok (number, next)) :
    Rearranged forms first next ∧ memo.Grows next ∧ ∃ expr, next.exprs[number]? = some expr ∧
      (expr.operator == operator) = true ∧
      next.contents expr.group = (children.map memo.contents).sum := by
  obtain ⟨valid, grows⟩ := insert_keeps done rearranged.toValid
  obtain ⟨kept, expr, stored, equal, contents⟩ := insert_holds rearranged.holds rearranged.toValid done
  rw [Operator.gather_of_gathers gathers] at contents
  refine ⟨rearranged.of_grows grows valid kept (fun {id} new inside => ?_) fun there => ?_, grows,
    expr, stored, equal, contents⟩
  · obtain ⟨head, found⟩ := valid.exists_firstMember inside
    obtain ⟨rfl, _⟩ := valid.of_firstMember found
    obtain ⟨_, place, _, _, storedHead⟩ := firstMember_ok_iff.1 found
    rcases stored_insert done storedHead with before | ⟨rfl, rfl, _⟩
    · obtain ⟨_, owner, _⟩ := rearranged.placed before
      exact absurd (lt_of_group owner) (Nat.not_lt.2 new)
    · refine ⟨old, there, ?_⟩
      rw [valid.contents_eq found, Operator.gather_of_gathers gathers,
        grows.map_contents_eq rearranged.toValid valid (insert_cases done).1]
      exact part
  · rcases stored_insert done there with before | ⟨operators, shape, _⟩
    · exact Or.inl before
    · exact Or.inr ((additional operators shape).mono grows rearranged.toValid valid)

/-- A shape that is inserted into a group holds what the group holds. -/
theorem Rearranged.insertInto (rearranged : Rearranged forms first memo)
    (same : operator.gather target (children.map memo.contents) = memo.contents target)
    (additional : ∀ {expr : Expr}, expr.operator = operator → expr.children = children →
      expr.position ≠ 0 → memo.Additional forms expr)
    (done : memo.insertInto target operator children = .ok (number, next)) :
    Rearranged forms first next ∧ memo.Grows next := by
  obtain ⟨valid, grows⟩ := insertInto_keeps done rearranged.toValid
  have kept := insertInto_holds rearranged.holds rearranged.toValid same done
  refine ⟨rearranged.of_grows grows valid kept (fun {id} new inside => ?_) fun stored => ?_, grows⟩
  · obtain ⟨_, ⟨_, rfl⟩ | ⟨_, _, rfl, _⟩⟩ := insertInto_cases done
    · exact absurd inside (Nat.not_lt.2 new)
    · rw [size_groups_append] at inside
      exact absurd inside (Nat.not_lt.2 new)
  · obtain ⟨_, ⟨_, rfl⟩ | ⟨_, _, rfl, group, there, _⟩⟩ := insertInto_cases done
    · exact Or.inl stored
    · rcases stored_append_iff.1 stored with before | ⟨_, rfl⟩
      · exact Or.inl before
      · have later : (memo.added target operator children).position ≠ 0 := by
          rw [added_eq there]
          exact Nat.ne_of_gt (rearranged.inhabited there)
        exact Or.inr ((additional rfl rfl later).mono grows rearranged.toValid valid)

end Insertion

/-! ### Proposals -/

/-- **A proposal for a relation** that joins relations of a memo under atomic predicates, and what it
holds. -/
inductive Rearranges (memo : Memo) : Proposal → Multiset GroupId → Prop
  | group {id : GroupId} (relational : memo.Relational id) :
      Rearranges memo (.group id) (memo.contents id)
  | join {left right : Proposal} {one two : Multiset GroupId} {conjuncts : List GroupId}
      (low : Rearranges memo left one) (high : Rearranges memo right two)
      (each : ∀ conjunct ∈ conjuncts, memo.Atomic conjunct) :
      Rearranges memo (.node Rule.innerJoin [left, right, .conjunction conjuncts])
        (one + two + (conjuncts : Multiset GroupId))

/-- **A proposal that redistributes** what a group holds. -/
inductive Redistributes (memo : Memo) (forms : Prop) (target : GroupId) : Proposal → Prop
  | join {left right : Proposal} {one two : Multiset GroupId} {conjuncts : List GroupId}
      (low : Rearranges memo left one) (high : Rearranges memo right two)
      (each : ∀ conjunct ∈ conjuncts, memo.Atomic conjunct)
      (whole : one + two + (conjuncts : Multiset GroupId) = memo.contents target) :
      Redistributes memo forms target (.node Rule.innerJoin [left, right, .conjunction conjuncts])
  | overGroups {operator : Operator} {children : List GroupId}
      (inside : ∀ child ∈ children, child < memo.groups.size)
      (same : operator.gather target (children.map memo.contents) = memo.contents target)
      (additional : ∀ {expr : Expr}, expr.operator = operator → expr.children = children →
        expr.position ≠ 0 → memo.Additional forms expr) :
      Redistributes memo forms target (.overGroups operator children)

/-- Where more is allowed, a proposal redistributes as well. -/
theorem Redistributes.allow {more : Prop} {proposal : Proposal}
    (redistributes : Redistributes memo forms target proposal) (allowed : forms → more) :
    Redistributes memo more target proposal := by
  cases redistributes with
  | join low high each whole => exact .join low high each whole
  | overGroups inside same additional =>
    refine .overGroups inside same fun operator shape later => ?_
    cases additional operator shape later with
    | conjunction operator each => exact .conjunction operator each
    | join inner operator children leftIs rightIs predicateIs =>
      exact .join inner operator children leftIs rightIs predicateIs
    | select later operator children => exact .select later operator children
    | physical known later family => exact .physical (allowed known) later family

/-- An expression that was inserted is in a group of its family. -/
theorem Valid.scalar_of_stored (valid : memo.Valid) {number : ExprId} {expr : Expr}
    (stored : memo.exprs[number]? = some expr) (family : expr.operator.isScalar = true) :
    memo.Scalar expr.group := by
  obtain ⟨group, there, _⟩ := valid.placed stored
  exact ⟨group, there, (valid.family stored there).symm.trans family⟩

theorem Valid.relational_of_stored (valid : memo.Valid) {number : ExprId} {expr : Expr}
    (stored : memo.exprs[number]? = some expr) (family : expr.operator.isScalar = false) :
    memo.Relational expr.group := by
  obtain ⟨group, there, _⟩ := valid.placed stored
  exact ⟨group, there, (valid.family stored there).symm.trans family⟩

/-- Equal operators are of one family. -/
theorem isScalar_of_beq {one two : Operator} (equal : (one == two) = true) :
    one.isScalar = two.isScalar := by
  rcases Operator.beq_iff.1 equal with rfl | ⟨_, _, rfl, rfl, _⟩ <;> rfl

section Proposals

variable (rearranged : Rearranged forms first next) (valid : memo.Valid) (grows : memo.Grows next)
  (there : old < first.groups.size)
include rearranged valid grows there

/-- A memo that was rearranged further, with a group that holds something. -/
structure Supplies (forms : Prop) (first memo : Memo) (id : GroupId) (held : Multiset GroupId)
    (next : Memo) : Prop where
  rearranged : Rearranged forms first next
  grows : memo.Grows next
  inside : id < next.groups.size
  contents : next.contents id = held

/-- **A conjunction of atomic predicates** gets a group that holds them. -/
theorem materialize_conjunction {conjuncts : List GroupId}
    (each : ∀ conjunct ∈ conjuncts, memo.Atomic conjunct)
    (part : (conjuncts : Multiset GroupId) ≤ first.contents old)
    (done : next.materialize (.conjunction conjuncts) = .ok (id, last)) :
    Supplies forms first next id (conjuncts : Multiset GroupId) last ∧ last.Scalar id := by
  have each : ∀ conjunct ∈ conjuncts, next.Atomic conjunct := fun conjunct member =>
    (each conjunct member).mono grows valid rearranged.toValid
  have several : ∀ {conjuncts : List GroupId},
      (∀ conjunct ∈ conjuncts, next.Atomic conjunct) →
      (conjuncts : Multiset GroupId) ≤ first.contents old →
      next.materialize (.overGroups (conjoining conjuncts) conjuncts) = .ok (id, last) →
      Supplies forms first next id (conjuncts : Multiset GroupId) last ∧ last.Scalar id := by
    intro conjuncts each part done
    unfold Proposal.overGroups materialize at done
    rw [materializeAll_groups] at done
    obtain ⟨⟨_, _⟩, same, done⟩ := bind_eq_ok_iff.1 done
    cases same
    obtain ⟨⟨number, _⟩, inserted, done⟩ := bind_eq_ok_iff.1 done
    obtain ⟨expr, found, done⟩ := bind_eq_ok_iff.1 done
    cases pure_eq_ok_iff.1 done
    rw [← sum_atomic each] at part ⊢
    obtain ⟨after, more, again, stored, equal, contents⟩ := rearranged.insert gathers_conjoining there
      part (fun operator shape => .conjunction (shape.symm ▸ operator) (shape.symm ▸ each)) inserted
    obtain rfl := Option.some.inj ((expr_ok_iff.1 found).symm.trans stored)
    have scalar := after.toValid.scalar_of_stored stored
      ((isScalar_of_beq equal).trans isScalar_conjoining)
    exact ⟨⟨after, more, scalar.inside, contents⟩, scalar⟩
  match conjuncts, each, part, done with
  | [], each, part, done => exact several each part done
  | [single], each, _, done =>
    cases pure_eq_ok_iff.1 done
    have atomic := each _ List.mem_cons_self
    exact ⟨⟨rearranged, .refl _, atomic.scalar.inside, atomic.alone⟩, atomic.scalar⟩
  | first :: second :: rest, each, part, done => exact several each part done

/-- The inputs of a proposed join get groups. -/
theorem materializeAll_join {left right : Proposal} {one two : Multiset GroupId}
    {conjuncts : List GroupId} {ids : List GroupId}
    (lower : ∀ {next last : Memo} {id : GroupId}, Rearranged forms first next → memo.Grows next →
      one ≤ first.contents old → next.materialize left = .ok (id, last) →
        Supplies forms first next id one last ∧ last.Relational id)
    (upper : ∀ {next last : Memo} {id : GroupId}, Rearranged forms first next → memo.Grows next →
      two ≤ first.contents old → next.materialize right = .ok (id, last) →
        Supplies forms first next id two last ∧ last.Relational id)
    (each : ∀ conjunct ∈ conjuncts, memo.Atomic conjunct)
    (part : one + two + (conjuncts : Multiset GroupId) ≤ first.contents old)
    (done : next.materializeAll [left, right, .conjunction conjuncts] = .ok (ids, last)) :
    ∃ low high predicate, ids = [low, high, predicate] ∧ Rearranged forms first last ∧
      next.Grows last ∧ last.Relational low ∧ last.Relational high ∧ last.Scalar predicate ∧
      (ids.map last.contents).sum = one + two + (conjuncts : Multiset GroupId) := by
  obtain ⟨⟨low, between⟩, below, done⟩ := bind_eq_ok_iff.1 done
  obtain ⟨⟨_, _⟩, done, same⟩ := bind_eq_ok_iff.1 done
  cases pure_eq_ok_iff.1 same
  obtain ⟨⟨high, middle⟩, above, done⟩ := bind_eq_ok_iff.1 done
  obtain ⟨⟨_, _⟩, done, same⟩ := bind_eq_ok_iff.1 done
  cases pure_eq_ok_iff.1 same
  obtain ⟨⟨predicate, final⟩, condition, done⟩ := bind_eq_ok_iff.1 done
  cases pure_eq_ok_iff.1 done
  have both := (le_add_right (one + two) (conjuncts : Multiset GroupId)).trans part
  obtain ⟨early, lowIs⟩ := lower rearranged grows ((le_add_right one two).trans both) below
  have onward := grows.trans early.grows
  obtain ⟨late, highIs⟩ :=
    upper early.rearranged onward ((le_add_left two one).trans both) above
  obtain ⟨finish, predicateIs⟩ := materialize_conjunction late.rearranged valid
    (onward.trans late.grows) there each
    ((le_add_left (conjuncts : Multiset GroupId) (one + two)).trans part) condition
  have later := late.grows.trans finish.grows
  refine ⟨low, high, predicate, rfl, finish.rearranged, early.grows.trans later,
    lowIs.mono later, highIs.mono finish.grows, predicateIs, ?_⟩
  have lowHolds := (later.contents_eq early.rearranged.toValid finish.rearranged.toValid
    early.inside).trans early.contents
  have highHolds := (finish.grows.contents_eq late.rearranged.toValid finish.rearranged.toValid
    late.inside).trans late.contents
  simp only [List.map_cons, List.map_nil, List.sum_cons, List.sum_nil, lowHolds, highHolds,
    finish.contents]
  rw [add_zero, add_assoc]

omit rearranged grows in
/-- **A proposed relation** gets a group that holds what the proposal holds. -/
theorem Rearranges.materialize {proposal : Proposal} {held : Multiset GroupId}
    (rearranges : Rearranges memo proposal held) :
    ∀ {next last : Memo} {id : GroupId}, Rearranged forms first next → memo.Grows next →
      held ≤ first.contents old → next.materialize proposal = .ok (id, last) →
        Supplies forms first next id held last ∧ last.Relational id := by
  induction rearranges with
  | @group id relational =>
    intro next last _ rearranged grows _ done
    cases pure_eq_ok_iff.1 done
    have later := relational.mono grows
    exact ⟨⟨rearranged, .refl _, later.inside,
      grows.contents_eq valid rearranged.toValid relational.inside⟩, later⟩
  | @join left right one two conjuncts low high each ihLow ihHigh =>
    intro next last id rearranged grows part done
    unfold Memo.materialize at done
    obtain ⟨⟨ids, middle⟩, inputs, done⟩ := bind_eq_ok_iff.1 done
    obtain ⟨⟨number, _⟩, inserted, done⟩ := bind_eq_ok_iff.1 done
    obtain ⟨expr, found, done⟩ := bind_eq_ok_iff.1 done
    cases pure_eq_ok_iff.1 done
    obtain ⟨one, two, predicate, rfl, between, more, oneIs, twoIs, predicateIs, sum⟩ :=
      materializeAll_join rearranged valid grows there ihLow ihHigh each part inputs
    rw [← sum] at part ⊢
    obtain ⟨after, further, again, stored, equal, contents⟩ := between.insert rfl there part
      (fun operator shape => .join rfl operator shape oneIs twoIs predicateIs) inserted
    obtain rfl := Option.some.inj ((expr_ok_iff.1 found).symm.trans stored)
    have relational := after.toValid.relational_of_stored stored (isScalar_of_beq equal)
    exact ⟨⟨after, more.trans further, relational.inside, contents⟩, relational⟩

omit there in
/-- **A proposal that redistributes what a group holds** is inserted into the group. -/
theorem Redistributes.insertProposal {proposal : Proposal}
    (redistributes : Redistributes memo forms target proposal) (place : target < memo.groups.size)
    (done : next.insertProposal target proposal = .ok last) :
    Rearranged forms first last ∧ next.Grows last := by
  have kept := grows.contents_eq valid rearranged.toValid place
  cases redistributes with
  | @join left right one two conjuncts low high each whole =>
    obtain ⟨⟨ids, middle⟩, inputs, done⟩ := bind_eq_ok_iff.1 done
    obtain ⟨⟨number, _⟩, inserted, done⟩ := bind_eq_ok_iff.1 done
    cases pure_eq_ok_iff.1 done
    have bound := Nat.lt_of_lt_of_le place grows.size_groups
    obtain ⟨old, there, part⟩ := rearranged.within bound
    rw [kept, ← whole] at part
    obtain ⟨one, two, predicate, rfl, between, more, oneIs, twoIs, predicateIs, sum⟩ :=
      materializeAll_join rearranged valid grows there (low.materialize valid there)
        (high.materialize valid there) each part inputs
    have same : Rule.innerJoin.gather target ([one, two, predicate].map middle.contents) =
        middle.contents target := by
      rw [Operator.gather_of_gathers rfl, sum, whole,
        more.contents_eq rearranged.toValid between.toValid bound, kept]
    obtain ⟨after, further⟩ := between.insertInto same
      (fun operator shape _ => .join rfl operator shape oneIs twoIs predicateIs) inserted
    exact ⟨after, more.trans further⟩
  | @overGroups operator children inside same additional =>
    obtain ⟨⟨ids, middle⟩, inputs, done⟩ := bind_eq_ok_iff.1 done
    rw [materializeAll_groups] at inputs
    cases inputs
    obtain ⟨⟨number, _⟩, inserted, done⟩ := bind_eq_ok_iff.1 done
    cases pure_eq_ok_iff.1 done
    refine rearranged.insertInto ?_ (fun operator shape later => ?_) inserted
    · rw [grows.map_contents_eq valid rearranged.toValid inside, kept]
      exact same
    · exact (additional operator shape later).mono grows valid rearranged.toValid

omit there in
theorem insertOneByOne_rearranged {proposals : List Proposal}
    (redistribute : ∀ proposal ∈ proposals, Redistributes memo forms target proposal)
    (place : target < memo.groups.size)
    (run : proposals.foldlM (fun memo proposal => memo.insertProposal target proposal) next =
      .ok last) : Rearranged forms first last := by
  induction proposals generalizing next with
  | nil =>
    cases pure_eq_ok_iff.1 run
    exact rearranged
  | cons proposal proposals ih =>
    rw [List.foldlM_cons] at run
    obtain ⟨middle, one, run⟩ := bind_eq_ok_iff.1 run
    obtain ⟨between, more⟩ := (redistribute proposal List.mem_cons_self).insertProposal rearranged
      valid grows place one
    exact ih between (grows.trans more)
      (fun other member => redistribute other (List.mem_cons_of_mem _ member)) run

omit there in
/-- **Proposals that redistribute what a group holds** keep a memo rearranged. -/
theorem insertProposals_rearranged {proposals : List Proposal} {count : Nat}
    (redistribute : ∀ proposal ∈ proposals, Redistributes memo forms target proposal)
    (place : target < memo.groups.size)
    (done : next.insertProposals target proposals = .ok (count, last)) :
    Rearranged forms first last := by
  obtain ⟨grown, run, done⟩ := bind_eq_ok_iff.1 done
  cases pure_eq_ok_iff.1 done
  exact insertOneByOne_rearranged rearranged valid grows redistribute place run

end Proposals

end Memo

end Cascades
