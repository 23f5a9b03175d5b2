/-
**Conjuncts are taken apart from left to right.**

A predicate can be taken apart by a recursion down the first members of conjunctions, or by a loop that
keeps on a stack what it still has to look at. Both end with the same conjuncts, none of which can be
taken apart any further, and a conjunction that is made of such conjuncts gives them back.

* `flattening`: one level of the recursion; `Linked.conjuncts_terminates`: it ends with the conjuncts;
* `flattenRound`, `flattenStack`: the loop; `Linked.flattenStack_push`: what becomes of one group on the stack;
* `Linked.plain_of_mem_conjuncts`: no conjunct can be taken apart;
* `Linked.holds_iff_conjuncts`: a predicate is TRUE where its conjuncts are;
* `Valid.conjuncts_of_materialize`: the conjuncts of a conjunction that was inserted;
* `conjuncts_exact`: all of it.
-/

import Cascades.Proofs.Descent
import Cascades.Proofs.Meaning.Group
import Cascades.Proofs.Memo.Formed
import Cascades.Proofs.Memo.Growth

namespace Cascades.Memo

open Interpretation

variable {memo next : Memo} {id : GroupId}

/-! ### The recursion -/

/-- What a group adds to the conjuncts, given what the operands of a conjunction add. -/
def flattening (memo : Memo) (parts : GroupId → List GroupId) (id : GroupId) : List GroupId :=
  match memo.scalarFirst? id with
  | some (.and, children) => children.flatMap parts
  | some (.constant (.bool true), _) => []
  | _ => [id]

theorem flattening_congr {parts others : GroupId → List GroupId}
    (same : ∀ {operator children}, memo.scalarFirst? id = some (operator, children) →
      ∀ child ∈ children, parts child = others child) :
    memo.flattening parts id = memo.flattening others id := by
  unfold flattening
  split
  · rename_i children first
    exact List.flatMap_congr (same first)
  · rfl
  · rfl

section Linked

variable (linked : memo.Linked)
include linked

/-- A scalar group needs the operands of its first member, which are older. -/
theorem Linked.flattening_descends : Descends memo.Needs memo.flattening where
  smaller needed := needed.lt linked
  congr same := flattening_congr fun first child member => by
    obtain ⟨expr, found, _, rfl⟩ := scalarFirst?_cases first
    exact same child ⟨expr, found, member⟩

omit linked in
theorem levels_flattening (count : Nat) :
    levels memo.flattening (fun id => [id]) count = memo.conjunctsWithin count := by
  induction count with
  | zero => rfl
  | succ count ih => exact congrArg memo.flattening ih

/-- **The conjuncts** of a conjunction are those of its operands one after another, and the recursion down to
them ends. -/
theorem Linked.conjuncts_terminates : Terminates memo.Needs memo.flattening memo.conjuncts := by
  have ends : Terminates memo.Needs memo.flattening fun id =>
      levels memo.flattening (fun id => [id]) (id + 1) id := linked.flattening_descends.terminates
  simp only [levels_flattening] at ends
  exact ends

theorem Linked.conjuncts_eq (id : GroupId) : memo.conjuncts id = memo.flattening memo.conjuncts id :=
  linked.conjuncts_terminates.solves id

/-- Nothing else satisfies the recursion. -/
theorem Linked.eq_conjuncts_iff {parts : GroupId → List GroupId} :
    (∀ id, parts id = memo.flattening parts id) ↔ parts = memo.conjuncts := by
  refine ⟨linked.conjuncts_terminates.eq_of_solves, ?_⟩
  rintro rfl
  exact linked.conjuncts_eq

/-- The operands of a scalar group are older than the group. -/
theorem Linked.operands_older {operator : ScalarOp} {children : List GroupId}
    (first : memo.scalarFirst? id = some (operator, children)) : ∀ child ∈ children, child < id := by
  obtain ⟨expr, found, _, rfl⟩ := scalarFirst?_cases first
  exact (linked.of_firstMember found).2

end Linked

/-! ### The loop -/

/-- A round of a loop with a stack of the groups that it still has to look at, and with the conjuncts that it
has found. A conjunction leaves its operands on the stack, the last one first. -/
def flattenRound (memo : Memo) (state : Array GroupId × Array GroupId) :
    Array GroupId ⊕ Array GroupId × Array GroupId :=
  match state.1.back? with
  | none => .inl state.2
  | some id =>
    match memo.scalarFirst? id with
    | some (.and, children) => .inr (state.1.pop ++ children.reverse, state.2)
    | some (.constant (.bool true), _) => .inr (state.1.pop, state.2)
    | _ => .inr (state.1.pop, state.2.push id)

/-- The conjuncts that the loop ends with. -/
def flattenStack (memo : Memo) (stack found : Array GroupId) : Part (Array GroupId) :=
  loop memo.flattenRound (stack, found)

theorem flattenStack_empty {found : Array GroupId} :
    memo.flattenStack #[] found = Part.some found := loop_last rfl

/-- **What becomes of the group on top of the stack**: its conjuncts are found. The induction is on the
number of the group, below which its operands are. -/
theorem Linked.flattenStack_push (linked : memo.Linked) (id : GroupId) :
    ∀ stack found : Array GroupId,
      memo.flattenStack (stack.push id) found = memo.flattenStack stack (found ++ memo.conjuncts id) := by
  induction id using Nat.strongRecOn with
  | ind id ih =>
    intro stack found
    have taken : ∀ {next : Array GroupId × Array GroupId},
        memo.flattenRound (stack.push id, found) = .inr next →
          memo.flattenStack (stack.push id) found = memo.flattenStack next.1 next.2 := loop_next
    unfold flattenRound at taken
    simp only [Array.back?_push, Array.pop_push] at taken
    rw [linked.conjuncts_eq id, flattening]
    split
    · rename_i children first
      have older := linked.operands_older first
      rw [taken (by rw [first])]
      clear first taken
      induction children generalizing found with
      | nil => simp
      | cons child children rest =>
        have pushed : stack ++ (child :: children).reverse =
            (stack ++ children.reverse).push child := Array.ext' (by simp)
        have joined : found ++ memo.conjuncts child ++ children.flatMap memo.conjuncts =
            found ++ (child :: children).flatMap memo.conjuncts := Array.ext' (by simp)
        have one := ih child (older child List.mem_cons_self) (stack ++ children.reverse) found
        have others := rest (found ++ memo.conjuncts child)
          fun other member => older other (List.mem_cons_of_mem _ member)
        rw [pushed, one, others, joined]
    · rename_i first
      rw [taken (by rw [first])]
      simp
    · rename_i unjoined untrue
      refine (@taken (stack, found.push id) ?_).trans (by simp)
      split
      · rename_i first
        exact (unjoined _ first).elim
      · rename_i first
        exact (untrue _ first).elim
      · rfl

/-- **The loop ends** with the conjuncts of the group that it starts from. -/
theorem Linked.flattenStack_eq (linked : memo.Linked) (id : GroupId) :
    memo.flattenStack #[id] #[] = Part.some (memo.conjuncts id).toArray := by
  have run := linked.flattenStack_push id #[] #[]
  rw [flattenStack_empty] at run
  simpa using run

/-! ### What the conjuncts say -/

/-- A group that cannot be taken apart: it is neither a conjunction nor the constant truth. -/
def Plain (memo : Memo) (id : GroupId) : Prop :=
  memo.scalarOp? id ≠ some .and ∧ memo.scalarOp? id ≠ some (.constant (.bool true))

/-- Whether a group cannot be taken apart. -/
def isPlain (memo : Memo) (id : GroupId) : Bool :=
  match memo.scalarOp? id with
  | some .and => false
  | some (.constant (.bool true)) => false
  | _ => true

theorem plain_of_isPlain (checked : memo.isPlain id = true) : memo.Plain id := by
  unfold isPlain at checked
  constructor <;> intro shown <;> rw [shown] at checked <;> cases checked

/-- A plain group is its only conjunct. -/
theorem Plain.flattening_eq (plain : memo.Plain id) {parts : GroupId → List GroupId} :
    memo.flattening parts id = [id] := by
  obtain ⟨unjoined, untrue⟩ := plain
  unfold scalarOp? at unjoined untrue
  unfold flattening
  split
  · rename_i first
    simp [first] at unjoined
  · rename_i first
    simp [first] at untrue
  · rfl

section Linked

variable (linked : memo.Linked)
include linked

/-- **No conjunct can be taken apart.** -/
theorem Linked.plain_of_mem_conjuncts (id : GroupId) :
    ∀ conjunct ∈ memo.conjuncts id, memo.Plain conjunct := by
  induction id using Nat.strongRecOn with
  | ind id ih =>
    intro conjunct member
    rw [linked.conjuncts_eq, flattening] at member
    split at member
    · rename_i children first
      obtain ⟨child, below, there⟩ := List.mem_flatMap.1 member
      exact ih child (linked.operands_older first child below) conjunct there
    · cases member
    · rename_i unjoined untrue
      obtain rfl := List.mem_singleton.1 member
      refine ⟨fun conjunction => ?_, fun truth => ?_⟩
      · obtain ⟨⟨_, children⟩, first, rfl⟩ := Option.map_eq_some_iff.1 conjunction
        exact unjoined children first
      · obtain ⟨⟨_, children⟩, first, rfl⟩ := Option.map_eq_some_iff.1 truth
        exact untrue children first

/-- **A predicate is TRUE** where all its conjuncts are. -/
theorem Linked.holds_iff_conjuncts {V : Type} {I : Interpretation V} {environment : Row V}
    (id : GroupId) : I.Holds (memo.sense I id) environment ↔
      ∀ conjunct ∈ memo.conjuncts id, I.Holds (memo.sense I conjunct) environment := by
  induction id using Nat.strongRecOn with
  | ind id ih =>
    rw [linked.conjuncts_eq, flattening]
    split
    · rename_i children first
      rw [linked.sense_of_scalarFirst? first, holds_and, List.forall_mem_map, List.forall_mem_flatMap]
      exact forall₂_congr fun child member => ih child (linked.operands_older first child member)
    · rename_i children first
      rw [linked.sense_of_scalarFirst? first]
      exact iff_of_true holds_truth nofun
    · rw [List.forall_mem_singleton]

end Linked

/-! ### Conjunctions that are inserted -/

/-- Every scalar group has one member. -/
def Singular (memo : Memo) : Prop :=
  ∀ {id : GroupId} {group : Group}, memo.groups[id]? = some group → group.isScalar = true →
    group.members.size = 1

/-- Whether every scalar group has one member. -/
def isSingular (memo : Memo) : Bool :=
  memo.groups.toList.all fun group => !group.isScalar || group.members.size == 1

theorem singular_of_isSingular (checked : memo.isSingular = true) : memo.Singular := by
  intro id group there family
  have all := List.all_eq_true.1 checked group
    (Array.mem_toList_iff.2 (Array.mem_of_getElem? there))
  rw [family, Bool.not_true, Bool.false_or] at all
  exact eq_of_beq all

/-- An operator that is equal to the constant truth is the constant truth. -/
theorem eq_truth_of_beq {operator : Operator} (equal : (operator == .truth) = true) :
    operator = .truth := by
  rcases Operator.beq_iff.1 equal with same | ⟨value, other, rfl, truth, same⟩
  · exact same
  · cases truth
    cases value with
    | bool value =>
      cases value with
      | true => rfl
      | false => cases same
    | _ => cases same

/-- An open memo takes every operator over groups that are there. -/
theorem exists_insert (isOpen : memo.isOpen = true) {operator : Operator} {children : List GroupId}
    (inside : ∀ child ∈ children, child < memo.groups.size) :
    ∃ id next, memo.insert operator children = .ok (id, next) := by
  have exist : memo.requireChildren operator children = .ok () := requireChildren_ok_iff.2 inside
  unfold Memo.insert
  rw [exist]
  cases memo.lookup operator children with
  | some existing => exact ⟨_, _, rfl⟩
  | none =>
    rw [isOpen]
    exact ⟨_, _, rfl⟩

section Valid

variable (valid : memo.Valid)
include valid

/-- A scalar expression that is inserted is the first member of its group, if scalar groups have one
member. -/
theorem Valid.scalarFirst?_of_insert (singular : memo.Singular) {scalar : ScalarOp}
    (known : ∀ {operator : Operator}, (operator == .scalar scalar) = true → operator = .scalar scalar)
    {children : List GroupId} {number : ExprId} {expr : Expr}
    (done : memo.insert (.scalar scalar) children = .ok (number, next))
    (stored : next.exprs[number]? = some expr) :
    next.scalarFirst? expr.group = some (scalar, children) := by
  obtain ⟨same, again, equal, rfl⟩ := insert_stored valid done
  obtain rfl := Option.some.inj (stored.symm.trans again)
  have first : expr.position = 0 := by
    obtain ⟨_, ⟨_, rfl⟩ | ⟨_, _, rfl, _⟩⟩ := insert_cases done
    · obtain ⟨group, there, place⟩ := valid.placed stored
      have family := valid.family stored there
      rw [known equal] at family
      have within := (Array.getElem?_eq_some_iff.1 place).1
      rw [singular there family.symm] at within
      exact Nat.lt_one_iff.1 within
    · rcases stored_insert done stored with before | ⟨_, _, first, _⟩
      · exact absurd (lt_of_expr before) (Nat.lt_irrefl _)
      · exact first
  have later := (insert_keeps done valid).1.toLinked
  exact later.scalarFirst?_eq (later.firstMember_of_position stored first) (known equal)

/-- **The conjuncts of a conjunction** that was made of plain groups are those groups. -/
theorem Valid.conjuncts_of_materialize (singular : memo.Singular) {conjuncts : List GroupId}
    (each : ∀ conjunct ∈ conjuncts, memo.Scalar conjunct ∧ memo.Plain conjunct) {predicate : GroupId}
    (done : memo.materialize (.conjunction conjuncts) = .ok (predicate, next)) :
    next.conjuncts predicate = conjuncts := by
  obtain ⟨later, grows⟩ := materialize_keeps done valid
  -- What was plain before is plain afterwards.
  have alone : ∀ conjunct ∈ conjuncts, next.conjuncts conjunct = [conjunct] := by
    intro conjunct member
    obtain ⟨scalar, plain⟩ := each conjunct member
    rw [grows.conjuncts_eq valid scalar.inside, valid.conjuncts_eq, plain.flattening_eq]
  have inserted : ∀ {scalar : ScalarOp} {children : List GroupId},
      (∀ {operator : Operator}, (operator == .scalar scalar) = true → operator = .scalar scalar) →
      memo.materialize (.overGroups (.scalar scalar) children) = .ok (predicate, next) →
        next.scalarFirst? predicate = some (scalar, children) := by
    intro scalar children known done
    obtain ⟨⟨ids, middle⟩, below, done⟩ := bind_eq_ok_iff.1 done
    obtain ⟨⟨number, last⟩, one, done⟩ := bind_eq_ok_iff.1 done
    obtain ⟨expr, stored, done⟩ := bind_eq_ok_iff.1 done
    cases pure_eq_ok_iff.1 done
    rw [materializeAll_groups] at below
    cases below
    exact valid.scalarFirst?_of_insert singular known one (expr_ok_iff.1 stored)
  rcases conjuncts with _ | ⟨single, _ | ⟨second, rest⟩⟩
  · have truth := @inserted _ [] eq_truth_of_beq done
    rw [later.conjuncts_eq, flattening, truth]
  · cases pure_eq_ok_iff.1 done
    exact alone _ List.mem_cons_self
  · have conjunction := inserted (fun equal => Operator.eq_of_beq equal rfl) done
    rw [later.conjuncts_eq, flattening, conjunction]
    exact (List.flatMap_congr alone).trans (List.flatMap_singleton' _)

/-- An open memo takes every conjunction. -/
theorem Valid.exists_materialize (isOpen : memo.isOpen = true) {conjuncts : List GroupId}
    (each : ∀ conjunct ∈ conjuncts, memo.Scalar conjunct) :
    ∃ predicate next, memo.materialize (.conjunction conjuncts) = .ok (predicate, next) := by
  have taken : ∀ {operator : Operator} {children : List GroupId},
      (∀ child ∈ children, child < memo.groups.size) →
        ∃ predicate next, memo.materialize (.overGroups operator children) = .ok (predicate, next) := by
    intro operator children inside
    obtain ⟨number, next, done⟩ := @exists_insert _ isOpen operator _ inside
    obtain ⟨expr, stored, _⟩ := insert_stored valid done
    refine ⟨expr.group, next, bind_eq_ok_iff.2 ⟨_, materializeAll_groups, ?_⟩⟩
    exact bind_eq_ok_iff.2 ⟨_, done, bind_eq_ok_iff.2 ⟨expr, expr_ok_iff.2 stored, rfl⟩⟩
  rcases conjuncts with _ | ⟨single, _ | ⟨second, rest⟩⟩
  · exact @taken .truth [] nofun
  · exact ⟨single, memo, rfl⟩
  · exact taken fun child member => (each child member).inside

end Valid

/-! ### The conjuncts of a predicate -/

/-- **Taking predicates apart is exact**, and it undoes putting conjuncts together. -/
theorem conjuncts_exact (valid : memo.Valid) :
    -- The loop ends with the conjuncts, which are what the recursion gives and nothing else.
    ((∀ id : GroupId, memo.flattenStack #[id] #[] = Part.some (memo.conjuncts id).toArray) ∧
      ∀ parts : GroupId → List GroupId,
        (∀ id, parts id = memo.flattening parts id) ↔ parts = memo.conjuncts) ∧
    -- No conjunct can be taken apart, and together they say what the predicate says.
    (∀ id : GroupId, (∀ conjunct ∈ memo.conjuncts id, memo.Plain conjunct) ∧
      ∀ {V : Type} (I : Interpretation V) (environment : Row V),
        I.Holds (memo.sense I id) environment ↔
          ∀ conjunct ∈ memo.conjuncts id, I.Holds (memo.sense I conjunct) environment) ∧
    -- Conjuncts that are put together come back in their order.
    (memo.Singular → ∀ conjuncts : List GroupId,
      (∀ conjunct ∈ conjuncts, memo.Scalar conjunct ∧ memo.Plain conjunct) →
        (∀ predicate next, memo.materialize (.conjunction conjuncts) = .ok (predicate, next) →
          next.conjuncts predicate = conjuncts) ∧
        (memo.isOpen = true →
          ∃ predicate next, memo.materialize (.conjunction conjuncts) = .ok (predicate, next))) := by
  have linked := valid.toLinked
  refine ⟨⟨linked.flattenStack_eq, fun _ => linked.eq_conjuncts_iff⟩, fun id => ?_, ?_⟩
  · exact ⟨linked.plain_of_mem_conjuncts id, fun _ _ => linked.holds_iff_conjuncts id⟩
  · intro singular conjuncts each
    exact ⟨fun _ _ => valid.conjuncts_of_materialize singular each,
      fun isOpen => valid.exists_materialize isOpen fun conjunct member => (each conjunct member).1⟩

/-- Two columns of truth values and a conjunction that is joined with itself around the truth. -/
def nestedConjunctions : List Request :=
  [.insert (.scalar (.column ⟨0, none, "paid"⟩)) [],
    .insert (.scalar (.column ⟨1, none, "sent"⟩)) [],
    .insert .truth [],
    .insert (.scalar .and) [0, 1],
    .insert (.scalar .and) [3, 2, 3]]

/-- The conjuncts of the nested conjunction, and a conjunction that names a column twice. -/
theorem conjuncts_exact_nestedConjunctions :
    ∃ memo, empty.performAll nestedConjunctions = .ok memo ∧
      memo.flattenStack #[4] #[] = Part.some #[0, 1, 0, 1] ∧
      ∃ predicate next, memo.materialize (.conjunction [1, 0, 1]) = .ok (predicate, next) ∧
        next.conjuncts predicate = [1, 0, 1] := by
  have shown : (empty.performAll nestedConjunctions).toOption.map (fun memo =>
      (memo.isSingular, memo.isOpen, memo.conjuncts 4, [1, 0, 1].all memo.isScalarGroup,
        [1, 0, 1].all memo.isPlain)) = some (true, true, [0, 1, 0, 1], true, true) := by
    decide +kernel
  obtain ⟨memo, history, shown⟩ := Option.map_eq_some_iff.1 shown
  have history := toOption_eq_some_iff.1 history
  simp only [Prod.mk.injEq] at shown
  obtain ⟨singular, isOpen, conjuncts, scalar, plain⟩ := shown
  have each : ∀ conjunct ∈ [1, 0, 1], memo.Scalar conjunct ∧ memo.Plain conjunct :=
    fun conjunct member => ⟨scalar_iff.2 (List.all_eq_true.1 scalar conjunct member),
      plain_of_isPlain (List.all_eq_true.1 plain conjunct member)⟩
  have exact := conjuncts_exact (performAll_keeps history empty_valid).1
  obtain ⟨back, taken⟩ := exact.2.2 (singular_of_isSingular singular) [1, 0, 1] each
  obtain ⟨predicate, next, done⟩ := taken isOpen
  refine ⟨memo, history, ?_, predicate, next, done, back predicate next done⟩
  rw [exact.1.1 4, conjuncts]

end Cascades.Memo
