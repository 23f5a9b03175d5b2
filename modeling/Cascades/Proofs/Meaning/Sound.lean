/-
**Memos whose groups have one meaning.**

In a sound memo every expression means what its group means, and is as admissible as in a well-formed
query. Insertion keeps a memo sound if what goes into a group means what the group means.

* `Sound`: the invariant;
* `Means`: a proposal is admissible and means something;
* `insert_sound`, `materialize_sound`, `insertProposals_sound`: insertion keeps the invariant.
-/

import Cascades.Proofs.Meaning.Group
import Cascades.Proofs.Memo.History
import Cascades.Proofs.Memo.Resolution

set_option linter.unusedSectionVars false

namespace Cascades.Memo

variable {V : Type} {I : Interpretation V} {memo next : Memo}

/-! ### The invariant -/

/-- An operator over groups is admissible. -/
def Admits (I : Interpretation V) (memo : Memo) (operator : Operator) (children : List GroupId) :
    Prop :=
  Scope.Admissible operator (children.map fun child => (memo.sense I child).scope)

/-- Every expression is admissible and means what its group means. -/
structure Sound (I : Interpretation V) (memo : Memo) : Prop extends memo.Valid where
  same : ∀ {id : ExprId} {expr : Expr}, memo.exprs[id]? = some expr →
    memo.exprSense I expr = memo.sense I expr.group
  admits : ∀ {id : ExprId} {expr : Expr}, memo.exprs[id]? = some expr →
    memo.Admits I expr.operator expr.children

theorem Grows.admits_iff (grows : memo.Grows next) (valid : memo.Valid) (later : next.Valid)
    {operator : Operator} {children : List GroupId}
    (inside : ∀ child ∈ children, child < memo.groups.size) :
    next.Admits I operator children ↔ memo.Admits I operator children := by
  have scopes : children.map (fun child => (next.sense I child).scope) =
      children.map fun child => (memo.sense I child).scope := by
    refine List.map_congr_left fun child member => ?_
    rw [grows.sense_eq valid later (inside child member)]
  unfold Admits
  rw [scopes]

/-- A memo that grew is sound if what was added is admissible and means what its group means. -/
theorem Sound.of_grows (sound : Sound I memo) (grows : memo.Grows next) (later : next.Valid)
    (added : ∀ {id : ExprId} {expr : Expr}, next.exprs[id]? = some expr →
      memo.exprs[id]? = some expr ∨ (next.exprSense I expr = next.sense I expr.group ∧
        next.Admits I expr.operator expr.children)) :
    Sound I next where
  toValid := later
  same stored := by
    rcases added stored with old | ⟨same, _⟩
    · have inside : ∀ child ∈ Expr.children _, child < memo.groups.size := fun child => sound.childExists old
      obtain ⟨group, there, _⟩ := sound.placed old
      rw [exprSense, grows.map_sense_eq sound.toValid later inside,
        grows.sense_eq sound.toValid later (lt_of_group there)]
      exact sound.same old
    · exact same
  admits stored := by
    rcases added stored with old | ⟨_, admits⟩
    · have inside : ∀ child ∈ Expr.children _, child < memo.groups.size := fun child => sound.childExists old
      exact (grows.admits_iff sound.toValid later inside).2 (sound.admits old)
    · exact admits

theorem empty_sound : Sound I Memo.empty where
  toValid := empty_valid
  same stored := by simp [empty] at stored
  admits stored := by simp [empty] at stored

theorem mark_sound (sound : Sound I memo) {id : ExprId} {mark : Mark} :
    Sound I (memo.mark id mark) := by
  have keeps : memo.Keeps (memo.mark id mark) := mark_keeps
  obtain ⟨later, grows⟩ := keeps sound.toValid
  refine sound.of_grows grows later fun stored => Or.inl ?_
  unfold Memo.mark at stored
  split at stored <;> exact stored

theorem close_sound (sound : Sound I memo) : Sound I memo.close := by
  obtain ⟨later, grows⟩ := close_keeps sound.toValid
  exact sound.of_grows grows later fun stored => Or.inl stored

/-! ### Insertion of expressions -/

section Insertion

variable {operator : Operator} {children : List GroupId} {id : ExprId}

/-- A shape that is stored means what its group means. -/
theorem Sound.of_stored (sound : Sound I memo) {expr : Expr} (stored : memo.exprs[id]? = some expr)
    (equal : (expr.operator == operator) = true) (shape : expr.children = children) :
    memo.sense I expr.group = I.sense operator (children.map (memo.sense I)) := by
  rw [← sound.same stored, exprSense, shape, Interpretation.sense_congr equal]

theorem insert_sound (sound : Sound I memo) (admits : memo.Admits I operator children)
    (done : memo.insert operator children = .ok (id, next)) :
    Sound I next ∧ memo.Grows next ∧ ∃ expr, next.exprs[id]? = some expr ∧
      next.sense I expr.group = I.sense operator (children.map (memo.sense I)) := by
  obtain ⟨later, grows⟩ := insert_keeps done sound.toValid
  obtain ⟨expr, stored, equal, shape⟩ := insert_stored sound.toValid done
  obtain ⟨inside, ⟨_, rfl⟩ | ⟨_, _, rfl, rfl⟩⟩ := insert_cases done
  · exact ⟨sound, grows, expr, stored, sound.of_stored stored equal shape⟩
  · -- The only member of the new group gives it its meaning.
    have last : ∀ {other : ExprId} {new : Expr},
        ((memo.appendGroup operator.isScalar).append memo.groups.size operator
          children).exprs[other]? = some new →
        memo.exprs[other]? = some new ∨ (other = memo.exprs.size ∧ new.position = 0 ∧
          new.operator = operator ∧ new.children = children) := by
      intro other new stored
      rcases stored_append_iff.1 stored with old | ⟨fresh, rfl⟩
      · exact Or.inl old
      · refine Or.inr ⟨fresh, ?_, rfl, rfl⟩
        rw [added_eq (groups_appendGroup.trans (if_pos rfl))]
        rfl
    have next := sound.of_grows grows later fun {other new} stored => by
      rcases last stored with old | ⟨_, first, rfl, rfl⟩
      · exact Or.inl old
      · refine Or.inr ⟨(later.sense_eq (later.firstMember_of_position stored first)).symm, ?_⟩
        exact (grows.admits_iff sound.toValid later inside).2 admits
    refine ⟨next, grows, expr, stored, ?_⟩
    rw [next.of_stored stored equal shape, grows.map_sense_eq sound.toValid later inside]

theorem insertInto_sound {target : GroupId} (sound : Sound I memo)
    (admits : memo.Admits I operator children)
    (means : I.sense operator (children.map (memo.sense I)) = memo.sense I target)
    (done : memo.insertInto target operator children = .ok (id, next)) :
    Sound I next ∧ memo.Grows next := by
  obtain ⟨later, grows⟩ := insertInto_keeps done sound.toValid
  obtain ⟨inside, ⟨_, rfl⟩ | ⟨_, _, rfl, group, there, _⟩⟩ := insertInto_cases done
  · exact ⟨sound, grows⟩
  · refine ⟨sound.of_grows grows later fun {other new} stored => ?_, grows⟩
    rcases stored_append_iff.1 stored with old | ⟨_, rfl⟩
    · exact Or.inl old
    · refine Or.inr ⟨?_, (grows.admits_iff sound.toValid later inside).2 admits⟩
      show I.sense operator (children.map _) = _
      rw [grows.map_sense_eq sound.toValid later inside, means]
      exact (grows.sense_eq sound.toValid later (lt_of_group there)).symm

end Insertion

/-! ### Proposals -/

mutual

/-- A proposal over the groups of a memo is admissible and means something. -/
inductive Means (I : Interpretation V) (memo : Memo) : Proposal → Sense V → Prop
  | group {id : GroupId} (inside : id < memo.groups.size) : Means I memo (.group id) (memo.sense I id)
  | node {operator : Operator} {children : List Proposal} {inputs : List (Sense V)}
      (below : MeanAll I memo children inputs)
      (admissible : Scope.Admissible operator (inputs.map Sense.scope)) :
      Means I memo (.node operator children) (I.sense operator inputs)

/-- Some proposals mean something one by one. -/
inductive MeanAll (I : Interpretation V) (memo : Memo) : List Proposal → List (Sense V) → Prop
  | nil : MeanAll I memo [] []
  | cons {proposal : Proposal} {rest : List Proposal} {input : Sense V} {inputs : List (Sense V)}
      (first : Means I memo proposal input) (others : MeanAll I memo rest inputs) :
      MeanAll I memo (proposal :: rest) (input :: inputs)

end

/-- Some groups mean what they mean. -/
theorem MeanAll.groups {children : List GroupId}
    (inside : ∀ child ∈ children, child < memo.groups.size) :
    MeanAll I memo (children.map .group) (children.map (memo.sense I)) := by
  induction children with
  | nil => exact .nil
  | cons child children ih =>
    exact .cons (.group (inside child List.mem_cons_self))
      (ih fun other member => inside other (List.mem_cons_of_mem _ member))

/-- An operator over groups means what it means over their meanings. -/
theorem Means.overGroups {operator : Operator} {children : List GroupId}
    (inside : ∀ child ∈ children, child < memo.groups.size)
    (admits : memo.Admits I operator children) :
    Means I memo (.overGroups operator children) (I.sense operator (children.map (memo.sense I))) := by
  refine .node (.groups inside) ?_
  rw [List.map_map]
  exact admits

section Mono

variable (grows : memo.Grows next) (valid : memo.Valid) (later : next.Valid)

include grows valid later

mutual

/-- Growth changes the meaning of no proposal. -/
theorem Means.mono : (proposal : Proposal) → {sense : Sense V} → Means I memo proposal sense →
    Means I next proposal sense
  | .group id, _, .group inside => by
    rw [← grows.sense_eq valid later inside]
    exact .group (Nat.lt_of_lt_of_le inside grows.size_groups)
  | .node _ children, _, .node below admissible => .node (MeanAll.mono children below) admissible

theorem MeanAll.mono : (proposals : List Proposal) → {inputs : List (Sense V)} →
    MeanAll I memo proposals inputs → MeanAll I next proposals inputs
  | [], _, .nil => .nil
  | proposal :: rest, _, .cons first others =>
    .cons (Means.mono proposal first) (MeanAll.mono rest others)

end

end Mono

mutual

/-- **The group of a proposal means what the proposal means.** -/
theorem materialize_sound {memo next : Memo} {id : GroupId} {sense : Sense V} (sound : Sound I memo) :
    (proposal : Proposal) → Means I memo proposal sense →
      memo.materialize proposal = .ok (id, next) →
        Sound I next ∧ memo.Grows next ∧ id < next.groups.size ∧ next.sense I id = sense
  | .group _, .group inside, done => by
    cases pure_eq_ok_iff.1 done
    exact ⟨sound, .refl memo, inside, rfl⟩
  | .node operator children, .node below admissible, done => by
    unfold materialize at done
    obtain ⟨⟨groups, middle⟩, inputs, done⟩ := bind_eq_ok_iff.1 done
    obtain ⟨⟨added, last⟩, inserted, done⟩ := bind_eq_ok_iff.1 done
    obtain ⟨expr, found, done⟩ := bind_eq_ok_iff.1 done
    cases pure_eq_ok_iff.1 done
    obtain ⟨between, grows, _, senses⟩ := materializeAll_sound sound children below inputs
    have admits : middle.Admits I operator groups := by
      unfold Admits
      rw [← senses, List.map_map] at admissible
      exact admissible
    obtain ⟨final, more, again, stored, means⟩ := insert_sound between admits inserted
    rw [expr_ok_iff.1 found] at stored
    cases stored
    obtain ⟨owner, there, _⟩ := final.placed (expr_ok_iff.1 found)
    exact ⟨final, grows.trans more, lt_of_group there, senses ▸ means⟩

/-- The groups of some proposals mean what the proposals mean. -/
theorem materializeAll_sound {memo next : Memo} {ids : List GroupId} {inputs : List (Sense V)}
    (sound : Sound I memo) :
    (proposals : List Proposal) → MeanAll I memo proposals inputs →
      memo.materializeAll proposals = .ok (ids, next) →
        Sound I next ∧ memo.Grows next ∧ (∀ id ∈ ids, id < next.groups.size) ∧
          ids.map (next.sense I) = inputs
  | [], .nil, done => by
    cases pure_eq_ok_iff.1 done
    exact ⟨sound, .refl memo, fun _ member => absurd member List.not_mem_nil, rfl⟩
  | proposal :: rest, .cons first others, done => by
    unfold materializeAll at done
    obtain ⟨⟨id, middle⟩, one, done⟩ := bind_eq_ok_iff.1 done
    obtain ⟨⟨ids, last⟩, more, done⟩ := bind_eq_ok_iff.1 done
    cases pure_eq_ok_iff.1 done
    obtain ⟨between, grows, inside, sense⟩ := materialize_sound sound proposal first one
    have later := MeanAll.mono grows sound.toValid between.toValid rest others
    obtain ⟨final, again, insideAll, senses⟩ := materializeAll_sound between rest later more
    refine ⟨final, grows.trans again, ?_, ?_⟩
    · intro other member
      rcases List.mem_cons.1 member with rfl | member
      · exact Nat.lt_of_lt_of_le inside again.size_groups
      · exact insideAll other member
    · rw [List.map_cons, again.sense_eq between.toValid final.toValid inside, sense, senses]

end

theorem insertProposal_sound {target : GroupId} {proposal : Proposal} (sound : Sound I memo)
    (inside : target < memo.groups.size) (means : Means I memo proposal (memo.sense I target))
    (done : memo.insertProposal target proposal = .ok next) : Sound I next ∧ memo.Grows next := by
  generalize equal : memo.sense I target = sense at means
  cases means with
  | group =>
    cases pure_eq_ok_iff.1 done
    exact ⟨sound, .refl memo⟩
  | @node operator children senses below admissible =>
    unfold insertProposal at done
    obtain ⟨⟨groups, middle⟩, inputs, done⟩ := bind_eq_ok_iff.1 done
    obtain ⟨⟨added, last⟩, inserted, done⟩ := bind_eq_ok_iff.1 done
    cases pure_eq_ok_iff.1 done
    obtain ⟨between, grows, _, meant⟩ := materializeAll_sound sound _ below inputs
    have admits : middle.Admits I operator groups := by
      unfold Admits
      rw [← meant, List.map_map] at admissible
      exact admissible
    have same : I.sense operator (groups.map (middle.sense I)) = middle.sense I target := by
      rw [meant, grows.sense_eq sound.toValid between.toValid inside, equal]
    obtain ⟨final, more⟩ := insertInto_sound between admits same inserted
    exact ⟨final, grows.trans more⟩

theorem insertOneByOne_sound {target : GroupId} {proposals : List Proposal} (sound : Sound I memo)
    (inside : target < memo.groups.size)
    (means : ∀ proposal ∈ proposals, Means I memo proposal (memo.sense I target))
    (run : proposals.foldlM (fun memo proposal => memo.insertProposal target proposal) memo =
      .ok next) : Sound I next ∧ memo.Grows next := by
  induction proposals generalizing memo with
  | nil =>
    cases pure_eq_ok_iff.1 run
    exact ⟨sound, .refl _⟩
  | cons proposal proposals ih =>
    rw [List.foldlM_cons] at run
    obtain ⟨middle, one, run⟩ := bind_eq_ok_iff.1 run
    have first := means proposal List.mem_cons_self
    obtain ⟨between, grows⟩ := insertProposal_sound sound inside first one
    have others : ∀ other ∈ proposals, Means I middle other (middle.sense I target) := by
      intro other member
      rw [grows.sense_eq sound.toValid between.toValid inside]
      exact Means.mono grows sound.toValid between.toValid other
        (means other (List.mem_cons_of_mem _ member))
    obtain ⟨final, more⟩ :=
      ih between (Nat.lt_of_lt_of_le inside grows.size_groups) others run
    exact ⟨final, grows.trans more⟩

/-- **Proposals that mean what their group means keep a memo sound.** -/
theorem insertProposals_sound {target : GroupId} {proposals : List Proposal} {count : Nat}
    (sound : Sound I memo) (inside : target < memo.groups.size)
    (means : ∀ proposal ∈ proposals, Means I memo proposal (memo.sense I target))
    (done : memo.insertProposals target proposals = .ok (count, next)) :
    Sound I next ∧ memo.Grows next := by
  obtain ⟨grown, run, done⟩ := bind_eq_ok_iff.1 done
  cases pure_eq_ok_iff.1 done
  exact insertOneByOne_sound sound inside means run

end Cascades.Memo
