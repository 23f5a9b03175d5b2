/-
**Memos whose groups hold one bag.**

In a gathered memo every expression holds what its group holds, and relations are tables, selections
and inner joins only. In a strict one every conjunct of a join lies across the inputs of the join: they
have all its columns together, and none has them alone. Insertion keeps a memo gathered if what goes
into a group holds what the group holds.

* `Across`, `Spans`: conjuncts that lie across the inputs of a join;
* `Accords`, `Gathered`: the invariant, of one expression and of a memo;
* `Gathers`: what a proposal holds;
* `insert_gathered`, `materialize_gathered`, `insertProposals_gathered`: insertion keeps the invariant.
-/

import Cascades.Proofs.Gathering.Contents

set_option linter.unusedSectionVars false

namespace Cascades

/-- A scalar, a table, or an operator that gathers. -/
def Operator.IsPlain (operator : Operator) : Prop :=
  ∀ logical, operator.logical? = some logical →
    logical.isJoining = true ∨ ∃ table columns, logical = .get table columns

theorem Operator.isPlain_of_gathers {operator : Operator} (gathers : operator.gathers = true) :
    operator.IsPlain :=
  fun _ computes => Or.inl ((gathers_of_logical computes).symm.trans gathers)

theorem Operator.isPlain_scalar {operator : ScalarOp} : (Operator.scalar operator).IsPlain := nofun

namespace Memo

variable {V : Type} {I : Interpretation V} {strict : Prop} {memo next : Memo}

/-! ### Conjuncts across inputs -/

/-- Some inputs have all columns that a conjunct uses, and none has them alone. -/
structure Across (I : Interpretation V) (memo : Memo) (sources : List (Multiset GroupId))
    (conjunct : GroupId) : Prop where
  covered : ∀ column, column ∈ (memo.sense I conjunct).scope.free →
    ∃ source ∈ sources, memo.Makes I source column
  spread : ∀ source ∈ sources, ∃ column, column ∈ (memo.sense I conjunct).scope.free ∧
    ¬ memo.Makes I source column

/-- Inputs of a join, and a predicate behind them whose conjuncts lie across them. -/
def Spans (I : Interpretation V) (memo : Memo) (parts : List (Multiset GroupId)) : Prop :=
  ∃ sources predicate, parts = sources ++ [predicate] ∧
    ∀ conjunct ∈ predicate, memo.Across I sources conjunct

section Growth

variable (grows : memo.Grows next) (valid : memo.Valid) (later : next.Valid)
include grows valid later

theorem Grows.makes_iff {held : Multiset GroupId} (inside : ∀ atom ∈ held, atom < memo.groups.size)
    {column : ColumnId} : next.Makes I held column ↔ memo.Makes I held column := by
  unfold Makes
  refine exists_congr fun atom => and_congr_right fun member => ?_
  rw [grows.sense_eq valid later (inside atom member)]

theorem Spans.mono {parts : List (Multiset GroupId)} (spans : memo.Spans I parts)
    (inside : ∀ part ∈ parts, ∀ atom ∈ part, atom < memo.groups.size) : next.Spans I parts := by
  obtain ⟨sources, predicate, rfl, across⟩ := spans
  refine ⟨sources, predicate, rfl, fun conjunct member => ?_⟩
  have makes : ∀ source ∈ sources, ∀ column,
      (next.Makes I source column ↔ memo.Makes I source column) := fun source among _ =>
    grows.makes_iff valid later (inside source (List.mem_append_left _ among))
  have free := grows.sense_eq (I := I) valid later (inside predicate (by simp) conjunct member)
  obtain ⟨covered, spread⟩ := across conjunct member
  refine ⟨fun column used => ?_, fun source among => ?_⟩
  · obtain ⟨source, among, made⟩ := covered column (free ▸ used)
    exact ⟨source, among, (makes source among column).2 made⟩
  · obtain ⟨column, used, unmade⟩ := spread source among
    exact ⟨column, free.symm ▸ used, fun made => unmade ((makes source among column).1 made)⟩

end Growth

/-! ### The invariant -/

/-- An expression over inputs that hold something may be in a group. -/
structure Accords (I : Interpretation V) (strict : Prop) (memo : Memo) (group : GroupId)
    (operator : Operator) (parts : List (Multiset GroupId)) : Prop where
  holds : operator.gather group parts = memo.contents group
  plain : operator.IsPlain
  spans : strict → operator.isScalar = false → operator.gathers = true → memo.Spans I parts

/-- Every expression holds what its group holds. -/
def Gathered (I : Interpretation V) (strict : Prop) (memo : Memo) : Prop :=
  ∀ (id : ExprId) (expr : Expr), memo.exprs[id]? = some expr →
    Accords I strict memo expr.group expr.operator (expr.children.map memo.contents)

theorem Gathered.holds (gathered : memo.Gathered I strict) : memo.Holds := fun id expr stored =>
  (gathered id expr stored).holds

theorem empty_gathered : Memo.empty.Gathered I strict := by
  intro id expr stored
  simp [empty] at stored

/-- What groups of a memo hold is in the memo. -/
theorem Valid.parts_inside (valid : memo.Valid) {children : List GroupId}
    (inside : ∀ child ∈ children, child < memo.groups.size) :
    ∀ part ∈ children.map memo.contents, ∀ atom ∈ part, atom < memo.groups.size := by
  intro part member
  obtain ⟨child, childIn, rfl⟩ := List.mem_map.1 member
  exact valid.contents_inside (inside child childIn)

theorem Accords.mono {group : GroupId} {operator : Operator} {parts : List (Multiset GroupId)}
    (accords : Accords I strict memo group operator parts) (grows : memo.Grows next) (valid : memo.Valid)
    (later : next.Valid) (there : group < memo.groups.size)
    (inside : ∀ part ∈ parts, ∀ atom ∈ part, atom < memo.groups.size) :
    Accords I strict next group operator parts where
  holds := accords.holds.trans (grows.contents_eq valid later there).symm
  plain := accords.plain
  spans asked relational gathers :=
    (accords.spans asked relational gathers).mono grows valid later inside

/-- A memo that grew is gathered if what was added accords. -/
theorem Gathered.of_grows (gathered : memo.Gathered I strict) (grows : memo.Grows next)
    (valid : memo.Valid) (later : next.Valid)
    (added : ∀ (id : ExprId) (expr : Expr), next.exprs[id]? = some expr →
      memo.exprs[id]? = some expr ∨
        Accords I strict next expr.group expr.operator (expr.children.map next.contents)) :
    next.Gathered I strict := by
  intro id expr stored
  rcases added id expr stored with old | accords
  · have inside : ∀ child ∈ expr.children, child < memo.groups.size := fun child =>
      valid.childExists old
    obtain ⟨group, there, _⟩ := valid.placed old
    rw [grows.map_contents_eq valid later inside]
    exact (gathered id expr old).mono grows valid later (lt_of_group there) (valid.parts_inside inside)
  · exact accords

theorem mark_gathered (gathered : memo.Gathered I strict) (valid : memo.Valid) {id : ExprId}
    {mark : Mark} : (memo.mark id mark).Gathered I strict := by
  have keeps : memo.Keeps (memo.mark id mark) := mark_keeps
  obtain ⟨later, grows⟩ := keeps valid
  refine gathered.of_grows grows valid later fun id expr stored => Or.inl ?_
  unfold Memo.mark at stored
  split at stored <;> exact stored

theorem close_gathered (gathered : memo.Gathered I strict) (valid : memo.Valid) :
    memo.close.Gathered I strict := by
  obtain ⟨later, grows⟩ := close_keeps valid
  exact gathered.of_grows grows valid later fun _ _ stored => Or.inl stored

/-! ### Insertion of expressions -/

section Insertion

variable {operator : Operator} {children : List GroupId} {id : ExprId}

/-- **A shape that is inserted** holds what it gathers. -/
theorem insert_gathered (gathered : memo.Gathered I strict) (valid : memo.Valid)
    (plain : operator.IsPlain)
    (spans : strict → operator.isScalar = false → operator.gathers = true →
      memo.Spans I (children.map memo.contents))
    (done : memo.insert operator children = .ok (id, next)) :
    next.Gathered I strict ∧ ∃ expr, next.exprs[id]? = some expr ∧
      next.contents expr.group =
        operator.gather expr.group (children.map memo.contents) := by
  obtain ⟨later, grows⟩ := insert_keeps done valid
  obtain ⟨kept, expr, stored, _, contents⟩ := insert_holds gathered.holds valid done
  refine ⟨gathered.of_grows grows valid later fun other new there => ?_, expr, stored, contents⟩
  rcases stored_insert done there with old | ⟨rfl, rfl, _⟩
  · exact Or.inl old
  · have inside := (insert_cases done).1
    refine Or.inr ⟨kept other new there, plain, fun asked relational gathers => ?_⟩
    rw [grows.map_contents_eq valid later inside]
    exact (spans asked relational gathers).mono grows valid later (valid.parts_inside inside)

theorem insertInto_gathered {target : GroupId} (gathered : memo.Gathered I strict)
    (valid : memo.Valid)
    (accords : Accords I strict memo target operator (children.map memo.contents))
    (done : memo.insertInto target operator children = .ok (id, next)) :
    next.Gathered I strict := by
  obtain ⟨later, grows⟩ := insertInto_keeps done valid
  obtain ⟨inside, ⟨_, rfl⟩ | ⟨_, _, rfl, group, there, _⟩⟩ := insertInto_cases done
  · exact gathered
  · refine gathered.of_grows grows valid later fun other new stored => ?_
    rcases stored_append_iff.1 stored with old | ⟨_, rfl⟩
    · exact Or.inl old
    · right
      show Accords I strict _ target operator (children.map _)
      rw [grows.map_contents_eq valid later inside]
      exact accords.mono grows valid later (lt_of_group there) (valid.parts_inside inside)

end Insertion

/-! ### Proposals -/

mutual

/-- A proposal over the groups of a memo gathers a bag of groups. -/
inductive Gathers (I : Interpretation V) (strict : Prop) (memo : Memo) :
    Proposal → Multiset GroupId → Prop
  | group {id : GroupId} (inside : id < memo.groups.size) :
      Gathers I strict memo (.group id) (memo.contents id)
  | node {operator : Operator} {children : List Proposal} {parts : List (Multiset GroupId)}
      (below : GatherAll I strict memo children parts) (gathers : operator.gathers = true)
      (spans : strict → operator.isScalar = false → memo.Spans I parts) :
      Gathers I strict memo (.node operator children) parts.sum

/-- Some proposals gather one by one. -/
inductive GatherAll (I : Interpretation V) (strict : Prop) (memo : Memo) :
    List Proposal → List (Multiset GroupId) → Prop
  | nil : GatherAll I strict memo [] []
  | cons {proposal : Proposal} {rest : List Proposal} {part : Multiset GroupId}
      {parts : List (Multiset GroupId)} (first : Gathers I strict memo proposal part)
      (others : GatherAll I strict memo rest parts) :
      GatherAll I strict memo (proposal :: rest) (part :: parts)

end

/-- A proposal may be in a group. -/
inductive Belongs (I : Interpretation V) (strict : Prop) (memo : Memo) (target : GroupId) :
    Proposal → Prop
  | group {id : GroupId} : Belongs I strict memo target (.group id)
  | node {operator : Operator} {children : List Proposal} {parts : List (Multiset GroupId)}
      (below : GatherAll I strict memo children parts)
      (accords : Accords I strict memo target operator parts) :
      Belongs I strict memo target (.node operator children)

/-- Some groups gather what they hold. -/
theorem GatherAll.groups {children : List GroupId}
    (inside : ∀ child ∈ children, child < memo.groups.size) :
    GatherAll I strict memo (children.map .group) (children.map memo.contents) := by
  induction children with
  | nil => exact .nil
  | cons child children ih =>
    exact .cons (.group (inside child List.mem_cons_self))
      (ih fun other member => inside other (List.mem_cons_of_mem _ member))

/-- A proposal that gathers what a group holds belongs there. -/
theorem Gathers.belongs {target : GroupId} {proposal : Proposal} {held : Multiset GroupId}
    (gathers : Gathers I strict memo proposal held) (holds : held = memo.contents target) :
    Belongs I strict memo target proposal := by
  cases gathers with
  | group => exact .group
  | node below gathers spans =>
    exact .node below ⟨(Operator.gather_of_gathers gathers).trans holds,
      Operator.isPlain_of_gathers gathers, fun asked relational _ => spans asked relational⟩

/-- **The conjunction of some conjuncts** gathers them. -/
theorem gathers_conjunction {conjuncts : List GroupId}
    (each : ∀ conjunct ∈ conjuncts, memo.IsConjunct I conjunct) :
    Gathers I strict memo (.conjunction conjuncts) (conjuncts : Multiset GroupId) := by
  match conjuncts, each with
  | [], _ => exact .node .nil rfl fun _ scalar => nomatch scalar
  | [single], each =>
    have alone := each single (List.mem_singleton.2 rfl)
    show Gathers I strict memo (.group single) {single}
    rw [← alone.alone]
    exact .group alone.isPredicate.1
  | first :: second :: rest, each =>
    have parts : (first :: second :: rest).map memo.contents =
        (first :: second :: rest).map fun conjunct => ({conjunct} : Multiset GroupId) :=
      List.map_congr_left fun conjunct member => (each conjunct member).alone
    have sum : (((first :: second :: rest).map memo.contents).sum : Multiset GroupId) =
        ((first :: second :: rest : List GroupId) : Multiset GroupId) := by
      rw [parts]
      exact Multiset.sum_map_singleton (M := GroupId) (first :: second :: rest : List GroupId)
    rw [← sum]
    exact .node (.groups fun child member => (each child member).isPredicate.1) rfl
      fun _ scalar => nomatch scalar

section Growth

variable (grows : memo.Grows next) (valid : memo.Valid) (later : next.Valid)

include valid in
mutual

theorem Gathers.inside : (proposal : Proposal) → {held : Multiset GroupId} →
    Gathers I strict memo proposal held → ∀ atom ∈ held, atom < memo.groups.size
  | .group _, _, .group inside => valid.contents_inside inside
  | .node _ children, _, .node below _ _ => fun atom member => by
    obtain ⟨part, among, held⟩ := mem_sum.1 member
    exact GatherAll.inside children below part among atom held

theorem GatherAll.inside : (proposals : List Proposal) → {parts : List (Multiset GroupId)} →
    GatherAll I strict memo proposals parts →
      ∀ part ∈ parts, ∀ atom ∈ part, atom < memo.groups.size
  | [], _, .nil => fun _ member => absurd member List.not_mem_nil
  | proposal :: rest, _, .cons first others =>
    List.forall_mem_cons.2 ⟨Gathers.inside proposal first, GatherAll.inside rest others⟩

end

include grows valid later

mutual

/-- Growth changes nothing about what a proposal gathers. -/
theorem Gathers.mono : (proposal : Proposal) → {held : Multiset GroupId} →
    Gathers I strict memo proposal held → Gathers I strict next proposal held
  | .group id, _, .group inside => by
    rw [← grows.contents_eq valid later inside]
    exact .group (Nat.lt_of_lt_of_le inside grows.size_groups)
  | .node _ children, _, .node below gathers spans =>
    .node (GatherAll.mono children below) gathers fun asked relational =>
      (spans asked relational).mono grows valid later (GatherAll.inside valid children below)

theorem GatherAll.mono : (proposals : List Proposal) → {parts : List (Multiset GroupId)} →
    GatherAll I strict memo proposals parts → GatherAll I strict next proposals parts
  | [], _, .nil => .nil
  | proposal :: rest, _, .cons first others =>
    .cons (Gathers.mono proposal first) (GatherAll.mono rest others)

end

theorem Belongs.mono {target : GroupId} (there : target < memo.groups.size) {proposal : Proposal}
    (belongs : Belongs I strict memo target proposal) : Belongs I strict next target proposal := by
  cases belongs with
  | group => exact .group
  | node below accords =>
    exact .node (GatherAll.mono grows valid later _ below)
      (accords.mono grows valid later there (GatherAll.inside valid _ below))

end Growth

mutual

/-- **The group of a proposal holds what the proposal gathers.** -/
theorem materialize_gathered {memo next : Memo} {id : GroupId} {held : Multiset GroupId}
    (gathered : memo.Gathered I strict) (valid : memo.Valid) :
    (proposal : Proposal) → Gathers I strict memo proposal held →
      memo.materialize proposal = .ok (id, next) →
        next.Gathered I strict ∧ id < next.groups.size ∧ next.contents id = held
  | .group _, .group inside, done => by
    cases pure_eq_ok_iff.1 done
    exact ⟨gathered, inside, rfl⟩
  | .node operator children, .node below gathers spans, done => by
    unfold materialize at done
    obtain ⟨⟨groups, middle⟩, inputs, done⟩ := bind_eq_ok_iff.1 done
    obtain ⟨⟨added, last⟩, inserted, done⟩ := bind_eq_ok_iff.1 done
    obtain ⟨expr, found, done⟩ := bind_eq_ok_iff.1 done
    cases pure_eq_ok_iff.1 done
    obtain ⟨between, grows⟩ := materializeAll_keeps inputs valid
    obtain ⟨early, _, same⟩ := materializeAll_gathered gathered valid children below inputs
    have across : strict → operator.isScalar = false → operator.gathers = true →
        middle.Spans I (groups.map middle.contents) := fun asked relational _ =>
      same ▸ (spans asked relational).mono grows valid between
        (GatherAll.inside valid children below)
    obtain ⟨final, again, stored, holds⟩ :=
      insert_gathered early between (Operator.isPlain_of_gathers gathers) across inserted
    obtain ⟨finish, _⟩ := insert_keeps inserted between
    rw [expr_ok_iff.1 found] at stored
    cases stored
    obtain ⟨owner, there, _⟩ := finish.placed (expr_ok_iff.1 found)
    refine ⟨final, lt_of_group there, ?_⟩
    rw [holds, Operator.gather_of_gathers gathers, same]

/-- The groups of some proposals hold what the proposals gather. -/
theorem materializeAll_gathered {memo next : Memo} {ids : List GroupId}
    {parts : List (Multiset GroupId)} (gathered : memo.Gathered I strict) (valid : memo.Valid) :
    (proposals : List Proposal) → GatherAll I strict memo proposals parts →
      memo.materializeAll proposals = .ok (ids, next) →
        next.Gathered I strict ∧ (∀ id ∈ ids, id < next.groups.size) ∧
          ids.map next.contents = parts
  | [], .nil, done => by
    cases pure_eq_ok_iff.1 done
    exact ⟨gathered, fun _ member => absurd member List.not_mem_nil, rfl⟩
  | proposal :: rest, .cons first others, done => by
    unfold materializeAll at done
    obtain ⟨⟨id, middle⟩, one, done⟩ := bind_eq_ok_iff.1 done
    obtain ⟨⟨ids, last⟩, more, done⟩ := bind_eq_ok_iff.1 done
    cases pure_eq_ok_iff.1 done
    obtain ⟨between, grows⟩ := materialize_keeps one valid
    obtain ⟨finish, again⟩ := materializeAll_keeps more between
    obtain ⟨early, inside, holds⟩ := materialize_gathered gathered valid proposal first one
    have later := GatherAll.mono grows valid between rest others
    obtain ⟨final, insideAll, same⟩ := materializeAll_gathered early between rest later more
    refine ⟨final, List.forall_mem_cons.2
      ⟨Nat.lt_of_lt_of_le inside again.size_groups, insideAll⟩, ?_⟩
    rw [List.map_cons, again.contents_eq between finish inside, holds, same]

end

theorem insertProposal_gathered {target : GroupId} {proposal : Proposal}
    (gathered : memo.Gathered I strict) (valid : memo.Valid) (there : target < memo.groups.size)
    (belongs : Belongs I strict memo target proposal)
    (done : memo.insertProposal target proposal = .ok next) :
    next.Gathered I strict ∧ next.Valid ∧ memo.Grows next := by
  cases belongs with
  | group =>
    cases pure_eq_ok_iff.1 done
    exact ⟨gathered, valid, .refl memo⟩
  | @node operator children parts below accords =>
    unfold insertProposal at done
    obtain ⟨⟨groups, middle⟩, inputs, done⟩ := bind_eq_ok_iff.1 done
    obtain ⟨⟨added, last⟩, inserted, done⟩ := bind_eq_ok_iff.1 done
    cases pure_eq_ok_iff.1 done
    obtain ⟨between, grows⟩ := materializeAll_keeps inputs valid
    obtain ⟨finish, more⟩ := insertInto_keeps inserted between
    obtain ⟨early, _, same⟩ := materializeAll_gathered gathered valid children below inputs
    have accords := accords.mono grows valid between there (GatherAll.inside valid children below)
    exact ⟨insertInto_gathered early between (same ▸ accords) inserted, finish, grows.trans more⟩

theorem insertOneByOne_gathered {target : GroupId} {proposals : List Proposal}
    (gathered : memo.Gathered I strict) (valid : memo.Valid) (there : target < memo.groups.size)
    (belong : ∀ proposal ∈ proposals, Belongs I strict memo target proposal)
    (run : proposals.foldlM (fun memo proposal => memo.insertProposal target proposal) memo =
      .ok next) : next.Gathered I strict := by
  induction proposals generalizing memo with
  | nil =>
    cases pure_eq_ok_iff.1 run
    exact gathered
  | cons proposal proposals ih =>
    rw [List.foldlM_cons] at run
    obtain ⟨middle, one, run⟩ := bind_eq_ok_iff.1 run
    have first := belong proposal List.mem_cons_self
    obtain ⟨early, between, grows⟩ := insertProposal_gathered gathered valid there first one
    refine ih early between (Nat.lt_of_lt_of_le there grows.size_groups)
      (fun other member => ?_) run
    exact (belong other (List.mem_cons_of_mem _ member)).mono grows valid between there

/-- **Proposals that belong into their group keep a memo gathered.** -/
theorem insertProposals_gathered {target : GroupId} {proposals : List Proposal} {count : Nat}
    (gathered : memo.Gathered I strict) (valid : memo.Valid) (there : target < memo.groups.size)
    (belong : ∀ proposal ∈ proposals, Belongs I strict memo target proposal)
    (done : memo.insertProposals target proposals = .ok (count, next)) :
    next.Gathered I strict := by
  obtain ⟨grown, run, done⟩ := bind_eq_ok_iff.1 done
  cases pure_eq_ok_iff.1 done
  exact insertOneByOne_gathered gathered valid there belong run

end Memo

end Cascades
