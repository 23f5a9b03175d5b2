/-
**Memos without cross products.**

A join needs no cross product if some conjunct of its predicate uses a column of either input, and a join
of many inputs needs none if predicates on two of the inputs connect all of them. A memo in which this is
so of every join stays like that if all that is put into it are joins that some conjunct bridges: what a
group offers has at least the columns that were proposed.

* `Memo.CrossFree`: a join of two inputs; `Memo.Tied`: a join of many inputs;
* `Memo.Uncrossed`, `Memo.Crossless`: an expression and a memo without cross products;
* `Memo.Bridges`: a proposal of joins that conjuncts bridge, with the columns that it makes;
* `Bridges.columns`, `Bridges.uncrossed`: what offers it has these columns, and no cross product;
* `Memo.Clear`, `insertProposals_crossless`: such proposals keep a memo free of cross products.
-/

import Cascades.Proofs.Order.Regrouping

namespace Cascades.Memo

variable {memo next : Memo} {breadth : GroupId → Breadth} {id conjunct left right predicate : GroupId}
  {inputs children : List GroupId} {operator : Operator}

/-! ### Joins without cross products -/

/-- A predicate uses a column of one kind and a column of another. -/
def Meets (memo : Memo) (conjunct : GroupId) (one two : ColumnId → Prop) : Prop :=
  (∃ column ∈ (memo.scope conjunct).free, one column) ∧
    ∃ column ∈ (memo.scope conjunct).free, two column

/-- **A join that is no cross product**: some conjunct of its predicate uses a column that its left input
makes and a column that its right input makes. -/
def CrossFree (memo : Memo) (left right predicate : GroupId) : Prop :=
  ∃ conjunct ∈ memo.conjuncts predicate,
    memo.Meets conjunct (· ∈ (memo.scope left).columns) (· ∈ (memo.scope right).columns)

/-- A conjunct of a predicate is on the inputs at two places. -/
def LinkedAt (memo : Memo) (inputs : List GroupId) (predicate : GroupId) (one two : Nat) : Prop :=
  ∃ first second, inputs[one]? = some first ∧ inputs[two]? = some second ∧
    memo.LinkedBy (· ∈ memo.conjuncts predicate) first second

/-- **A join of many inputs that needs no cross product**: no two inputs have a column in common, and
conjuncts on two inputs connect all of them. -/
structure Tied (memo : Memo) (inputs : List GroupId) (predicate : GroupId) : Prop where
  several : 2 ≤ inputs.length
  apart : inputs.Pairwise fun one other =>
    ∀ column ∈ (memo.scope one).columns, column ∉ (memo.scope other).columns
  connected : Connected (memo.LinkedAt inputs predicate) (Finset.range inputs.length)

/-- What is asked of an operator and its inputs where there are no cross products. -/
structure Uncrossed (memo : Memo) (operator : Operator) (children : List GroupId) : Prop where
  cross : operator ≠ .logical (.join .cross)
  inner : operator = Rule.innerJoin → ∃ left right predicate, children = [left, right, predicate] ∧
    memo.CrossFree left right predicate
  naryJoin : operator = .logical .naryJoin → ∃ inputs predicate, children = inputs ++ [predicate] ∧
    memo.Tied inputs predicate

/-- **A memo without cross products.** -/
def Crossless (memo : Memo) : Prop :=
  ∀ (number : ExprId) (expr : Expr), memo.exprs[number]? = some expr →
    memo.Uncrossed expr.operator expr.children

section Decidable

instance : Decidable (memo.CrossFree left right predicate) :=
  inferInstanceAs (Decidable (∃ conjunct ∈ memo.conjuncts predicate,
    (∃ column ∈ (memo.scope conjunct).free.toList, column ∈ (memo.scope left).columns) ∧
      ∃ column ∈ (memo.scope conjunct).free.toList, column ∈ (memo.scope right).columns))

instance : DecidableRel (memo.LinkedAt inputs predicate) := fun one two =>
  decidable_of_iff (∃ first ∈ inputs, ∃ second ∈ inputs, inputs[one]? = some first ∧
      inputs[two]? = some second ∧ memo.LinkedBy (· ∈ memo.conjuncts predicate) first second)
    ⟨fun ⟨first, _, second, _, linked⟩ => ⟨first, second, linked⟩,
      fun ⟨first, second, here, there, linked⟩ => ⟨first, List.mem_of_getElem? here, second,
        List.mem_of_getElem? there, here, there, linked⟩⟩

instance : Decidable (memo.Tied inputs predicate) :=
  decidable_of_iff (2 ≤ inputs.length ∧ (inputs.Pairwise fun one other =>
      ∀ column ∈ (memo.scope one).columns.toList, column ∉ (memo.scope other).columns) ∧
      Connected (memo.LinkedAt inputs predicate) (Finset.range inputs.length))
    ⟨fun ⟨several, apart, connected⟩ => ⟨several, apart, connected⟩,
      fun tied => ⟨tied.several, tied.apart, tied.connected⟩⟩

instance : Decidable (memo.Uncrossed operator children) :=
  decidable_of_iff (¬ (operator == .logical (.join .cross)) = true ∧
      ((operator == Rule.innerJoin) = true → ∃ left ∈ children, ∃ right ∈ children,
        ∃ predicate ∈ children, children = [left, right, predicate] ∧
          memo.CrossFree left right predicate) ∧
      ((operator == .logical .naryJoin) = true → ∃ predicate ∈ children,
        children = children.dropLast ++ [predicate] ∧ memo.Tied children.dropLast predicate)) <| by
    have known : ∀ {other : Operator}, other.isConstant = false →
        ((operator == other) = true ↔ operator = other) := fun exact =>
      ⟨fun equal => Operator.eq_of_beq equal exact, fun same => same ▸ ReflBEq.rfl⟩
    rw [known rfl, known rfl, known rfl]
    constructor
    · rintro ⟨cross, inner, naryJoin⟩
      refine ⟨cross, fun is => ?_, fun is => ?_⟩
      · obtain ⟨left, _, right, _, predicate, _, found⟩ := inner is
        exact ⟨left, right, predicate, found⟩
      · obtain ⟨predicate, _, found⟩ := naryJoin is
        exact ⟨_, predicate, found⟩
    · rintro ⟨cross, inner, naryJoin⟩
      refine ⟨cross, fun is => ?_, fun is => ?_⟩
      · obtain ⟨left, right, predicate, rfl, free⟩ := inner is
        exact ⟨left, by simp, right, by simp, predicate, by simp, rfl, free⟩
      · obtain ⟨inputs, predicate, rfl, tied⟩ := naryJoin is
        refine ⟨predicate, by simp, ?_⟩
        rw [List.dropLast_concat]
        exact ⟨rfl, tied⟩

instance : Decidable memo.Crossless :=
  decidable_of_iff (∀ expr ∈ memo.exprs.toList, memo.Uncrossed expr.operator expr.children)
    ⟨fun all _ expr stored => all expr (Array.mem_toList_iff.2 (Array.mem_of_getElem? stored)),
      fun crossless expr member =>
        have ⟨number, stored⟩ := Array.mem_iff_getElem?.1 (Array.mem_toList_iff.1 member)
        crossless number expr stored⟩

end Decidable

theorem Meets.symm {one two : ColumnId → Prop} (meets : memo.Meets conjunct one two) :
    memo.Meets conjunct two one := ⟨meets.2, meets.1⟩

theorem Meets.mono {one two more further : ColumnId → Prop} (meets : memo.Meets conjunct one two)
    (low : ∀ column, one column → more column) (high : ∀ column, two column → further column) :
    memo.Meets conjunct more further :=
  ⟨meets.1.imp fun column => And.imp_right (low column),
    meets.2.imp fun column => And.imp_right (high column)⟩

theorem CrossFree.symm (free : memo.CrossFree left right predicate) :
    memo.CrossFree right left predicate :=
  have ⟨conjunct, listed, meets⟩ := free
  ⟨conjunct, listed, meets.symm⟩

/-- Nothing is asked of a scalar operator. -/
theorem uncrossed_of_scalar (scalar : operator.isScalar = true) : memo.Uncrossed operator children := by
  refine ⟨?_, ?_, ?_⟩ <;> rintro rfl <;> cases scalar

/-! ### Memos that grow -/

section Grows

variable (grows : memo.Grows next) (valid : memo.Valid) (later : next.Valid)
include grows valid later

theorem Meets.of_grows {one two : ColumnId → Prop} (meets : memo.Meets conjunct one two)
    (inside : conjunct < memo.groups.size) : next.Meets conjunct one two := by
  unfold Meets
  rw [grows.scope_eq valid later inside]
  exact meets

theorem CrossFree.of_grows (free : memo.CrossFree left right predicate)
    (inLeft : left < memo.groups.size) (inRight : right < memo.groups.size)
    (inPredicate : predicate < memo.groups.size) : next.CrossFree left right predicate := by
  obtain ⟨conjunct, listed, meets⟩ := free
  have inside := valid.conjuncts_inside inPredicate conjunct listed
  unfold CrossFree
  rw [grows.conjuncts_eq valid inPredicate, grows.scope_eq valid later inLeft,
    grows.scope_eq valid later inRight]
  exact ⟨conjunct, listed, meets.of_grows grows valid later inside⟩

theorem Tied.of_grows (tied : memo.Tied inputs predicate)
    (inside : ∀ input ∈ inputs, input < memo.groups.size) (inPredicate : predicate < memo.groups.size) :
    next.Tied inputs predicate where
  several := tied.several
  apart := by
    refine tied.apart.imp_of_mem fun {one other} here there apart => ?_
    rw [grows.scope_eq valid later (inside one here), grows.scope_eq valid later (inside other there)]
    exact apart
  connected := by
    refine tied.connected.imp ?_
    rintro one two ⟨first, second, atOne, atTwo, conjunct, listed, links⟩
    refine ⟨first, second, atOne, atTwo, conjunct, ?_, ?_⟩
    · rwa [grows.conjuncts_eq valid inPredicate]
    · exact links.of_grows grows valid later (valid.conjuncts_inside inPredicate conjunct listed)
        (inside first (List.mem_of_getElem? atOne)) (inside second (List.mem_of_getElem? atTwo))

theorem Uncrossed.of_grows (uncrossed : memo.Uncrossed operator children)
    (inside : ∀ child ∈ children, child < memo.groups.size) : next.Uncrossed operator children where
  cross := uncrossed.cross
  inner is := by
    obtain ⟨left, right, predicate, rfl, free⟩ := uncrossed.inner is
    exact ⟨left, right, predicate, rfl, free.of_grows grows valid later (inside left (by simp))
      (inside right (by simp)) (inside predicate (by simp))⟩
  naryJoin is := by
    obtain ⟨inputs, predicate, rfl, tied⟩ := uncrossed.naryJoin is
    exact ⟨inputs, predicate, rfl, tied.of_grows grows valid later
      (fun input among => inside input (List.mem_append_left _ among)) (inside predicate (by simp))⟩

end Grows

/-! ### Proposals -/

/-- **A proposal of inner joins**, each with a conjunct that uses columns of either side, and the columns
that the proposal makes. -/
inductive Bridges (memo : Memo) : Proposal → (ColumnId → Prop) → Prop
  | group {id : GroupId} (inside : id < memo.groups.size) :
      Bridges memo (.group id) (· ∈ (memo.scope id).columns)
  | join {left right : Proposal} {one two : ColumnId → Prop} {conjuncts : List GroupId}
      (low : Bridges memo left one) (high : Bridges memo right two)
      (each : ∀ conjunct ∈ conjuncts, memo.Atomic conjunct)
      (across : ∃ conjunct ∈ conjuncts, memo.Meets conjunct one two) :
      Bridges memo (.node Rule.innerJoin [left, right, .conjunction conjuncts])
        fun column => one column ∨ two column

/-- **A proposal without cross products.** -/
inductive Clear (memo : Memo) : Proposal → Prop
  | bridges {proposal : Proposal} {columns : ColumnId → Prop} (bridges : memo.Bridges proposal columns) :
      Clear memo proposal
  | overGroups {operator : Operator} {children : List GroupId}
      (inside : ∀ child ∈ children, child < memo.groups.size)
      (uncrossed : memo.Uncrossed operator children) : Clear memo (.overGroups operator children)

section Proposals

variable {proposal : Proposal} {made : ColumnId → Prop} {number : ExprId} {expr : Expr}

/-- The operators in a proposal of joins are scalar or begin such a proposal. -/
theorem Bridges.part (bridges : memo.Bridges proposal made) {parts : List Proposal}
    (part : (Proposal.node operator parts).Part proposal) :
    operator.isScalar = true ∨ ∃ made, memo.Bridges (.node operator parts) made := by
  induction bridges with
  | group => cases part
  | @join left right one two conjuncts low high each across ihLow ihHigh =>
    cases part with
    | self => exact Or.inr ⟨_, .join low high each across⟩
    | child member below =>
      simp only [List.mem_cons, List.not_mem_nil, or_false] at member
      rcases member with rfl | rfl | rfl
      · exact ihLow below
      · exact ihHigh below
      · exact Or.inl below.of_conjunction

theorem uncrossed_of_crossFree (free : memo.CrossFree left right predicate) :
    memo.Uncrossed Rule.innerJoin [left, right, predicate] where
  cross same := by cases same
  inner _ := ⟨left, right, predicate, rfl, free⟩
  naryJoin same := by cases same

section Later

variable (grows : memo.Grows next) (valid : memo.Valid) (formed : next.Formed breadth)
  (holds : next.Holds)
include grows valid formed holds

/-- **A group that offers a proposal** makes the columns that the proposal makes. -/
theorem Bridges.columns (bridges : memo.Bridges proposal made) :
    ∀ {id : GroupId}, next.Offers (· = ·) proposal id → ∀ column, made column →
      column ∈ (next.scope id).columns := by
  induction bridges with
  | group inside =>
    rintro id rfl column here
    rwa [grows.scope_eq valid formed.toValid inside]
  | join _ _ _ _ ihLow ihHigh =>
    intro id offers column here
    obtain ⟨low, high, condition, has, lowOffers, highOffers, _⟩ := offers.hasJoin
    rw [has.columns formed .equal holds column]
    exact here.imp (ihLow lowOffers column) (ihHigh highOffers column)

/-- **An expression for a join that was proposed** is no cross product. -/
theorem Bridges.uncrossed {parts : List Proposal}
    (bridges : memo.Bridges (.node expr.operator parts) made)
    (stored : next.exprs[number]? = some expr)
    (offers : next.OffersAll (· = ·) parts expr.children) :
    next.Uncrossed expr.operator expr.children := by
  have later := formed.toValid
  have laid : next.Laid := formed.laid
  generalize top : expr.operator = operator at bridges
  cases bridges with
  | @join left right one two conjuncts low high each across =>
  obtain ⟨first, _, shape, firstOffers, second, _, rfl, secondOffers, predicate, _, rfl,
    predicateOffers, rfl⟩ := offers
  have has : next.HasJoin (· = ·) expr.group first second predicate :=
    ⟨number, expr, stored, top, shape, rfl⟩
  obtain ⟨_, _, scalar⟩ := has.families later laid
  have contents := predicateOffers.contents_conjunction holds .equal fun conjunct listed =>
    (each conjunct listed).mono grows valid later
  rw [← laid.conjuncts_eq later scalar, Multiset.coe_eq_coe] at contents
  obtain ⟨conjunct, listed, meets⟩ := across
  have inside := (each conjunct listed).scalar.inside
  rw [shape]
  exact uncrossed_of_crossFree ⟨conjunct, contents.mem_iff.2 listed,
    (meets.of_grows grows valid later inside).mono
      (low.columns grows valid formed holds firstOffers)
      (high.columns grows valid formed holds secondOffers)⟩

theorem Clear.uncrossed (clear : memo.Clear proposal) (stored : next.exprs[number]? = some expr)
    (expresses : next.Expresses proposal expr) : next.Uncrossed expr.operator expr.children := by
  obtain ⟨parts, part, offers⟩ := expresses
  cases clear with
  | bridges bridges =>
    rcases bridges.part part with scalar | ⟨_, below⟩
    · exact uncrossed_of_scalar scalar
    · exact below.uncrossed grows valid formed holds stored offers
  | overGroups inside uncrossed =>
    obtain ⟨rfl, rfl⟩ := part.of_overGroups
    have same := offersAll_groups.1 offers
    rw [List.forall₂_eq_eq_eq] at same
    rw [same]
    exact uncrossed.of_grows grows valid formed.toValid inside

end Later

/-- **Proposals without cross products** keep a memo without cross products. -/
theorem insertProposals_crossless {last : Memo} (grows : memo.Grows next) (valid : memo.Valid)
    (before : next.Valid) (crossless : next.Crossless) {proposals : List Proposal}
    (clear : ∀ proposal ∈ proposals, memo.Clear proposal) {target : GroupId} {count : Nat}
    (done : next.insertProposals target proposals = .ok (count, last)) (formed : last.Formed breadth)
    (holds : last.Holds) : last.Crossless := by
  have more := (insertProposals_keeps done before).2
  intro number expr stored
  rcases stored_insertProposals before done stored with old | ⟨proposal, member, expresses⟩
  · exact (crossless number expr old).of_grows more before formed.toValid fun child =>
      before.childExists old
  · exact (clear proposal member).uncrossed (grows.trans more) valid formed holds stored expresses

end Proposals

end Cascades.Memo
