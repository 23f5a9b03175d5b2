/-
**The contents of groups.**

Selections, inner joins and conjunctions gather what is below them: the relations that are joined and
the conjuncts that they are joined under, each as often as it occurs. Any other expression stands for
itself. So a group holds a bag of other groups, which is read off its first member.

* `Memo.contents`: what a group holds; `contents_eq`: from its first member;
* `Grows.contents_eq`: growth changes no contents;
* `Holds`: every expression holds what its group holds; `insert_holds`, `insertInto_holds`;
* `Sound.conjuncts_eq`: a predicate holds its conjuncts;
* `Memo.Makes`, `Sound.makes_contents_iff`: a relation has the columns of the relations that it holds.
-/

import Cascades.Proofs.Meaning.Join
import Mathlib.Algebra.BigOperators.Group.Multiset.Basic
import Mathlib.Data.Multiset.Bind

namespace Cascades

/-! ### Gathering -/

/-- Whether a scalar operator gathers conjuncts; the constant truth has none. -/
def ScalarOp.gathers : ScalarOp → Bool
  | and | constant (.bool true) => true
  | _ => false

theorem ScalarOp.gathers_iff {operator : ScalarOp} :
    operator.gathers = true ↔ operator = .and ∨ operator = .constant (.bool true) := by
  unfold gathers
  split <;> simp_all

namespace Operator

/-- Whether an operator gathers what is below it. -/
def gathers : Operator → Bool
  | logical operator => operator.isJoining
  | physical operator => operator.logical.isJoining
  | scalar operator => operator.gathers

/-- What an expression of a group holds over inputs that hold something. -/
def gather (operator : Operator) (own : GroupId) (below : List (Multiset GroupId)) :
    Multiset GroupId :=
  if operator.gathers then below.sum else {own}

theorem gather_of_gathers {operator : Operator} {own : GroupId} {below : List (Multiset GroupId)}
    (gathers : operator.gathers = true) : operator.gather own below = below.sum :=
  if_pos gathers

theorem gather_of_not_gathers {operator : Operator} {own : GroupId}
    {below : List (Multiset GroupId)} (alone : operator.gathers = false) :
    operator.gather own below = {own} :=
  if_neg (by simp [alone])

/-- Equal operators gather alike. -/
theorem gathers_congr {first second : Operator} (equal : (first == second) = true) :
    first.gathers = second.gathers := by
  rcases beq_iff.1 equal with rfl | ⟨value, other, rfl, rfl, same⟩
  · rfl
  · cases value <;> cases other <;> first | rfl | simp_all [Value.same]

theorem gathers_of_logical {operator : Operator} {logical : LogicalOp}
    (computes : operator.logical? = some logical) : operator.gathers = logical.isJoining := by
  cases operator with
  | logical operator =>
    cases computes
    rfl
  | physical operator =>
    cases computes
    rfl
  | scalar operator => cases computes

end Operator

namespace Memo

variable {V : Type} {I : Interpretation V} {memo next : Memo} {id : GroupId} {expr : Expr}

/-! ### Contents -/

/-- What a group holds down to a number of levels. -/
def contentsWithin (memo : Memo) : (levels : Nat) → GroupId → Multiset GroupId
  | 0, id => {id}
  | levels + 1, id =>
    match memo.firstMember id with
    | .ok expr => expr.operator.gather id (expr.children.map (memo.contentsWithin levels))
    | .error _ => {id}

/-- What a group holds. A first member has only older groups below it, so there are no more levels
than the number of the group. -/
def contents (memo : Memo) (id : GroupId) : Multiset GroupId := memo.contentsWithin (id + 1) id

/-- Levels below the number of the group add nothing. -/
theorem Linked.contentsWithin_eq (linked : memo.Linked) (levels : Nat) :
    ∀ {more : Nat} {id : GroupId}, id < levels → id < more →
      memo.contentsWithin levels id = memo.contentsWithin more id := by
  induction levels with
  | zero => exact fun below => absurd below (Nat.not_lt_zero _)
  | succ levels ih =>
    intro more id below belowToo
    cases more with
    | zero => exact absurd belowToo (Nat.not_lt_zero _)
    | succ more =>
      unfold contentsWithin
      cases found : memo.firstMember id with
      | error cause => rfl
      | ok expr =>
        have older := (linked.of_firstMember found).2
        have children : expr.children.map (memo.contentsWithin levels) =
            expr.children.map (memo.contentsWithin more) := by
          refine List.map_congr_left fun child member => ?_
          have above := older child member
          exact ih (Nat.lt_of_lt_of_le above (Nat.le_of_lt_succ below))
            (Nat.lt_of_lt_of_le above (Nat.le_of_lt_succ belowToo))
        simp only [children]

/-- **A group holds what its first member holds.** -/
theorem Linked.contents_eq (linked : memo.Linked) (found : memo.firstMember id = .ok expr) :
    memo.contents id = expr.operator.gather id (expr.children.map memo.contents) := by
  have children : expr.children.map (memo.contentsWithin id) = expr.children.map memo.contents := by
    refine List.map_congr_left fun child member => ?_
    have older := (linked.of_firstMember found).2 child member
    exact linked.contentsWithin_eq id older (Nat.lt_succ_self child)
  rw [← children]
  show memo.contentsWithin (id + 1) id = _
  rw [contentsWithin, found]

/-- The groups of a memo hold the same in the memo that grew out of it. -/
theorem Grows.contents_eq (grows : memo.Grows next) (valid : memo.Valid) (later : next.Valid) :
    ∀ {id : GroupId}, id < memo.groups.size → next.contents id = memo.contents id := by
  intro id
  induction id using Nat.strongRecOn with
  | ind id ih =>
    intro inside
    obtain ⟨expr, found⟩ := valid.exists_firstMember inside
    rw [valid.contents_eq found, later.contents_eq (grows.firstMember found)]
    congr 1
    refine List.map_congr_left fun child member => ?_
    have older := (valid.of_firstMember found).2 child member
    exact ih child older (Nat.lt_trans older inside)

theorem Grows.map_contents_eq (grows : memo.Grows next) (valid : memo.Valid) (later : next.Valid)
    {children : List GroupId} (inside : ∀ child ∈ children, child < memo.groups.size) :
    children.map next.contents = children.map memo.contents :=
  List.map_congr_left fun child member => grows.contents_eq valid later (inside child member)

theorem mem_sum {parts : List (Multiset GroupId)} {atom : GroupId} :
    atom ∈ parts.sum ↔ ∃ part ∈ parts, atom ∈ part := by
  induction parts with
  | nil => simp
  | cons part parts ih => rw [List.sum_cons, Multiset.mem_add, ih, List.exists_mem_cons_iff]

/-- **What a group holds stands for itself**, and is not younger than the group. -/
theorem Valid.of_mem_contents (valid : memo.Valid) :
    ∀ {id : GroupId}, id < memo.groups.size → ∀ {atom : GroupId}, atom ∈ memo.contents id →
      atom ≤ id ∧ memo.contents atom = {atom} := by
  intro id
  induction id using Nat.strongRecOn with
  | ind id ih =>
    intro inside atom held
    obtain ⟨expr, found⟩ := valid.exists_firstMember inside
    have contents := valid.contents_eq found
    cases gathers : expr.operator.gathers with
    | false =>
      rw [Operator.gather_of_not_gathers gathers] at contents
      rw [contents, Multiset.mem_singleton] at held
      subst held
      exact ⟨le_rfl, contents⟩
    | true =>
      rw [contents, Operator.gather_of_gathers gathers, mem_sum] at held
      obtain ⟨_, listed, held⟩ := held
      obtain ⟨child, member, rfl⟩ := List.mem_map.1 listed
      have older := (valid.of_firstMember found).2 child member
      obtain ⟨least, itself⟩ := ih child older (Nat.lt_trans older inside) held
      exact ⟨least.trans older.le, itself⟩

theorem Valid.contents_inside (valid : memo.Valid) (inside : id < memo.groups.size) :
    ∀ atom ∈ memo.contents id, atom < memo.groups.size := fun _ held =>
  Nat.lt_of_le_of_lt (valid.of_mem_contents inside held).1 inside

/-! ### Expressions that hold what their groups hold -/

/-- **Every expression holds what its group holds.** -/
def Holds (memo : Memo) : Prop :=
  ∀ (id : ExprId) (expr : Expr), memo.exprs[id]? = some expr →
    expr.operator.gather expr.group (expr.children.map memo.contents) = memo.contents expr.group

/-- A memo that grew holds if what was added does. -/
theorem Holds.of_grows (holds : memo.Holds) (grows : memo.Grows next) (valid : memo.Valid)
    (later : next.Valid)
    (added : ∀ {id : ExprId} {expr : Expr}, next.exprs[id]? = some expr →
      memo.exprs[id]? = some expr ∨
        expr.operator.gather expr.group (expr.children.map next.contents) =
          next.contents expr.group) : next.Holds := by
  intro id expr stored
  rcases added stored with old | gathers
  · obtain ⟨group, there, _⟩ := valid.placed old
    rw [grows.map_contents_eq valid later fun child => valid.childExists old,
      grows.contents_eq valid later (lt_of_group there)]
    exact holds id expr old
  · exact gathers

section Insertion

variable {operator : Operator} {children : List GroupId} {id : ExprId}

/-- **A shape that is inserted** holds what it gathers. -/
theorem insert_holds (holds : memo.Holds) (valid : memo.Valid)
    (done : memo.insert operator children = .ok (id, next)) :
    next.Holds ∧ ∃ expr, next.exprs[id]? = some expr ∧ (expr.operator == operator) = true ∧
      next.contents expr.group = operator.gather expr.group (children.map memo.contents) := by
  obtain ⟨later, grows⟩ := insert_keeps done valid
  obtain ⟨expr, stored, equal, shape⟩ := insert_stored valid done
  -- A new expression is the first member of its group.
  have kept : next.Holds := holds.of_grows grows valid later fun {other new} there => by
    rcases stored_insert done there with old | ⟨_, _, first, _⟩
    · exact Or.inl old
    · exact Or.inr (later.contents_eq (later.firstMember_of_position there first)).symm
  refine ⟨kept, expr, stored, equal, ?_⟩
  have same : expr.operator.gather expr.group (expr.children.map next.contents) =
      operator.gather expr.group (children.map memo.contents) := by
    unfold Operator.gather
    rw [Operator.gathers_congr equal, shape,
      grows.map_contents_eq valid later (insert_cases done).1]
  exact (kept id expr stored).symm.trans same

theorem insertInto_holds {target : GroupId} (holds : memo.Holds) (valid : memo.Valid)
    (same : operator.gather target (children.map memo.contents) = memo.contents target)
    (done : memo.insertInto target operator children = .ok (id, next)) : next.Holds := by
  obtain ⟨later, grows⟩ := insertInto_keeps done valid
  obtain ⟨inside, ⟨_, rfl⟩ | ⟨_, _, rfl, group, there, _⟩⟩ := insertInto_cases done
  · exact holds
  · refine holds.of_grows grows valid later fun {other new} stored => ?_
    rcases stored_append_iff.1 stored with old | ⟨_, rfl⟩
    · exact Or.inl old
    · right
      show operator.gather target (children.map _) = Memo.contents _ target
      rw [grows.map_contents_eq valid later inside, grows.contents_eq valid later (lt_of_group there)]
      exact same

end Insertion

/-! ### Predicates -/

/-- A scalar group has an operator, which is that of its first member. -/
theorem IsPredicate.exists_scalarFirst? (predicate : memo.IsPredicate I id) (sound : memo.Sound I) :
    ∃ operator expr, memo.firstMember id = .ok expr ∧ expr.operator = .scalar operator ∧
      memo.scalarFirst? id = some (operator, expr.children) := by
  obtain ⟨expr, found⟩ := sound.exists_firstMember predicate.1
  obtain ⟨group, first, there, place, stored⟩ := firstMember_ok_iff.1 found
  have family := predicate.2
  rw [sound.isScalar_sense there] at family
  have scalar := sound.family stored ((sound.of_firstMember found).1.symm ▸ there)
  rw [family] at scalar
  cases kind : expr.operator with
  | logical operator =>
    rw [kind] at scalar
    cases scalar
  | physical operator =>
    rw [kind] at scalar
    cases scalar
  | scalar operator =>
    refine ⟨operator, expr, found, kind, ?_⟩
    simp [scalarFirst?, there, family, place, stored, kind]

theorem conjunctsWithin_eq (sound : memo.Sound I) (levels : Nat) :
    ∀ {id : GroupId}, memo.IsPredicate I id →
      (memo.conjunctsWithin levels id : Multiset GroupId) = memo.contentsWithin levels id := by
  induction levels with
  | zero => exact fun _ => rfl
  | succ levels ih =>
    intro id predicate
    obtain ⟨operator, expr, found, kind, first⟩ := predicate.exists_scalarFirst? sound
    obtain ⟨_, admits, inside⟩ := sound.first_scalar first
    unfold conjunctsWithin contentsWithin
    rw [found, first]
    simp only [kind]
    split
    · rename_i children same
      cases same
      have below : ∀ child ∈ expr.children, memo.IsPredicate I child := fun child member =>
        ⟨inside child member, admits.conjoins rfl _ (List.mem_map.2 ⟨child, member, rfl⟩)⟩
      rw [Operator.gather_of_gathers rfl, ← Multiset.coe_bind]
      show (Multiset.map _ (expr.children : Multiset GroupId)).sum = _
      rw [Multiset.map_coe, Multiset.sum_coe]
      exact congrArg List.sum (List.map_congr_left fun child member => ih (below child member))
    · rename_i children same
      cases same
      have none : expr.children = [] := List.map_eq_nil_iff.1 (admits.constants _ rfl)
      rw [none]
      rfl
    · rename_i notAnd notTruth
      rw [Operator.gather_of_not_gathers]
      · rfl
      · refine Bool.eq_false_iff.2 fun gathers => ?_
        rcases ScalarOp.gathers_iff.1 gathers with rfl | rfl
        · exact notAnd _ rfl
        · exact notTruth _ rfl

/-- **A predicate holds its conjuncts.** -/
theorem Sound.conjuncts_eq (sound : memo.Sound I) (predicate : memo.IsPredicate I id) :
    (memo.conjuncts id : Multiset GroupId) = memo.contents id :=
  conjunctsWithin_eq sound (id + 1) predicate

/-- A predicate that is its only conjunct. -/
structure IsConjunct (I : Interpretation V) (memo : Memo) (id : GroupId) : Prop where
  isPredicate : memo.IsPredicate I id
  alone : memo.contents id = {id}

/-- **A predicate holds conjuncts only.** -/
theorem IsPredicate.of_mem_contents (predicate : memo.IsPredicate I id) (sound : memo.Sound I) :
    ∀ atom ∈ memo.contents id, memo.IsConjunct I atom := by
  intro atom held
  refine ⟨?_, (sound.of_mem_contents predicate.1 held).2⟩
  rw [← sound.conjuncts_eq predicate] at held
  exact (conjuncts_alike sound predicate).1 atom held

theorem IsPredicate.isConjunct (predicate : memo.IsPredicate I id) (sound : memo.Sound I) :
    ∀ conjunct ∈ memo.conjuncts id, memo.IsConjunct I conjunct := by
  intro conjunct member
  rw [← Multiset.mem_coe, sound.conjuncts_eq predicate] at member
  exact predicate.of_mem_contents sound conjunct member

/-! ### Columns -/

/-- Some groups make a column: one of their relations has it. -/
def Makes (I : Interpretation V) (memo : Memo) (held : Multiset GroupId) (column : ColumnId) :
    Prop :=
  ∃ atom ∈ held, (memo.sense I atom).scope.isScalar = false ∧
    column ∈ (memo.sense I atom).scope.columns

theorem makes_add {first second : Multiset GroupId} {column : ColumnId} :
    memo.Makes I (first + second) column ↔ memo.Makes I first column ∨ memo.Makes I second column := by
  simp only [Makes, Multiset.mem_add, or_and_right, exists_or]

theorem makes_sum {parts : List (Multiset GroupId)} {column : ColumnId} :
    memo.Makes I parts.sum column ↔ ∃ part ∈ parts, memo.Makes I part column := by
  induction parts with
  | nil => simp [Makes]
  | cons part parts ih => rw [List.sum_cons, makes_add, ih, List.exists_mem_cons_iff]

/-- **A relation has the columns of the relations that it holds**, and a scalar holds none. -/
theorem Sound.makes_contents_iff (sound : memo.Sound I) :
    ∀ {id : GroupId}, id < memo.groups.size → ∀ {column : ColumnId},
      memo.Makes I (memo.contents id) column ↔
        (memo.sense I id).scope.isScalar = false ∧ column ∈ (memo.sense I id).scope.columns := by
  intro id
  induction id using Nat.strongRecOn with
  | ind id ih =>
    intro inside column
    cases family : (memo.sense I id).scope.isScalar with
    | true =>
      refine iff_of_false ?_ (fun both => nomatch both.1)
      rintro ⟨atom, held, relational, _⟩
      have predicate : memo.IsPredicate I id := ⟨inside, family⟩
      rw [(predicate.of_mem_contents sound atom held).isPredicate.2] at relational
      cases relational
    | false =>
      obtain ⟨expr, found⟩ := sound.exists_firstMember inside
      obtain ⟨_, number, _, _, stored⟩ := firstMember_ok_iff.1 found
      have named := (sound.of_firstMember found).1
      have contents := sound.contents_eq found
      cases gathers : expr.operator.gathers with
      | false =>
        rw [contents, Operator.gather_of_not_gathers gathers]
        simp [Makes, family]
      | true =>
        rw [Operator.gather_of_gathers gathers] at contents
        obtain ⟨logical, computes⟩ : ∃ logical, expr.operator.logical? = some logical := by
          rw [sound.sense_eq found, exprSense, Interpretation.isScalar_sense] at family
          cases kind : expr.operator with
          | logical operator => exact ⟨_, rfl⟩
          | physical operator => exact ⟨_, rfl⟩
          | scalar operator =>
            rw [kind] at family
            cases family
        rw [Operator.gathers_of_logical computes] at gathers
        obtain ⟨sources, predicate, shape, relations, isPredicate, _, means⟩ :=
          sound.joining stored computes gathers
        have older : ∀ child ∈ sources ++ [predicate], child < id :=
          shape ▸ (sound.of_firstMember found).2
        have columns : column ∈ (memo.sense I id).scope.columns ↔
            ∃ source ∈ sources, column ∈ (memo.sense I source).scope.columns := by
          rw [← named, means]
          refine Scope.mem_columns_joined.trans ?_
          simp [senses]
        have last : ¬ memo.Makes I (memo.contents predicate) column := by
          rw [ih predicate (older predicate (by simp)) isPredicate.1, isPredicate.2]
          exact fun both => nomatch both.1
        rw [columns, contents, shape, makes_sum]
        simp only [List.map_append, List.map_cons, List.map_nil, List.mem_append, List.mem_map,
          List.mem_singleton, or_and_right, exists_or, exists_exists_and_eq_and, exists_eq_left, last,
          or_false, true_and]
        refine exists_congr fun source => and_congr_right fun member => ?_
        rw [ih source (older source (List.mem_append_left _ member)) (relations source member).1]
        exact and_iff_right (relations source member).2

section Makes

variable {column : ColumnId}

/-- A relation makes its columns. -/
theorem IsRelation.makes_iff (relation : memo.IsRelation I id) (sound : memo.Sound I) :
    memo.Makes I (memo.contents id) column ↔ column ∈ (memo.sense I id).scope.columns := by
  rw [sound.makes_contents_iff relation.1]
  exact and_iff_right relation.2

/-- A predicate makes no columns. -/
theorem IsPredicate.not_makes (predicate : memo.IsPredicate I id) (sound : memo.Sound I) :
    ¬ memo.Makes I (memo.contents id) column := by
  rw [sound.makes_contents_iff predicate.1, predicate.2]
  exact fun both => nomatch both.1

/-- Conjuncts make no columns. -/
theorem not_makes_conjuncts {conjuncts : List GroupId}
    (each : ∀ conjunct ∈ conjuncts, memo.IsConjunct I conjunct) :
    ¬ memo.Makes I (conjuncts : Multiset GroupId) column := by
  rintro ⟨atom, held, relational, _⟩
  rw [(each atom (Multiset.mem_coe.1 held)).isPredicate.2] at relational
  cases relational

end Makes

end Memo

end Cascades
