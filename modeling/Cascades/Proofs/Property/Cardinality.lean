/-
**Bounds on the number of rows.**

The bound that is derived for a relation multiplies the bounds of the inputs of a join, cuts them off
at a limit, and is zero where the constraint is a contradiction. An outer join also keeps rows that
match nothing, which the product does not count: where the other side is bounded by zero, the bound is
too small. Everywhere else it is right.

* `JoinType.Multiplies`: the product of two bounds is a bound for a join;
* `derive_cardinality`: what is derived from right bounds is right;
* `reached_cardinality`: in every state of a search, the bounds are right, if the bounds below each
  outer join multiply;
* `reached_cardinality_exceeded`: they are wrong for a left join with an empty right side.
-/

import Cascades.Proofs.Meaning.Size
import Cascades.Proofs.Property.Constraint

namespace Cascades

open Memo Interpretation

/-! ### Products of bounds -/

/-- The rows that a join keeps without a match are no more than the product of the bounds of its
sides. -/
def JoinType.Multiplies (left right : Nat) : JoinType → Prop
  | .left => left ≤ left * right
  | .right => right ≤ left * right
  | .full => left + right ≤ left * right
  | _ => True

instance {left right : Nat} : (type : JoinType) → Decidable (type.Multiplies left right)
  | .left => inferInstanceAs (Decidable (left ≤ left * right))
  | .right => inferInstanceAs (Decidable (right ≤ left * right))
  | .full => inferInstanceAs (Decidable (left + right ≤ left * right))
  | .inner | .cross | .semi | .anti => .isTrue trivial

/-- A product of bounds below the greatest count. It has a factor that is not below only if it is
zero. -/
theorem product_cases {left right : Nat} (small : min (left * right) greatestCount < greatestCount) :
    left * right < greatestCount ∧
      (left < greatestCount ∨ right = 0) ∧ (right < greatestCount ∨ left = 0) := by
  have exact : left * right < greatestCount := (min_lt_iff.1 small).resolve_right (lt_irrefl _)
  refine ⟨exact, ?_, ?_⟩
  · exact (Nat.eq_zero_or_pos right).symm.imp_left fun some =>
      Nat.lt_of_le_of_lt (Nat.le_mul_of_pos_right left some) exact
  · exact (Nat.eq_zero_or_pos left).symm.imp_left fun some =>
      Nat.lt_of_le_of_lt (Nat.le_mul_of_pos_left right some) exact

/-- The rows of an outer join are no more than the product of the bounds of its sides, if these
multiply. -/
theorem Interpretation.card_joinRows_le_product {I : Interpretation Value}
    {left right predicate : Sense Value} {environment : Row Value} {type : JoinType} {one two : Nat}
    (outer : type = .left ∨ type = .right ∨ type = .full) (multiplies : type.Multiplies one two)
    (lefts : one < greatestCount → (left.rows environment).card ≤ one)
    (rights : two < greatestCount → (right.rows environment).card ≤ two)
    (small : one * two < greatestCount) :
    (I.joinRows type left right predicate environment).card ≤ one * two := by
  have kept : type.isInner = false := by rcases outer with rfl | rfl | rfl <;> rfl
  have rows := card_joinRows_le (I := I) left right predicate environment kept
  rcases Nat.eq_zero_or_pos (one * two) with none | some
  · -- A bound of zero on a side that is kept says that the side is empty.
    have emptyLeft : one = 0 → (left.rows environment).card = 0 := fun zero =>
      Nat.le_zero.1 (zero ▸ lefts (zero ▸ by decide))
    have emptyRight : two = 0 → (right.rows environment).card = 0 := fun zero =>
      Nat.le_zero.1 (zero ▸ rights (zero ▸ by decide))
    rw [none]
    rcases outer with rfl | rfl | rfl
    · have zero : one ≤ one * two := multiplies
      simpa [emptyLeft (by omega)] using rows
    · have zero : two ≤ one * two := multiplies
      simpa [emptyRight (by omega)] using rows
    · have zero : one + two ≤ one * two := multiplies
      simpa [emptyLeft (by omega), emptyRight (by omega)] using rows
  · have someLeft := Nat.pos_of_mul_pos_right some
    have someRight := Nat.pos_of_mul_pos_left some
    have atMostLeft := lefts (Nat.lt_of_le_of_lt (Nat.le_mul_of_pos_right one someRight) small)
    have atMostRight := rights (Nat.lt_of_le_of_lt (Nat.le_mul_of_pos_left two someLeft) small)
    rcases outer with rfl | rfl | rfl
    · exact le_trans rows (Nat.mul_le_mul atMostLeft (max_le atMostRight someRight))
    · exact le_trans rows (Nat.mul_le_mul (max_le atMostLeft someLeft) atMostRight)
    · have sum : one + two ≤ one * two := multiplies
      exact le_trans rows (max_le (Nat.mul_le_mul atMostLeft atMostRight) (by omega))

/-- Once the bounds of the sides of an outer join are known, they multiply. -/
def Memo.BoundsMultiply (last : Facts) (memo : Memo) : Prop :=
  ∀ (id : ExprId) (expr : Expr) (type : JoinType) (left right predicate : GroupId)
    (lefts rights : RelationalProperties) (one two : Nat), memo.exprs[id]? = some expr →
      expr.operator = .logical (.join type) → expr.children = [left, right, predicate] →
      last.relational left = .complete lefts → last.relational right = .complete rights →
      lefts .maxCardinality = some one → rights .maxCardinality = some two →
        type.Multiplies one two

namespace Context

variable {I : Interpretation Value} {values : Value → Prop} {context : Context}

/-! ### Reading bounds -/

section Parts

variable {child : GroupId} {count : GroupId → Nat}

theorem cardinalityOf_cases {found : Option Nat}
    (done : RelationalProperty.cardinalityOf context child = .ok found) :
    ∃ properties, context.relationalProperties child = .ok properties ∧
      properties .maxCardinality = found := by
  obtain ⟨properties, read, done⟩ := bind_eq_ok_iff.1 done
  exact ⟨properties, read, pure_eq_ok_iff.1 done⟩

/-- The product with the bound of one more input. -/
def multiplyBound (context : Context) (product : Option Nat) (child : GroupId) :
    Except Fault (Option Nat) := do
  match product, ← RelationalProperty.cardinalityOf context child with
  | some product, some bound => return some (min (product * bound) greatestCount)
  | _, _ => return none

theorem multiplyBound_cases {product : Option Nat} {found : Nat}
    (done : multiplyBound context product child = .ok (some found)) :
    ∃ early bound, product = some early ∧
      RelationalProperty.cardinalityOf context child = .ok (some bound) ∧
      found = min (early * bound) greatestCount := by
  obtain ⟨bound, read, done⟩ := bind_eq_ok_iff.1 done
  match product, bound, done with
  | some early, some bound, done =>
    exact ⟨early, bound, rfl, read, (Option.some.inj (pure_eq_ok_iff.1 done)).symm⟩
  | some _, none, done => cases pure_eq_ok_iff.1 done
  | none, _, done => cases pure_eq_ok_iff.1 done

/-- The product of the bounds of some inputs bounds the product of what they bound. -/
theorem multiplyBounds_le {children : List GroupId} {product : Option Nat} {total bound : Nat}
    (each : ∀ child ∈ children, ∀ one,
      RelationalProperty.cardinalityOf context child = .ok (some one) → one < greatestCount →
        count child ≤ one)
    (first : ∀ early, product = some early → early < greatestCount → total ≤ early)
    (done : children.foldlM (multiplyBound context) product = .ok (some bound))
    (small : bound < greatestCount) : total * (children.map count).prod ≤ bound := by
  induction children generalizing product total with
  | nil =>
    have same := pure_eq_ok_iff.1 done
    rw [List.map_nil, List.prod_nil, Nat.mul_one]
    exact first bound same small
  | cons child rest ih =>
    rw [List.foldlM_cons] at done
    obtain ⟨middle, step, done⟩ := bind_eq_ok_iff.1 done
    rw [List.map_cons, List.prod_cons, ← Nat.mul_assoc]
    refine ih (fun other member => each other (List.mem_cons_of_mem _ member)) ?_ done
    rintro found rfl below
    obtain ⟨early, one, rfl, read, rfl⟩ := multiplyBound_cases step
    obtain ⟨product, lefts, rights⟩ := product_cases below
    have known := each child List.mem_cons_self one read
    rw [min_eq_left product.le]
    rcases lefts with smaller | rfl
    · rcases rights with smallerToo | rfl
      · exact Nat.mul_le_mul (first early rfl smaller) (known smallerToo)
      · rw [Nat.le_zero.1 (first 0 rfl smaller)]
        omega
    · rw [Nat.le_zero.1 (known (by decide))]
      omega

/-- The bound of a join of two inputs is the product of theirs. -/
theorem multiplyBounds_pair {left right : GroupId} {bound : Nat}
    (done : [left, right].foldlM (multiplyBound context) (some 1) = .ok (some bound))
    (small : bound < greatestCount) :
    ∃ one two, RelationalProperty.cardinalityOf context left = .ok (some one) ∧
      RelationalProperty.cardinalityOf context right = .ok (some two) ∧
      one * two < greatestCount ∧ bound = one * two := by
  obtain ⟨first, step, done⟩ := bind_eq_ok_iff.1 done
  obtain ⟨second, stepToo, done⟩ := bind_eq_ok_iff.1 done
  obtain rfl := pure_eq_ok_iff.1 done
  obtain ⟨early, two, rfl, readToo, rfl⟩ := multiplyBound_cases stepToo
  obtain ⟨start, one, same, read, rfl⟩ := multiplyBound_cases step
  obtain rfl := Option.some.inj same
  rw [Nat.one_mul] at small ⊢
  refine ⟨one, two, read, readToo, ?_⟩
  obtain ⟨product, lefts, _⟩ := product_cases small
  rw [min_eq_left product.le]
  rcases lefts with smaller | rfl
  · have exact : one < greatestCount := (min_lt_iff.1 smaller).resolve_right (lt_irrefl _)
    rw [min_eq_left exact.le] at product ⊢
    exact ⟨product, rfl⟩
  · exact ⟨by rw [Nat.mul_zero]; decide, by rw [Nat.mul_zero, Nat.mul_zero]⟩

end Parts

/-! ### Derivation -/

/-- What derived properties say of the number of rows of a group. -/
def rowClaims (I : Interpretation Value) (values : Value → Prop) : Knowledge
  | memo, id, .constraint, found => constraintClaims I values memo id .constraint found
  | memo, id, .maxCardinality, found => ∀ bound, found = some bound → bound < greatestCount →
      ∀ environment, environment.In values → ((memo.sense I id).rows environment).card ≤ bound
  | _, _, _, _ => True

/-- What the rules for bounds need besides what those for constraints need: projections keep the
number of rows, and the bounds of the sides of an outer join multiply. -/
structure Counted (I : Interpretation Value) (values : Value → Prop) (last : Facts) (memo : Memo) :
    Prop extends Regulated I values memo where
  keeps : memo.Each I I.KeepsRows
  multiplies : memo.BoundsMultiply last

theorem Knows.constraints (knows : context.Knows (rowClaims I values)) :
    context.Knows (constraintClaims I values) := by
  intro id property value known
  cases property with
  | constraint => exact knows id .constraint value known
  | _ => trivial

section Expression

variable {expr : Expr} {number : ExprId} {operator : LogicalOp} {last : Facts} {bound : Nat}
  (environment : Row Value)

section Bounds

variable (knows : context.Knows (rowClaims I values)) (within : environment.In values)
  (small : bound < greatestCount)
include knows within small

theorem cardinalityOf_bounds {child : GroupId}
    (read : RelationalProperty.cardinalityOf context child = .ok (some bound)) :
    ((context.memo.sense I child).rows environment).card ≤ bound := by
  obtain ⟨found, properties, same⟩ := cardinalityOf_cases read
  exact knows.relationalProperties properties .maxCardinality bound same small environment within

/-- The bound of the first child, where a rule passes it on. -/
theorem firstBound_le {input : GroupId} {others : List GroupId}
    (shape : expr.children = input :: others)
    (done : (do RelationalProperty.cardinalityOf context (← expr.child 0) :
      Except Fault (Option Nat)) = .ok (some bound)) :
    ((context.memo.sense I input).rows environment).card ≤ bound := by
  obtain ⟨child, given, read⟩ := bind_eq_ok_iff.1 done
  have place := Expr.child_ok_iff.1 given
  rw [shape] at place
  obtain rfl : input = child := Option.some.inj place
  exact cardinalityOf_bounds environment knows within small read

/-- The product of the bounds of the relations below an expression, where a rule multiplies them. -/
theorem productBound_le
    (done : (context.memo.relationalChildren expr).foldlM (multiplyBound context) (some 1) =
      .ok (some bound)) :
    ((context.memo.relationalChildren expr).map fun child =>
      ((context.memo.sense I child).rows environment).card).prod ≤ bound := by
  rw [← Nat.one_mul (List.prod _)]
  refine multiplyBounds_le
    (fun _ _ _ read below => cardinalityOf_bounds environment knows within below read) ?_ done small
  rintro early same _
  exact (Option.some.inj same).le

end Bounds

section Shape

variable (sound : context.memo.Sound I) (stored : context.memo.exprs[number]? = some expr)
include sound stored

/-- A selection or an inner join has at most the product of the rows of its relations, which are all
children but the predicate. -/
theorem joining_card_le (kind : expr.operator = .logical operator)
    (joining : operator.isJoining = true) :
    ∃ predicate, expr.children = context.memo.relationalChildren expr ++ [predicate] ∧
      ((context.memo.sense I expr.group).rows environment).card ≤
        ((context.memo.relationalChildren expr).map fun child =>
          ((context.memo.sense I child).rows environment).card).prod := by
  have computes : expr.operator.logical? = some operator := by
    rw [kind]
    rfl
  obtain ⟨sources, predicate, shape, areRelations, isPredicate, _, means⟩ :=
    sound.joining stored computes joining
  have relations : context.memo.relationalChildren expr = sources := by
    have all : sources.filter (fun child => !context.memo.isScalarGroup child) = sources := by
      refine List.filter_eq_self.2 fun source member => ?_
      rw [sound.isScalarGroup_eq (areRelations source member).1, (areRelations source member).2]
      rfl
    rw [relationalChildren, shape, List.filter_append, all, List.filter_singleton,
      sound.isScalarGroup_eq isPredicate.1, isPredicate.2]
    simp
  rw [relations]
  refine ⟨predicate, shape, ?_⟩
  rw [means]
  refine le_trans card_joined_le (le_of_eq ?_)
  rw [senses, List.map_map]
  rfl

omit environment in
/-- The relations among the children of an outer join are its sides. -/
theorem relationalChildren_outerJoin {left right predicate : GroupId}
    (shape : expr.children = [left, right, predicate])
    (leftIs : (context.memo.sense I left).scope.isScalar = false)
    (rightIs : (context.memo.sense I right).scope.isScalar = false)
    (predicateIs : (context.memo.sense I predicate).scope.isScalar = true) :
    context.memo.relationalChildren expr = [left, right] := by
  have scalar : ∀ child ∈ expr.children, context.memo.isScalarGroup child =
      (context.memo.sense I child).scope.isScalar := fun child member =>
    sound.isScalarGroup_eq (sound.childExists stored member)
  rw [shape] at scalar
  simp only [List.forall_mem_cons, leftIs, rightIs, predicateIs] at scalar
  obtain ⟨one, two, three, _⟩ := scalar
  simp [relationalChildren, shape, one, two, three]

end Shape

/-! One lemma for each rule: the bound that a rule derives is right if those that it reads are. -/

variable (counted : Counted I values last context.memo) (sound : context.memo.Sound I)
  (stored : context.memo.exprs[number]? = some expr) (knows : context.Knows (rowClaims I values))
  (within : environment.In values) (small : bound < greatestCount)
include counted sound stored knows within small

theorem select_card_le (kind : expr.operator = .logical .select)
    (done : RelationalProperty.deriveCardinality context expr .select = .ok (some bound)) :
    ((context.memo.sense I expr.group).rows environment).card ≤ bound := by
  obtain ⟨predicate, shape, rows⟩ := joining_card_le environment sound stored kind rfl
  have regular := counted.regular.expr stored
  rw [kind] at regular
  have count := regular.selects rfl
  rw [List.length_map, shape] at count
  obtain ⟨input, only⟩ : ∃ input, context.memo.relationalChildren expr = [input] :=
    List.length_eq_one_iff.1 (by simpa using count)
  rw [only] at shape rows
  refine le_trans rows ?_
  rw [List.map_singleton, List.prod_singleton]
  exact firstBound_le environment knows within small shape done

theorem project_card_le (kind : expr.operator = .logical .project)
    (done : RelationalProperty.deriveCardinality context expr .project = .ok (some bound)) :
    ((context.memo.sense I expr.group).rows environment).card ≤ bound := by
  obtain ⟨input, list, shape, _⟩ := counted.regular.project stored kind
  have keeps := counted.keeps number expr stored kind
  rw [shape] at keeps
  rw [sense_group sound stored kind, card_ofLogical rfl, shape]
  exact (keeps _ _ rfl environment).trans_le
    (firstBound_le environment knows within small shape done)

theorem limit_card_le {offset count : Nat} (kind : expr.operator = .logical (.limit offset count))
    (done : RelationalProperty.deriveCardinality context expr (.limit offset count) =
      .ok (some bound)) : ((context.memo.sense I expr.group).rows environment).card ≤ bound := by
  obtain ⟨input, shape, _⟩ := counted.regular.limit stored kind
  rw [sense_group sound stored kind, shape, List.map_singleton, card_limited counted.standard]
  obtain ⟨child, given, done⟩ := bind_eq_ok_iff.1 done
  obtain ⟨known, read, done⟩ := bind_eq_ok_iff.1 done
  have place := Expr.child_ok_iff.1 given
  rw [shape] at place
  obtain rfl : input = child := Option.some.inj place
  cases known with
  | none =>
    rw [← Option.some.inj (pure_eq_ok_iff.1 done)]
    exact min_le_left _ _
  | some one =>
    rw [← Option.some.inj (pure_eq_ok_iff.1 done)] at small ⊢
    have rows : one < greatestCount → ((context.memo.sense I input).rows environment).card ≤ one :=
      fun below => cardinalityOf_bounds environment knows within below read
    omega

theorem aggregate_card_le {keys : List Column} (kind : expr.operator = .logical (.aggregate keys))
    (done : RelationalProperty.deriveCardinality context expr (.aggregate keys) = .ok (some bound)) :
    ((context.memo.sense I expr.group).rows environment).card ≤ bound := by
  obtain ⟨input, list, shape, _⟩ := counted.regular.aggregate stored kind
  rw [sense_group sound stored kind, shape, List.map_cons, List.map_singleton]
  cases keys with
  | nil =>
    rw [card_aggregated_nil counted.standard]
    exact (Option.some.inj (pure_eq_ok_iff.1 done)).le
  | cons key keys =>
    exact le_trans (card_aggregated_le counted.standard nofun)
      (firstBound_le environment knows within small shape done)

/-- A join that keeps some of the left rows has no more than these. For the other outer joins, the
bounds of the sides have to multiply. -/
theorem outerJoin_card_le {type : JoinType} (kind : expr.operator = .logical (.join type))
    (outer : type.isInner = false) (settled : context.Settled last)
    (done : RelationalProperty.deriveCardinality context expr (.join type) = .ok (some bound)) :
    ((context.memo.sense I expr.group).rows environment).card ≤ bound := by
  obtain ⟨left, right, predicate, shape, leftIs, rightIs, predicateIs, _⟩ :=
    counted.regular.outerJoin stored kind outer
  rw [sense_group sound stored kind, shape, List.map_cons, List.map_cons, List.map_singleton,
    card_outerJoined counted.standard outer]
  have product (kept : type = .left ∨ type = .right ∨ type = .full)
      (done : (context.memo.relationalChildren expr).foldlM (multiplyBound context) (some 1) =
        .ok (some bound)) :
      (I.joinRows type (context.memo.sense I left) (context.memo.sense I right)
        (context.memo.sense I predicate) environment).card ≤ bound := by
    rw [relationalChildren_outerJoin sound stored shape leftIs rightIs predicateIs] at done
    obtain ⟨one, two, read, readToo, below, rfl⟩ := multiplyBounds_pair done small
    obtain ⟨lefts, given, oneIs⟩ := cardinalityOf_cases read
    obtain ⟨rights, givenToo, twoIs⟩ := cardinalityOf_cases readToo
    have multiplies := counted.multiplies number expr type left right predicate lefts rights one two
      stored kind shape (settled left lefts (relationalProperties_cases given).2)
      (settled right rights (relationalProperties_cases givenToo).2) oneIs twoIs
    exact card_joinRows_le_product kept multiplies
      (fun below => cardinalityOf_bounds environment knows within below read)
      (fun below => cardinalityOf_bounds environment knows within below readToo) below
  cases type with
  | inner | cross => cases outer
  | left => exact product (Or.inl rfl) done
  | right => exact product (Or.inr (Or.inl rfl)) done
  | full => exact product (Or.inr (Or.inr rfl)) done
  | semi | anti =>
    exact le_trans (card_joinRows_le _ _ _ _ _ rfl)
      (firstBound_le environment knows within small shape done)

/-- **What is derived from right bounds** is right. -/
theorem derive_cardinality (kind : expr.operator = .logical operator)
    (settled : context.Settled last)
    (done : RelationalProperty.deriveCardinality context expr operator = .ok (some bound)) :
    ((context.memo.sense I expr.group).rows environment).card ≤ bound := by
  cases operator with
  | get table columns => cases pure_eq_ok_iff.1 done
  | select => exact select_card_le environment counted sound stored knows within small kind done
  | project => exact project_card_le environment counted sound stored knows within small kind done
  | limit offset count =>
    exact limit_card_le environment counted sound stored knows within small kind done
  | aggregate keys =>
    exact aggregate_card_le environment counted sound stored knows within small kind done
  | naryJoin =>
    obtain ⟨_, _, rows⟩ := joining_card_le environment sound stored kind rfl
    exact le_trans rows (productBound_le environment knows within small done)
  | join type =>
    cases inner : type.isInner with
    | true =>
      obtain ⟨_, _, rows⟩ := joining_card_le environment sound stored kind inner
      refine le_trans rows (productBound_le environment knows within small ?_)
      cases type with
      | inner | cross => exact done
      | _ => cases inner
    | false =>
      exact outerJoin_card_le environment counted sound stored knows within small kind inner settled
        done

end Expression

theorem Counted.earlier {memo next : Memo} {last : Facts} (counted : Counted I values last next)
    (valid : memo.Valid) (later : next.Valid) (grows : memo.Grows next) :
    Counted I values last memo where
  toRegulated := counted.toRegulated.earlier valid later grows
  keeps := counted.keeps.earlier valid later grows
  multiplies id expr type left right predicate lefts rights one two stored :=
    counted.multiplies id expr type left right predicate lefts rights one two (grows.exprs stored)

/-- Growth of the memo changes nothing of what constraints and bounds say. -/
theorem rowClaims_later {memo next : Memo} {id : GroupId} {property : RelationalProperty}
    {value : property.Value} (valid : memo.Valid) (later : next.Valid) (grows : memo.Grows next)
    (inside : id < memo.groups.size) (claims : rowClaims I values memo id property value) :
    rowClaims I values next id property value := by
  cases property with
  | constraint =>
    have early : constraintClaims I values memo id .constraint value := claims
    exact constraintClaims_later valid later grows inside early
  | maxCardinality =>
    intro bound same below environment within
    rw [grows.sense_eq valid later inside]
    exact claims bound same below environment within
  | _ => trivial

/-- **The rules for the properties** derive bounds that are right. -/
theorem teaches_cardinality {memo : Memo} {last : Facts} (counted : Counted I values last memo) :
    Teaches I (rowClaims I values) last memo := by
  rintro context id known property value rfl coherent inside settled knows certain done
  cases property with
  | constraint =>
    exact teaches_constraint counted.toRegulated context id known .constraint value rfl coherent
      inside settled knows.constraints certain done
  | maxCardinality =>
    rintro bound rfl below environment within
    by_cases contradiction : (known.map Constraint.isContradiction).getD false = true
    · obtain ⟨constraint, rfl, contradicts⟩ : ∃ constraint, known = some constraint ∧
          constraint.isContradiction = true := by
        cases known with
        | none => cases contradiction
        | some constraint => exact ⟨constraint, rfl, contradiction⟩
      have empty := (certain constraint rfl constraint rfl).rows_eq_zero counted.ordered
        counted.draws.null (counted.draws.rows inside within) within contradicts
      rw [empty]
      exact Nat.zero_le bound
    · unfold RelationalProperty.derive at done
      rw [if_neg contradiction] at done
      obtain ⟨⟨expr, operator⟩, found, rest⟩ := bind_eq_ok_iff.1 done
      obtain ⟨⟨number, stored⟩, rfl, kind⟩ :=
        firstLogical_cases coherent.sound.toValid (lift_fault_eq_ok_iff.1 found)
      exact derive_cardinality environment counted coherent.sound stored knows within below kind
        settled (lift_fault_eq_ok_iff.1 rest)
  | _ => trivial

end Context

/-! ### Runs -/

/-- **Bounds on the number of rows are right** where those below outer joins multiply. Regular queries
are inserted into an empty memo, and phases run with any of the rules. In every state that is reached,
and over every database with the values that occur in an order, each member of a relational group has
no more rows than the bound that is derived for the group; a bound that is the greatest count says
nothing. Project lists call no functions that return sets. -/
theorem reached_cardinality {I : Interpretation Value} {values : Value → Prop}
    {sets : String → Prop} {queries : List Query} {roots : List GroupId} {memo : Memo}
    {catalog : Catalog} {rules : List Rule} {config : Config} {final : Search}
    (meaning : I.Standard) (ordered : Value.Ordered values) (projects : I.ProjectsRows sets)
    (wellFormed : ∀ query ∈ queries, ∃ outside, query.WellFormed outside)
    (regular : ∀ query ∈ queries, query.Regular)
    (free : ∀ query ∈ queries, query.ProjectsSetFree sets)
    (inserted : Memo.empty.materializeAll (Query.toProposals queries) = .ok (roots, memo))
    (standard : ∀ rule ∈ rules, rule ∈ Rule.standard)
    (reached : (Search.ofMemo memo catalog rules config).Reached final)
    (draws : final.context.memo.Draws I values)
    (multiplies : final.context.memo.BoundsMultiply final.context.facts) {id : GroupId} {bound : Nat}
    {after : Context}
    (read : Context.readRelational id .maxCardinality final.context = .ok (.ok (some bound), after))
    (below : bound < greatestCount) {environment : Row Value} (known : environment.In values)
    {member : ExprId} {expr : Expr} (stored : final.context.memo.exprs[member]? = some expr)
    (place : expr.group = id) :
    ((final.context.memo.exprSense I expr).rows environment).card ≤ bound := by
  obtain ⟨coherent, last, regular⟩ :=
    reached_regular (I := I) wellFormed regular inserted standard reached
  have start : memo.Each I I.KeepsRows :=
    Query.inserted_each (fun _ _ free => projects.keeps free) wellFormed free inserted
  have keeps : final.context.memo.Each I I.KeepsRows :=
    reached.each (fun always => always.keepsRows) coherent start standard
  have counted : Context.Counted I values final.context.facts final.context.memo :=
    ⟨⟨meaning, ordered, regular, draws⟩, keeps, multiplies⟩
  have knows : final.context.Knows (Context.rowClaims I values) :=
    reached.knows coherent (fun rule member => Rule.standard_faithful rule (standard rule member))
      Context.knows_of_blank counted
      (fun valid later grows counted => counted.earlier valid later grows)
      Context.rowClaims_later fun _ => Context.teaches_cardinality
  have bounded := Context.readRelational_knows (Context.teaches_cardinality counted) rfl last
    (fun _ _ complete => complete) knows read bound rfl below environment known
  subst place
  rwa [last.sound.same stored]

/-! ### Examples -/

/-- The first rows of a table without columns. -/
def firstOf (name : String) (count : Nat) : Query :=
  .node (.logical (.limit 0 count)) [.node (.logical (.get ⟨"shop", name⟩ [])) []]

/-- The first orders, each with the first items. -/
def firstOrders (orders items : Nat) : Query :=
  .node (.logical (.join .left)) [firstOf "orders" orders, firstOf "items" items, .node .truth []]

section Parts

variable {orders items : Nat} {sets : String → Prop}

theorem limit_wellFormed {outside : ColumnSet} {offset count : Nat} {input : Query}
    (proper : input.WellFormed outside) (relation : input.scope.isScalar = false) :
    (Query.node (.logical (.limit offset count)) [input]).WellFormed outside := by
  refine ⟨⟨?_, trivial⟩, ⟨nofun, fun logical same joining => ?_, nofun, nofun⟩⟩
  · rw [relation]
    exact proper
  · cases same
    cases joining

theorem limit_regular {offset count : Nat} {input : Query} (regular : input.Regular)
    (relation : input.scope.isScalar = false) :
    (Query.node (.logical (.limit offset count)) [input]).Regular :=
  ⟨⟨regular, trivial⟩,
    ⟨nofun, nofun, nofun, nofun, nofun, fun _ _ _ => ⟨_, rfl, relation⟩, nofun, nofun⟩⟩

theorem firstOrders_wellFormed : (firstOrders orders items).WellFormed .empty := by
  refine ⟨⟨limit_wellFormed get_wellFormed rfl, limit_wellFormed get_wellFormed rfl,
    ⟨trivial, ⟨nofun, nofun, nofun, fun _ _ => rfl⟩⟩, trivial⟩,
    ⟨nofun, fun logical same joining => ?_, nofun, nofun⟩⟩
  cases same
  cases joining

theorem firstOrders_regular : (firstOrders orders items).Regular := by
  refine ⟨⟨limit_regular get_regular rfl, limit_regular get_regular rfl,
    ⟨trivial, ⟨nofun, nofun, nofun, nofun, nofun, nofun, nofun, nofun⟩⟩, trivial⟩,
    ⟨nofun, fun _ _ => rfl, fun _ _ _ => ⟨⟨false, .empty, .empty⟩, ⟨false, .empty, .empty⟩, _, rfl,
      rfl, rfl, rfl, ?_⟩, nofun, nofun, nofun, nofun, nofun⟩⟩
  exact ⟨by decide, by decide, by decide⟩

theorem firstOrders_projectsSetFree : (firstOrders orders items).ProjectsSetFree sets :=
  ⟨⟨⟨⟨⟨trivial, nofun⟩, trivial⟩, nofun⟩, ⟨⟨⟨trivial, nofun⟩, trivial⟩, nofun⟩, ⟨trivial, nofun⟩,
    trivial⟩, nofun⟩

end Parts

/-- Whether the bounds of the sides of each outer join of a memo multiply. -/
def Memo.boundsMultiply (last : Facts) (memo : Memo) : Bool :=
  memo.exprs.toList.all fun expr =>
    match expr.operator, expr.children with
    | .logical (.join type), [left, right, _] =>
      match last.relational left, last.relational right with
      | .complete lefts, .complete rights =>
        match lefts .maxCardinality, rights .maxCardinality with
        | some one, some two => type.Multiplies one two
        | _, _ => true
      | _, _ => true
    | _, _ => true

theorem Memo.boundsMultiply_of_check {last : Facts} {memo : Memo}
    (check : memo.boundsMultiply last = true) : memo.BoundsMultiply last := by
  intro id expr type left right predicate lefts rights one two stored kind shape complete completeToo
    oneIs twoIs
  have each := List.all_eq_true.1 check expr (Array.mem_toList_iff.2 (Array.mem_of_getElem? stored))
  simpa only [kind, shape, complete, completeToo, oneIs, twoIs, decide_eq_true_eq] using each

theorem reached_cardinality_firstOrders :
    ∃ memo final after,
      Memo.empty.materializeAll (Query.toProposals [firstOrders 5 2]) = .ok ([5], memo) ∧
      (Search.ofMemo memo {} Rule.standard {}).Reached final ∧
      Context.readRelational 5 .maxCardinality final.context = .ok (.ok (some 10), after) ∧
      ∀ table : Table → List Column → Bag Value, (∀ (name : Table) (columns : List Column),
        ∀ row ∈ table name columns, row.In fun value => value.isExact = true) →
        ∀ (member : ExprId) (expr : Expr), final.context.memo.exprs[member]? = some expr →
          expr.group = 5 → ∀ environment : Row Value,
            (environment.In fun value => value.isExact = true) →
              ((final.context.memo.exprSense (.ofValues table) expr).rows environment).card ≤ 10 := by
  have results : (exploredFrom (firstOrders 5 2) 5).map (fun run =>
      (run.1, run.2.2.context.memo.exactConstants,
        run.2.2.context.memo.boundsMultiply run.2.2.context.facts,
        (run.2.2.context.relational? 5 .maxCardinality).map fun found : Option Nat => found)) =
      some ([5], true, true, some (some 10)) := by
    decide +kernel
  obtain ⟨⟨roots, memo, final⟩, run, shown⟩ := Option.map_eq_some_iff.1 results
  simp only [Prod.mk.injEq] at shown
  obtain ⟨rfl, without, multiply, shown⟩ := shown
  obtain ⟨inserted, reached⟩ := exploredFrom_reached run
  obtain ⟨_, given, rfl⟩ := Option.map_eq_some_iff.1 shown
  obtain ⟨after, read⟩ := Context.relational?_eq_some_iff.1 given
  refine ⟨memo, final, after, inserted, reached, read, ?_⟩
  intro table tables member expr stored place environment known
  have wellFormed : ∀ query ∈ [firstOrders 5 2], ∃ outside, query.WellFormed outside := by
    intro query listed
    rw [List.mem_singleton.1 listed]
    exact ⟨_, firstOrders_wellFormed⟩
  have regular : ∀ query ∈ [firstOrders 5 2], query.Regular := by
    intro query listed
    rw [List.mem_singleton.1 listed]
    exact firstOrders_regular
  have free : ∀ query ∈ [firstOrders 5 2], query.ProjectsSetFree fun _ => False := by
    intro query listed
    rw [List.mem_singleton.1 listed]
    exact firstOrders_projectsSetFree
  obtain ⟨_, coherent, _⟩ := reached_regular (I := .ofValues table) wellFormed regular inserted
    (fun _ => id) reached
  have closed : (Interpretation.ofValues table).Closed fun value => value.isExact = true :=
    ofValues_closed rfl tables
  have draws : final.context.memo.Draws (.ofValues table) fun value => value.isExact = true :=
    closed.draws coherent.sound.toValid rfl (Memo.isExact_of_exactConstants without)
  exact reached_cardinality ofValues_standard Value.ordered_exact ofValues_projectsRows wellFormed
    regular free inserted (fun _ => id) reached draws (Memo.boundsMultiply_of_check multiply) read
    (by decide) known stored place

/-! ### A bound that is too small -/

/-- Five orders and no items, in tables without columns. -/
def fiveOrders (table : Table) (_ : List Column) : Bag Value :=
  if table.name = "orders" then Multiset.replicate 5 Row.empty else 0

theorem card_firstOf {name : String} {count : Nat} {environment : Row Value} :
    (((firstOf name count).sense (.ofValues fiveOrders)).rows environment).card =
      min count (if name = "orders" then 5 else 0) := by
  have table : (((ofValues fiveOrders).ofLogical (.get ⟨"shop", name⟩ []) []).rows
      environment).card = if name = "orders" then 5 else 0 := by
    rw [card_ofLogical rfl]
    show (fiveOrders ⟨"shop", name⟩ []).card = _
    unfold fiveOrders
    split <;> simp
  have rows : (((ofValues fiveOrders).ofLogical (.limit 0 count)
      [(ofValues fiveOrders).ofLogical (.get ⟨"shop", name⟩ []) []]).rows environment).card = _ :=
    card_limited ofValues_standard
  rw [table, Nat.sub_zero] at rows
  exact rows

theorem card_firstOrders {environment : Row Value} :
    (((firstOrders 5 0).sense (.ofValues fiveOrders)).rows environment).card = 5 := by
  have empty : ((firstOf "items" 0).sense (.ofValues fiveOrders)).rows environment = 0 :=
    Multiset.card_eq_zero.1 (card_firstOf.trans (Nat.zero_min _))
  exact (card_outerJoined ofValues_standard rfl).trans
    ((card_joinRows_left_of_empty _ _ _ _ _ empty).trans card_firstOf)

/-- **The bound of a left join with an empty right side** is zero, although every left row is kept. -/
theorem reached_cardinality_exceeded :
    (firstOrders 5 0).WellFormed .empty ∧ (firstOrders 5 0).Regular ∧
    (∀ sets, (firstOrders 5 0).ProjectsSetFree sets) ∧ ∃ memo final after,
      Memo.empty.materializeAll (Query.toProposals [firstOrders 5 0]) = .ok ([5], memo) ∧
      (Search.ofMemo memo {} Rule.standard {}).Reached final ∧
      Context.readRelational 5 .maxCardinality final.context = .ok (.ok (some 0), after) ∧
      (Interpretation.ofValues fiveOrders).Standard ∧ ∀ environment,
        ((final.context.memo.sense (.ofValues fiveOrders) 5).rows environment).card = 5 := by
  have results : (exploredFrom (firstOrders 5 0) 5).map (fun run =>
      (run.1, (run.2.2.context.relational? 5 .maxCardinality).map fun found : Option Nat => found)) =
      some ([5], some (some 0)) := by
    decide +kernel
  obtain ⟨⟨roots, memo, final⟩, run, shown⟩ := Option.map_eq_some_iff.1 results
  simp only [Prod.mk.injEq] at shown
  obtain ⟨rfl, shown⟩ := shown
  obtain ⟨inserted, reached⟩ := exploredFrom_reached run
  obtain ⟨_, given, rfl⟩ := Option.map_eq_some_iff.1 shown
  obtain ⟨after, read⟩ := Context.relational?_eq_some_iff.1 given
  refine ⟨firstOrders_wellFormed, firstOrders_regular, fun _ => firstOrders_projectsSetFree, memo,
    final, after, inserted, reached, read, ofValues_standard, fun environment => ?_⟩
  have wellFormed : ∀ query ∈ [firstOrders 5 0], ∃ outside, query.WellFormed outside := by
    intro query listed
    rw [List.mem_singleton.1 listed]
    exact ⟨_, firstOrders_wellFormed⟩
  obtain ⟨sound, means⟩ := Query.inserted_means (I := .ofValues fiveOrders) wellFormed inserted
  obtain ⟨inside, same⟩ := (List.forall₂_cons.1 means).1
  have refines := reached.refines (Context.coherent_of_sound sound {} _)
    fun rule member => Rule.standard_faithful rule member
  have whole : final.context.memo.sense (.ofValues fiveOrders) 5 =
      (firstOrders 5 0).sense (.ofValues fiveOrders) :=
    (refines.grows.sense_eq sound.toValid refines.coherent.sound.toValid inside).trans same
  rw [whole]
  exact card_firstOrders

end Cascades
