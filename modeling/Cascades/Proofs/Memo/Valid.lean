/-
**What holds of every memo.**

Groups list expressions, expressions name their group and their place in it, and an index leads from
child groups to expressions. `Valid` says that the three agree:

* an expression stands in one member list, once, at the place that it names (`placed`, `listed`);
* a group has members, all scalar or none (`inhabited`, `family`);
* child groups exist, and the first member of a group has only older ones (`childExists`, `older`);
* a scalar expression has the sheet that was made for the first member of its group (`sheets`);
* no shape is stored twice, and the index knows every shape (`unique`, `indexed`).

`lookup_eq_some_iff` is what the last two amount to. `Linked.append` and `Linked.appendGroup` say
that the two ways to grow keep all of it, where a new group has no member yet.
-/

import Cascades.Memo.Basic
import Cascades.Proofs.Operator

namespace Cascades

theorem Expr.child_ok_iff {expr : Expr} {position : Nat} {child : GroupId} :
    expr.child position = .ok child ↔ expr.children[position]? = some child := by
  unfold Expr.child
  split <;> simp_all

/-- What is found at a position is a child. -/
theorem Expr.mem_of_child {expr : Expr} {position : Nat} {child : GroupId}
    (found : expr.child position = .ok child) : child ∈ expr.children :=
  List.mem_of_getElem? (child_ok_iff.1 found)

end Cascades

namespace Cascades.Memo

variable {memo : Memo}

/-! ### Access -/

theorem group_ok_iff {id : GroupId} {group : Group} :
    memo.group id = .ok group ↔ memo.groups[id]? = some group := by
  unfold Memo.group
  split <;> simp_all

theorem expr_ok_iff {id : ExprId} {expr : Expr} :
    memo.expr id = .ok expr ↔ memo.exprs[id]? = some expr := by
  unfold Memo.expr
  split <;> simp_all

theorem hasOperator_iff {family : Operator → Bool} {id : ExprId} :
    memo.hasOperator family id = true ↔
      ∃ expr, memo.exprs[id]? = some expr ∧ family expr.operator = true := by
  unfold Memo.hasOperator
  split <;> simp_all

/-! ### The invariant -/

/-- Groups, expressions and index agree. A group may still be without members. -/
structure Linked (memo : Memo) : Prop where
  placed : ∀ {id : ExprId} {expr : Expr}, memo.exprs[id]? = some expr →
    ∃ group, memo.groups[expr.group]? = some group ∧ group.members[expr.position]? = some id
  listed : ∀ {id : GroupId} {group : Group} {position : Nat} {member : ExprId},
    memo.groups[id]? = some group → group.members[position]? = some member →
      ∃ expr, memo.exprs[member]? = some expr ∧ expr.group = id ∧ expr.position = position
  family : ∀ {id : ExprId} {expr : Expr} {group : Group}, memo.exprs[id]? = some expr →
    memo.groups[expr.group]? = some group → expr.operator.isScalar = group.isScalar
  childExists : ∀ {id : ExprId} {expr : Expr} {child : GroupId}, memo.exprs[id]? = some expr →
    child ∈ expr.children → child < memo.groups.size
  older : ∀ {id : ExprId} {expr : Expr} {child : GroupId}, memo.exprs[id]? = some expr →
    expr.position = 0 → child ∈ expr.children → child < expr.group
  sheets : ∀ {id first : ExprId} {expr : Expr} {group : Group}, memo.exprs[id]? = some expr →
    memo.groups[expr.group]? = some group → group.members[0]? = some first →
      expr.sheet = if expr.operator.isScalar then some first else none
  unique : ∀ {id other : ExprId} {expr same : Expr}, memo.exprs[id]? = some expr →
    memo.exprs[other]? = some same → (expr.operator == same.operator) = true →
      expr.children = same.children → id = other
  indexed : ∀ {children : List GroupId} {id : ExprId}, id ∈ memo.shapes.getD children [] ↔
    ∃ expr, memo.exprs[id]? = some expr ∧ expr.children = children

/-- Groups, expressions and index agree, and every group has a member. -/
structure Valid (memo : Memo) : Prop extends Linked memo where
  inhabited : ∀ {id : GroupId} {group : Group}, memo.groups[id]? = some group →
    0 < group.members.size

/-- **A shape is found exactly where it is stored.** -/
theorem Linked.lookup_eq_some_iff (linked : memo.Linked) {operator : Operator}
    {children : List GroupId} {id : ExprId} :
    memo.lookup operator children = some id ↔
      ∃ expr, memo.exprs[id]? = some expr ∧ (expr.operator == operator) = true ∧
        expr.children = children := by
  constructor
  · intro found
    obtain ⟨expr, stored, equal⟩ := hasOperator_iff.1 (List.find?_some found)
    obtain ⟨_, again, same⟩ := linked.indexed.1 (List.mem_of_find?_eq_some found)
    rw [stored] at again
    cases again
    exact ⟨expr, stored, equal, same⟩
  · rintro ⟨expr, stored, equal, same⟩
    cases found : memo.lookup operator children with
    | none =>
      have absent := List.find?_eq_none.1 found id (linked.indexed.2 ⟨expr, stored, same⟩)
      exact absurd (hasOperator_iff.2 ⟨expr, stored, equal⟩) absent
    | some other =>
      obtain ⟨first, there, accepted⟩ := hasOperator_iff.1 (List.find?_some found)
      obtain ⟨_, again, alike⟩ := linked.indexed.1 (List.mem_of_find?_eq_some found)
      rw [there] at again
      cases again
      have operators := PartialEquivBEq.trans accepted (PartialEquivBEq.symm equal)
      rw [linked.unique there stored operators (alike.trans same.symm)]

/-- A shape that is not found is not stored. -/
theorem Linked.lookup_eq_none (linked : memo.Linked) {operator : Operator}
    {children : List GroupId} (absent : memo.lookup operator children = none) {id : ExprId}
    {expr : Expr} (stored : memo.exprs[id]? = some expr) (same : expr.children = children) :
    ¬ (expr.operator == operator) = true := by
  intro equal
  rw [linked.lookup_eq_some_iff.2 ⟨expr, stored, equal, same⟩] at absent
  cases absent

/-- The sheet of a group that has no member yet. -/
theorem sheet?_of_empty {id : GroupId} {group : Group} (there : memo.groups[id]? = some group)
    (empty : group.members.size = 0) : memo.sheet? id = none := by
  have first : group.members[0]? = none := Array.getElem?_eq_none (Nat.le_of_eq empty)
  simp [sheet?, there, first]

/-- **The sheet of a scalar group** is the one that was made for its first member; a relational group
has none. -/
theorem Linked.sheet?_eq (linked : memo.Linked) {id : GroupId} {group : Group} {first : ExprId}
    (there : memo.groups[id]? = some group) (place : group.members[0]? = some first) :
    memo.sheet? id = if group.isScalar then some first else none := by
  obtain ⟨expr, stored, rfl, _⟩ := linked.listed there place
  rw [← linked.family stored there, ← linked.sheets stored there place]
  simp [sheet?, there, place, stored]

/-- Every expression shares the sheet of its group. -/
theorem Linked.sheet_eq (linked : memo.Linked) {id : ExprId} {expr : Expr}
    (stored : memo.exprs[id]? = some expr) : expr.sheet = memo.sheet? expr.group := by
  obtain ⟨group, there, place⟩ := linked.placed stored
  have inhabited : 0 < group.members.size := Nat.zero_lt_of_lt (Array.getElem?_eq_some_iff.1 place).1
  have first := Array.getElem?_eq_getElem inhabited
  rw [linked.sheet?_eq there first, ← linked.family stored there]
  exact linked.sheets stored there first

/-- A scalar expression has a sheet, and no other one has. -/
theorem Linked.isSome_sheet (linked : memo.Linked) {id : ExprId} {expr : Expr}
    (stored : memo.exprs[id]? = some expr) : expr.sheet.isSome = expr.operator.isScalar := by
  obtain ⟨group, there, place⟩ := linked.placed stored
  have inhabited : 0 < group.members.size := Nat.zero_lt_of_lt (Array.getElem?_eq_some_iff.1 place).1
  rw [linked.sheets stored there (Array.getElem?_eq_getElem inhabited)]
  cases expr.operator.isScalar <;> rfl

/-- A sheet belongs to one group. -/
theorem Linked.sheet?_unique (linked : memo.Linked) {id other : GroupId} {sheet : SheetId}
    (one : memo.sheet? id = some sheet) (two : memo.sheet? other = some sheet) : id = other := by
  have made : ∀ {id : GroupId}, memo.sheet? id = some sheet →
      ∃ expr, memo.exprs[sheet]? = some expr ∧ expr.group = id := by
    intro id given
    obtain ⟨group, there, given'⟩ := Option.bind_eq_some_iff.1 given
    obtain ⟨first, place, _⟩ := Option.bind_eq_some_iff.1 given'
    rw [linked.sheet?_eq there place, Option.ite_none_right_eq_some] at given
    obtain rfl := Option.some.inj given.2
    obtain ⟨expr, stored, named, _⟩ := linked.listed there place
    exact ⟨expr, stored, named⟩
  obtain ⟨expr, stored, rfl⟩ := made one
  obtain ⟨again, same, rfl⟩ := made two
  rw [Option.some.inj (stored.symm.trans same)]

/-- **The members of a scalar group share one sheet**, which no other expression has. -/
theorem Valid.shares (valid : memo.Valid) {id : GroupId} {group : Group}
    (there : memo.groups[id]? = some group) (scalar : group.isScalar = true) :
    ∃ sheet, memo.sheet? id = some sheet ∧ ∀ {number : ExprId} {expr : Expr},
      memo.exprs[number]? = some expr → (expr.sheet = some sheet ↔ expr.group = id) := by
  have first := Array.getElem?_eq_getElem (valid.inhabited there)
  have own := valid.sheet?_eq there first
  rw [if_pos scalar] at own
  refine ⟨_, own, fun stored => ?_⟩
  rw [valid.sheet_eq stored]
  constructor
  · exact fun same => valid.sheet?_unique same own
  · rintro rfl
    exact own

/-- Every group that a number is below the count of is there. -/
theorem group_of_lt {id : GroupId} (below : id < memo.groups.size) :
    ∃ group, memo.groups[id]? = some group :=
  ⟨memo.groups[id], Array.getElem?_eq_getElem below⟩

theorem lt_of_group {id : GroupId} {group : Group} (there : memo.groups[id]? = some group) :
    id < memo.groups.size := (Array.getElem?_eq_some_iff.1 there).1

theorem lt_of_expr {id : ExprId} {expr : Expr} (there : memo.exprs[id]? = some expr) :
    id < memo.exprs.size := (Array.getElem?_eq_some_iff.1 there).1

/-! ### The memo after an addition -/

section Append

variable {target : GroupId} {operator : Operator} {children : List GroupId}

/-- The expression that `append` adds. -/
def added (memo : Memo) (target : GroupId) (operator : Operator) (children : List GroupId) : Expr :=
  { operator, children, group := target,
    position := (memo.groups[target]?.map (·.members.size)).getD 0,
    sheet := if operator.isScalar then some ((memo.sheet? target).getD memo.exprs.size) else none }

theorem added_eq {group : Group} (there : memo.groups[target]? = some group) :
    memo.added target operator children =
      { operator, children, group := target, position := group.members.size,
        sheet := if operator.isScalar then some ((memo.sheet? target).getD memo.exprs.size)
          else none } := by
  simp [added, there]

theorem exprs_append {id : ExprId} :
    (memo.append target operator children).exprs[id]? =
      if id = memo.exprs.size then some (memo.added target operator children)
      else memo.exprs[id]? :=
  Array.getElem?_push

/-- What is stored once a shape was added: what was stored before, and the shape. -/
theorem stored_append_iff {id : ExprId} {expr : Expr} :
    (memo.append target operator children).exprs[id]? = some expr ↔
      memo.exprs[id]? = some expr ∨
        id = memo.exprs.size ∧ memo.added target operator children = expr := by
  rw [exprs_append]
  split
  · rename_i fresh
    simp [fresh]
  · rename_i old
    simp [old]

theorem groups_append {id : GroupId} :
    (memo.append target operator children).groups[id]? =
      if target = id then (memo.groups[id]?).map fun group =>
        { group with members := group.members.push memo.exprs.size }
      else memo.groups[id]? :=
  Array.getElem?_modify

theorem groups_append_same {group : Group} (there : memo.groups[target]? = some group) :
    (memo.append target operator children).groups[target]? =
      some { group with members := group.members.push memo.exprs.size } := by
  rw [groups_append, if_pos rfl, there, Option.map_some]

/-- What is listed once a shape was added: what was listed before, and the shape at the end of its
group. -/
theorem listed_append_iff {group : Group} (there : memo.groups[target]? = some group) {id : GroupId}
    {position : Nat} {member : ExprId} :
    (∃ owner, (memo.append target operator children).groups[id]? = some owner ∧
        owner.members[position]? = some member) ↔
      (∃ owner, memo.groups[id]? = some owner ∧ owner.members[position]? = some member) ∨
        id = target ∧ position = group.members.size ∧ member = memo.exprs.size := by
  constructor
  · rintro ⟨owner, found, place⟩
    rw [groups_append] at found
    split at found
    · rename_i same
      subst same
      rw [there] at found
      cases found
      rw [Array.getElem?_push] at place
      split at place
      · rename_i last
        exact Or.inr ⟨rfl, last, (Option.some.inj place).symm⟩
      · exact Or.inl ⟨group, there, place⟩
    · exact Or.inl ⟨owner, found, place⟩
  · rintro (⟨owner, found, place⟩ | ⟨rfl, rfl, rfl⟩)
    · have below := (Array.getElem?_eq_some_iff.1 place).1
      rw [groups_append]
      split
      · refine ⟨_, congrArg (Option.map _) found, ?_⟩
        rw [Array.getElem?_push, if_neg (Nat.ne_of_lt below)]
        exact place
      · exact ⟨owner, found, place⟩
    · exact ⟨_, groups_append_same there, Array.getElem?_push_size⟩

@[simp] theorem size_groups_append :
    (memo.append target operator children).groups.size = memo.groups.size := by
  simp [append]

@[simp] theorem size_exprs_append :
    (memo.append target operator children).exprs.size = memo.exprs.size + 1 := by
  simp [append]

theorem shapes_append {other : List GroupId} :
    (memo.append target operator children).shapes.getD other [] =
      if children = other then memo.shapes.getD children [] ++ [memo.exprs.size]
      else memo.shapes.getD other [] := by
  show (memo.shapes.insert children _).getD other [] = _
  rw [Std.TreeMap.getD_insert]
  simp only [Std.LawfulEqOrd.compare_eq_iff_eq]

theorem groups_appendGroup {isScalar : Bool} {id : GroupId} :
    (memo.appendGroup isScalar).groups[id]? =
      if id = memo.groups.size then some { isScalar } else memo.groups[id]? :=
  Array.getElem?_push

@[simp] theorem size_groups_appendGroup {isScalar : Bool} :
    (memo.appendGroup isScalar).groups.size = memo.groups.size + 1 := by
  simp [appendGroup]

end Append

/-! ### Growth keeps the invariant -/

/-- A group without members adds nothing to say. -/
theorem Linked.appendGroup (linked : memo.Linked) (isScalar : Bool) :
    (memo.appendGroup isScalar).Linked where
  placed stored := by
    obtain ⟨group, there, place⟩ := linked.placed stored
    refine ⟨group, ?_, place⟩
    rw [groups_appendGroup, if_neg (Nat.ne_of_lt (lt_of_group there))]
    exact there
  listed there place := by
    rw [groups_appendGroup] at there
    split at there
    · cases there
      simp at place
    · exact linked.listed there place
  family stored there := by
    obtain ⟨group, found, _⟩ := linked.placed stored
    rw [groups_appendGroup, if_neg (Nat.ne_of_lt (lt_of_group found))] at there
    exact linked.family stored there
  childExists stored member := by
    rw [size_groups_appendGroup]
    exact Nat.lt_succ_of_lt (linked.childExists stored member)
  older := linked.older
  sheets stored there place := by
    obtain ⟨group, found, _⟩ := linked.placed stored
    rw [groups_appendGroup, if_neg (Nat.ne_of_lt (lt_of_group found))] at there
    exact linked.sheets stored there place
  unique := linked.unique
  indexed := linked.indexed

section Append

variable {target : GroupId} {operator : Operator} {children : List GroupId} {group : Group}

theorem Linked.family_append (linked : memo.Linked) (there : memo.groups[target]? = some group)
    (sameFamily : operator.isScalar = group.isScalar) {id : ExprId} {expr : Expr} {owner : Group}
    (stored : (memo.append target operator children).exprs[id]? = some expr)
    (found : (memo.append target operator children).groups[expr.group]? = some owner) :
    expr.operator.isScalar = owner.isScalar := by
  have kept : ∀ {other : Group}, memo.groups[expr.group]? = some other →
      owner.isScalar = other.isScalar := by
    intro other before
    rw [groups_append] at found
    split at found <;> rw [before] at found <;> cases found <;> rfl
  rcases stored_append_iff.1 stored with old | ⟨rfl, rfl⟩
  · obtain ⟨other, before, _⟩ := linked.placed old
    rw [kept before]
    exact linked.family old before
  · rw [kept there]
    exact sameFamily

/-- A new member has the sheet of the first one, or its own sheet if it is the first one. -/
theorem Linked.sheets_append (linked : memo.Linked) (there : memo.groups[target]? = some group)
    (sameFamily : operator.isScalar = group.isScalar) {id first : ExprId} {expr : Expr}
    {owner : Group} (stored : (memo.append target operator children).exprs[id]? = some expr)
    (found : (memo.append target operator children).groups[expr.group]? = some owner)
    (place : owner.members[0]? = some first) :
    expr.sheet = if expr.operator.isScalar then some first else none := by
  have listed := (listed_append_iff there).1 ⟨owner, found, place⟩
  rcases stored_append_iff.1 stored with old | ⟨rfl, rfl⟩
  · obtain ⟨other, before, own⟩ := linked.placed old
    rcases listed with ⟨_, again, first⟩ | ⟨same, empty, _⟩
    · exact linked.sheets old again first
    · rw [same, there] at before
      cases before
      have inside : expr.position < group.members.size := (Array.getElem?_eq_some_iff.1 own).1
      exact absurd (empty ▸ inside) (Nat.not_lt_zero _)
  · rw [added_eq there] at listed ⊢
    cases family : operator.isScalar with
    | false => rfl
    | true =>
      rcases listed with ⟨_, again, place⟩ | ⟨_, empty, rfl⟩
      · cases there.symm.trans again
        simp [linked.sheet?_eq there place, ← sameFamily, family]
      · simp [sheet?_of_empty there empty.symm]

theorem Linked.indexed_append (linked : memo.Linked) {others : List GroupId} {id : ExprId} :
    id ∈ (memo.append target operator children).shapes.getD others [] ↔
      ∃ expr, (memo.append target operator children).exprs[id]? = some expr ∧
        expr.children = others := by
  rw [shapes_append]
  simp only [stored_append_iff, or_and_right, exists_or]
  split
  · rename_i same
    subst same
    rw [List.mem_append, List.mem_singleton, linked.indexed]
    exact or_congr_right ⟨fun fresh => ⟨_, ⟨fresh, rfl⟩, rfl⟩, fun ⟨_, ⟨fresh, _⟩, _⟩ => fresh⟩
  · rename_i different
    rw [linked.indexed]
    refine (or_iff_left ?_).symm
    rintro ⟨_, ⟨_, rfl⟩, shape⟩
    exact different shape

/-- A new shape of the right family over groups that exist keeps the invariant; as the first member
of its group it needs older children. -/
theorem Linked.append (linked : memo.Linked) (there : memo.groups[target]? = some group)
    (sameFamily : operator.isScalar = group.isScalar)
    (exist : ∀ child ∈ children, child < memo.groups.size)
    (ordered : group.members.size = 0 → ∀ child ∈ children, child < target)
    (absent : memo.lookup operator children = none) :
    (memo.append target operator children).Linked where
  placed stored := by
    refine (listed_append_iff there).2 ?_
    rcases stored_append_iff.1 stored with old | ⟨rfl, rfl⟩
    · exact Or.inl (linked.placed old)
    · rw [added_eq there]
      exact Or.inr ⟨rfl, rfl, rfl⟩
  listed found place := by
    rcases (listed_append_iff there).1 ⟨_, found, place⟩ with ⟨_, before, place⟩ | ⟨rfl, rfl, rfl⟩
    · obtain ⟨expr, stored, named⟩ := linked.listed before place
      exact ⟨expr, stored_append_iff.2 (Or.inl stored), named⟩
    · exact ⟨_, stored_append_iff.2 (Or.inr ⟨rfl, added_eq there⟩), rfl, rfl⟩
  family := linked.family_append there sameFamily
  childExists stored member := by
    rw [size_groups_append]
    rcases stored_append_iff.1 stored with old | ⟨rfl, rfl⟩
    · exact linked.childExists old member
    · exact exist _ member
  older stored first member := by
    rcases stored_append_iff.1 stored with old | ⟨rfl, rfl⟩
    · exact linked.older old first member
    · rw [added_eq there] at first member ⊢
      exact ordered first _ member
  sheets := linked.sheets_append there sameFamily
  unique stored again operators shapes := by
    rcases stored_append_iff.1 stored with old | ⟨fresh, rfl⟩ <;>
      rcases stored_append_iff.1 again with oldToo | ⟨freshToo, rfl⟩
    · exact linked.unique old oldToo operators shapes
    · exact absurd operators (linked.lookup_eq_none absent old shapes)
    · exact absurd (PartialEquivBEq.symm operators) (linked.lookup_eq_none absent oldToo shapes.symm)
    · exact fresh.trans freshToo.symm
  indexed := linked.indexed_append

end Append

/-- A group that got a member, or had one, has one. -/
theorem inhabited_append {target id : GroupId} {operator : Operator} {children : List GroupId}
    {group : Group} (others : ∀ {other}, memo.groups[id]? = some other → target ≠ id →
      0 < other.members.size)
    (found : (memo.append target operator children).groups[id]? = some group) :
    0 < group.members.size := by
  rw [groups_append] at found
  split at found
  · obtain ⟨owner, _, rfl⟩ := Option.map_eq_some_iff.1 found
    simp
  · rename_i different
    exact others found different

end Cascades.Memo
