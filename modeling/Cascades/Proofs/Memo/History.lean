/-
**Every history of a memo.**

A memo comes from the empty one by insertions, by closing groups, and by marking expressions. The
requests of a history come in any order and with any operands; a history ends where one of them is
refused.

* `performAll_keeps`: requests grow a valid memo and leave it valid;
* `performAll_representation`: what groups, expressions and index of a memo with a history say of
  each other.
-/

import Cascades.Proofs.Memo.Insertion

namespace Cascades.Memo

/-! ### Histories -/

/-- A call that changes a memo. -/
inductive Request where
  | insert (operator : Operator) (children : List GroupId)
  | insertInto (group : GroupId) (operator : Operator) (children : List GroupId)
  | insertProposals (group : GroupId) (proposals : List Proposal)
  | closeGroup (group : GroupId)
  | close
  | mark (expr : ExprId) (mark : Mark)

/-- The memo after a request. -/
def perform (memo : Memo) : Request → Except Fault Memo
  | .insert operator children => return (← memo.insert operator children).2
  | .insertInto group operator children => return (← memo.insertInto group operator children).2
  | .insertProposals group proposals => return (← memo.insertProposals group proposals).2
  | .closeGroup group => memo.closeGroup group
  | .close => return memo.close
  | .mark expr mark => return memo.mark expr mark

/-- The memo after some requests in order. -/
def performAll (memo : Memo) (requests : List Request) : Except Fault Memo :=
  requests.foldlM perform memo

variable {memo next : Memo}

/-! ### Closing and marking -/

/-- What the invariant says of a group is about its family and its members. -/
def Group.shown (group : Group) : Bool × Array ExprId := (group.isScalar, group.members)

/-- A change that shows nothing but the same families and members, of the same expressions. -/
structure Shows (memo next : Memo) : Prop where
  exprs : next.exprs = memo.exprs
  shapes : next.shapes = memo.shapes
  groups : ∀ id : GroupId, (next.groups[id]?).map Group.shown = (memo.groups[id]?).map Group.shown

namespace Shows

variable (shows : memo.Shows next)
include shows

theorem symm : next.Shows memo :=
  ⟨shows.exprs.symm, shows.shapes.symm, fun id => (shows.groups id).symm⟩

/-- What is shown of a group. -/
theorem group {id : GroupId} {group : Group} (there : memo.groups[id]? = some group) :
    ∃ other, next.groups[id]? = some other ∧ other.isScalar = group.isScalar ∧
      other.members = group.members := by
  have same := shows.groups id
  rw [there, Option.map_some] at same
  obtain ⟨other, found, equal⟩ := Option.map_eq_some_iff.1 same
  exact ⟨other, found, Prod.mk.inj equal⟩

theorem linked (linked : memo.Linked) : next.Linked where
  placed stored := by
    obtain ⟨group, there, place⟩ := linked.placed (shows.exprs ▸ stored)
    obtain ⟨other, found, _, same⟩ := shows.group there
    exact ⟨other, found, same ▸ place⟩
  listed found place := by
    obtain ⟨group, there, _, same⟩ := shows.symm.group found
    rw [shows.exprs]
    exact linked.listed there (same ▸ place)
  family stored found := by
    obtain ⟨group, there, same, _⟩ := shows.symm.group found
    exact (linked.family (shows.exprs ▸ stored) there).trans same
  childExists stored member := by
    obtain ⟨group, there⟩ := group_of_lt (linked.childExists (shows.exprs ▸ stored) member)
    obtain ⟨other, found, _⟩ := shows.group there
    exact lt_of_group found
  older stored := linked.older (shows.exprs ▸ stored)
  sheets stored found place := by
    obtain ⟨group, there, _, same⟩ := shows.symm.group found
    exact linked.sheets (shows.exprs ▸ stored) there (same ▸ place)
  unique stored again := linked.unique (shows.exprs ▸ stored) (shows.exprs ▸ again)
  indexed := by
    rw [shows.shapes, shows.exprs]
    exact linked.indexed

theorem grows : memo.Grows next where
  exprs stored := by
    rw [shows.exprs]
    exact stored
  groups there := by
    obtain ⟨other, found, same, members⟩ := shows.group there
    exact ⟨other, found, same, members ▸ List.prefix_rfl⟩

/-- Such a change keeps a memo valid. -/
theorem keeps : memo.Keeps next := by
  refine fun valid => ⟨⟨shows.linked valid.toLinked, fun found => ?_⟩, shows.grows⟩
  obtain ⟨group, there, _, same⟩ := shows.symm.group found
  rw [← same]
  exact valid.inhabited there

end Shows

theorem closeGroup_keeps {id : GroupId} (done : memo.closeGroup id = .ok next) :
    memo.Keeps next := by
  unfold closeGroup at done
  obtain ⟨group, _, done⟩ := bind_eq_ok_iff.1 done
  cases pure_eq_ok_iff.1 done
  refine Shows.keeps ⟨rfl, rfl, fun other => ?_⟩
  rw [Array.getElem?_modify]
  split
  · rw [Option.map_map]
    rfl
  · rfl

theorem close_keeps : memo.Keeps memo.close := by
  refine Shows.keeps ⟨rfl, rfl, fun id => ?_⟩
  show (((memo.groups.map _)[id]?).map Group.shown) = _
  rw [Array.getElem?_map, Option.map_map]
  rfl

theorem exprs_mark {id : ExprId} {mark : Mark} : (memo.mark id mark).exprs = memo.exprs := by
  unfold Memo.mark
  split <;> rfl

theorem groups_mark {id : ExprId} {mark : Mark} : (memo.mark id mark).groups = memo.groups := by
  unfold Memo.mark
  split <;> rfl

theorem mark_keeps {id : ExprId} {mark : Mark} : memo.Keeps (memo.mark id mark) := by
  unfold Memo.mark
  split
  · exact Keeps.refl memo
  · exact Shows.keeps ⟨rfl, rfl, fun _ => rfl⟩

/-! ### Histories keep the invariant -/

theorem perform_keeps {request : Request} (done : memo.perform request = .ok next) :
    memo.Keeps next := by
  cases request with
  | insert operator children =>
    obtain ⟨⟨id, last⟩, inserted, done⟩ := bind_eq_ok_iff.1 done
    cases pure_eq_ok_iff.1 done
    exact insert_keeps inserted
  | insertInto group operator children =>
    obtain ⟨⟨id, last⟩, inserted, done⟩ := bind_eq_ok_iff.1 done
    cases pure_eq_ok_iff.1 done
    exact insertInto_keeps inserted
  | insertProposals group proposals =>
    obtain ⟨⟨count, last⟩, inserted, done⟩ := bind_eq_ok_iff.1 done
    cases pure_eq_ok_iff.1 done
    exact insertProposals_keeps inserted
  | closeGroup group => exact closeGroup_keeps done
  | close =>
    cases pure_eq_ok_iff.1 done
    exact close_keeps
  | mark expr mark =>
    cases pure_eq_ok_iff.1 done
    exact mark_keeps

theorem performAll_keeps {requests : List Request} (done : memo.performAll requests = .ok next) :
    memo.Keeps next :=
  foldlM_relates Keeps.refl Keeps.trans (fun _ step => perform_keeps step) done

theorem empty_valid : Memo.empty.Valid where
  placed stored := by simp [empty] at stored
  listed there := by simp [empty] at there
  family stored := by simp [empty] at stored
  childExists stored := by simp [empty] at stored
  older stored := by simp [empty] at stored
  sheets stored := by simp [empty] at stored
  unique stored := by simp [empty] at stored
  indexed := by simp [empty]
  inhabited there := by simp [empty] at there

/-! ### What every memo says -/

/-- **A memo with a history represents its shapes faithfully.** -/
theorem performAll_representation {requests : List Request}
    (history : Memo.empty.performAll requests = .ok memo) :
    -- No two expressions have one shape, and a shape is found exactly where it is stored.
    ((∀ {id other : ExprId} {expr same : Expr}, memo.exprs[id]? = some expr →
        memo.exprs[other]? = some same → (expr.operator == same.operator) = true →
          expr.children = same.children → id = other) ∧
      ∀ (operator : Operator) (children : List GroupId) (id : ExprId),
        memo.lookup operator children = some id ↔
          ∃ expr, memo.exprs[id]? = some expr ∧ (expr.operator == operator) = true ∧
            expr.children = children) ∧
    -- An expression stands in the member lists once, at the place that it names.
    (∀ {id : ExprId} {expr : Expr}, memo.exprs[id]? = some expr →
      ∀ (group : GroupId) (position : Nat),
        (∃ owner, memo.groups[group]? = some owner ∧ owner.members[position]? = some id) ↔
          group = expr.group ∧ position = expr.position) ∧
    -- A group has members, which are expressions of its family.
    (∀ {id : GroupId} {group : Group}, memo.groups[id]? = some group →
      0 < group.members.size ∧ ∀ member ∈ group.members,
        ∃ expr, memo.exprs[member]? = some expr ∧ expr.operator.isScalar = group.isScalar) ∧
    -- Child groups exist, and those of the first member of a group are older than it.
    ((∀ {id : ExprId} {expr : Expr}, memo.exprs[id]? = some expr →
        ∀ child ∈ expr.children, child < memo.groups.size) ∧
      ∀ {id : GroupId} {group : Group} {first : ExprId} {expr : Expr},
        memo.groups[id]? = some group → group.members[0]? = some first →
          memo.exprs[first]? = some expr → ∀ child ∈ expr.children, child < id) ∧
    -- All members of a scalar group share one sheet, which no other expression has.
    ((∀ {id : GroupId} {group : Group}, memo.groups[id]? = some group → group.isScalar = true →
        ∃ sheet, memo.sheet? id = some sheet ∧ ∀ {number : ExprId} {expr : Expr},
          memo.exprs[number]? = some expr → (expr.sheet = some sheet ↔ expr.group = id)) ∧
      ∀ {number : ExprId} {expr : Expr}, memo.exprs[number]? = some expr →
        expr.sheet.isSome = expr.operator.isScalar) := by
  have valid : memo.Valid := (performAll_keeps history empty_valid).1
  have memberOf : ∀ {id : GroupId} {group : Group}, memo.groups[id]? = some group →
      ∀ member ∈ group.members, ∃ expr, memo.exprs[member]? = some expr ∧ expr.group = id ∧
        expr.operator.isScalar = group.isScalar := by
    intro id group there member listed
    obtain ⟨position, place⟩ := Array.mem_iff_getElem?.1 listed
    obtain ⟨expr, stored, rfl, _⟩ := valid.listed there place
    exact ⟨expr, stored, rfl, valid.family stored there⟩
  refine ⟨⟨valid.unique, fun _ _ _ => valid.lookup_eq_some_iff⟩, ?places, ?families,
    ⟨fun stored _ => valid.childExists stored, ?older⟩, fun there scalar => valid.shares there scalar,
    fun stored => valid.isSome_sheet stored⟩
  case places =>
    intro id expr stored group position
    constructor
    · rintro ⟨owner, there, place⟩
      obtain ⟨again, same, named, placed⟩ := valid.listed there place
      rw [stored] at same
      cases same
      exact ⟨named.symm, placed.symm⟩
    · rintro ⟨rfl, rfl⟩
      exact valid.placed stored
  case families =>
    intro id group there
    refine ⟨valid.inhabited there, fun member listed => ?_⟩
    obtain ⟨expr, stored, _, family⟩ := memberOf there member listed
    exact ⟨expr, stored, family⟩
  case older =>
    intro id group first expr there place stored child member
    obtain ⟨again, same, named, placed⟩ := valid.listed there place
    rw [stored] at same
    cases same
    exact named ▸ valid.older stored placed member

/-- A history with an exchanged join, a repeated truth, a proposal over a proposal, a mark and both ways
of closing. -/
def joinHistory : List Request :=
  [.insert (.logical (.get ⟨"shop", "orders"⟩ [])) [],
    .insert (.logical (.get ⟨"shop", "items"⟩ [])) [],
    .insert .truth [],
    .insert (.logical (.join .inner)) [0, 1, 2],
    .insertInto 3 (.logical (.join .inner)) [1, 0, 2],
    .insertInto 2 (.scalar .and) [2, 2],
    .insertProposals 3 [.node (.logical .select)
      [.node (.logical (.join .inner)) [.group 1, .group 0, .node .truth []],
        .node (.scalar .or) [.group 2, .group 2]]],
    .mark 4 (.rule "JoinCommutativity"), .closeGroup 0, .close]

theorem performAll_representation_joinHistory :
    ∃ memo truth, Memo.empty.performAll joinHistory = .ok memo ∧ memo.groups[2]? = some truth ∧
      truth.isScalar = true ∧ truth.members = #[2, 5] ∧
      (∀ (operator : Operator) (children : List GroupId) (id : ExprId),
        memo.lookup operator children = some id ↔
          ∃ expr, memo.exprs[id]? = some expr ∧ (expr.operator == operator) = true ∧
            expr.children = children) ∧
      ∃ sheet, memo.sheet? 2 = some sheet ∧ ∀ {number : ExprId} {expr : Expr},
        memo.exprs[number]? = some expr → (expr.sheet = some sheet ↔ expr.group = 2) := by
  have run : (Memo.empty.performAll joinHistory).toOption.map (fun memo =>
      (memo.groups[2]?).map fun truth => (truth.isScalar, truth.members)) =
      some (some (true, #[2, 5])) := by decide +kernel
  cases history : Memo.empty.performAll joinHistory with
  | error cause =>
    rw [history] at run
    cases run
  | ok memo =>
    rw [history] at run
    obtain ⟨truth, there, run⟩ := Option.map_eq_some_iff.1 (Option.some.inj run)
    obtain ⟨scalar, members⟩ := Prod.mk.inj run
    obtain ⟨⟨_, found⟩, _, _, _, share, _⟩ := performAll_representation history
    exact ⟨memo, truth, rfl, there, scalar, members, found, share there scalar⟩

end Cascades.Memo
