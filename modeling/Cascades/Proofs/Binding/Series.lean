/-
**The bindings of a pattern, by recursion over the pattern and the memo.**

The bindings of an expression are the lexicographic product of the bindings of its children, those of
a relational group the bindings of its logical members one after another, and a scalar group has only
the first binding of all its members. A memo may lead from a group back to itself, so the recursion
need not end; a `Series` is what is known of a list after some levels of it: its first values, and
whether they are all.

* `Series.ofGroup`, `Series.ofExpr`: the bindings, as far as a number of levels shows them;
* `Listing.Agrees`: a listing is a first part of a series, and all of it where it ends without a
  failure;
* `Listing.agrees`: the listings that cursors give agree with the bindings.
-/

import Cascades.Proofs.Action
import Cascades.Proofs.Binding.Resumption

namespace Cascades

/-! ### Series -/

/-- The values that are known of a list, from the first one on, and whether the list ends there. -/
structure Series (α : Type) where
  known : List α
  ended : Bool

namespace Series

variable {α β : Type}

/-- Nothing is known. -/
def unknown : Series α := ⟨[], false⟩

/-- The list without values. -/
def nil : Series α := ⟨[], true⟩

/-- One list after another. -/
def append (first rest : Series α) : Series α :=
  if first.ended then ⟨first.known ++ rest.known, rest.ended⟩ else first

/-- Lists one after another. -/
def concat (parts : List (Series α)) : Series α := parts.foldr append nil

/-- The list with its first value only. -/
def head (series : Series α) : Series α :=
  match series.known with
  | [] => series
  | first :: _ => ⟨[first], true⟩

/-- Every value in front of every list, the lists changing faster. As long as not all lists are
known, only those with the first value in front are. -/
def cross (heads : Series α) (tails : Series (List α)) : Series (List α) :=
  match heads.known with
  | [] => ⟨[], heads.ended⟩
  | first :: _ =>
    if tails.ended then
      ⟨heads.known.flatMap fun value => tails.known.map (value :: ·),
        heads.ended || tails.known.isEmpty⟩
    else ⟨tails.known.map (first :: ·), false⟩

/-- All lists with one value of each factor, the last one changing fastest. -/
def product (factors : List (Series α)) : Series (List α) := factors.foldr cross ⟨[[]], true⟩

/-- The list with its values changed. -/
def map (change : α → β) (series : Series α) : Series β := ⟨series.known.map change, series.ended⟩

mutual

/-- The bindings of a pattern in a group, as far as some levels of recursion show them. -/
def ofGroup (memo : Memo) : (levels : Nat) → GroupId → Pattern → Series Binding
  | 0, _, _ => unknown
  | levels + 1, id, pattern =>
    match memo.groups[id]? with
    | none => unknown
    | some group =>
      if group.isScalar then
        head (concat (group.members.toList.map fun member => ofExpr memo levels member pattern))
      else
        concat ((memo.logicalMembers group).map fun member => ofExpr memo levels member pattern)

/-- The bindings of a pattern whose root is a given expression, as far as some levels of recursion
show them. -/
def ofExpr (memo : Memo) : (levels : Nat) → ExprId → Pattern → Series Binding
  | 0, _, _ => unknown
  | levels + 1, id, pattern =>
    match memo.exprs[id]? with
    | none => unknown
    | some expr =>
      let node := Binding.node id expr.group expr.operator
      if !pattern.matchesRoot expr.operator expr.arity then nil
      else if pattern.isLeaf then ⟨[node []], true⟩
      else
        (product (expr.children.zipIdx.map fun (child, position) =>
          match pattern.child position expr.arity with
          | .ok below => ofGroup memo levels child below
          | .error _ => unknown)).map node

end

end Series

/-! ### Agreement with a listing -/

namespace Listing

variable {α β : Type}

/-- A listing is a first part of a series, all of it if it ends without a failure, and nothing but a
guard makes it end otherwise. -/
structure Agrees (listing : Listing α) (series : Series α) : Prop where
  initial : listing.found <+: series.known
  complete : listing.failure = none → series = ⟨listing.found, true⟩
  stopped : ∀ failure, listing.failure = some failure → failure.Allowed fun _ => False

variable {listing : Listing α} {series : Series α}

theorem agrees_nil : Agrees (nil : Listing α) Series.nil where
  initial := List.prefix_refl []
  complete _ := rfl
  stopped := nofun

theorem agrees_single {value : α} : Agrees ⟨[value], none⟩ ⟨[value], true⟩ where
  initial := List.prefix_refl _
  complete _ := rfl
  stopped := nofun

/-- Where nothing was found before a guard stopped it, nothing is claimed. -/
theorem agrees_fail {failure : Failure} (stopped : failure.Allowed fun _ => False) :
    Agrees (fail failure) series where
  initial := List.nil_prefix
  complete := nofun
  stopped _ same := Option.some.inj same ▸ stopped

/-- What a listing that ended without a failure tells. -/
theorem Agrees.eq_of_none {found : List α} (agrees : Agrees ⟨found, none⟩ series) :
    series = ⟨found, true⟩ := agrees.complete rfl

theorem Agrees.map {change : α → β} (agrees : Agrees listing series) :
    Agrees (listing.map change) (series.map change) where
  initial := agrees.initial.map change
  complete ended := by
    rw [agrees.complete ended]
    rfl
  stopped := agrees.stopped

/-- Listings one after another agree with series one after another. -/
theorem agrees_concat {list : β → Listing α} {part : β → Series α} {members : List β}
    (each : ∀ member ∈ members, Agrees (list member) (part member)) :
    Agrees (concatMap list members) (Series.concat (members.map part)) := by
  induction members with
  | nil => exact agrees_nil
  | cons member members ih =>
    have one := each member List.mem_cons_self
    have others := ih fun other there => each other (List.mem_cons_of_mem _ there)
    show Agrees _ (Series.append (part member) (Series.concat (members.map part)))
    cases failed : (list member).failure with
    | none =>
      rw [concatMap_cons_of_none list failed, one.complete failed]
      refine ⟨(List.prefix_append_right_inj _).2 others.initial, fun ended => ?_, others.stopped⟩
      rw [others.complete ended]
      rfl
    | some failure =>
      rw [concatMap_cons_of_failure list failed]
      refine ⟨?_, fun ended => (Option.some_ne_none _ (failed.symm.trans ended)).elim, one.stopped⟩
      unfold Series.append
      split
      · exact one.initial.trans (List.prefix_append _ _)
      · exact one.initial

/-- The first value of a listing agrees with the first of a series. -/
theorem agrees_head (agrees : Agrees listing series) :
    Agrees (ofExcept ((Cursor.firstResult listing.found listing.failure).map
      fun first => ⟨first.toList, none⟩)) series.head := by
  obtain ⟨_ | ⟨first, rest⟩, _ | failure⟩ := listing
  · rw [agrees.eq_of_none]
    exact agrees_nil
  · exact agrees_fail (agrees.stopped failure rfl)
  all_goals
    obtain ⟨others, known⟩ := agrees.initial
    rw [Series.head, ← known]
    exact agrees_single

/-- One more factor, which has a first value, agrees with one more factor. -/
theorem agrees_times {value : α} {rest : List α} {heads : Listing α} {tails : Listing (List α)}
    {factor : Series α} {others : Series (List α)} (values : heads.found = value :: rest)
    (one : Agrees heads factor) (more : Agrees tails others) :
    Agrees (times value heads tails) (Series.cross factor others) := by
  obtain ⟨after, known⟩ := one.initial
  rw [values, List.cons_append] at known
  have crossed : Series.cross factor others =
      if others.ended then
        ⟨factor.known.flatMap fun value => others.known.map (value :: ·),
          factor.ended || others.known.isEmpty⟩
      else ⟨others.known.map (value :: ·), false⟩ := by
    rw [Series.cross, ← known]
  rw [crossed]
  obtain ⟨_ | ⟨tail, found⟩, _ | failure⟩ := tails
  · rw [more.eq_of_none]
    refine ⟨List.nil_prefix, fun _ => ?_, nofun⟩
    simp [times, nil]
  · exact ⟨List.nil_prefix, nofun, more.stopped⟩
  · rw [more.eq_of_none]
    refine ⟨?_, fun ended => ?_, one.stopped⟩
    · show heads.found.flatMap _ <+: factor.known.flatMap _
      rw [values, ← known, ← List.cons_append, List.flatMap_append]
      exact List.prefix_append _ _
    · rw [one.complete ended]
      show Series.mk _ (true || _) = Series.mk _ true
      rw [Bool.true_or]
      rfl
  · refine ⟨?_, nofun, more.stopped⟩
    have initial : (tail :: found).map (value :: ·) <+: others.known.map (value :: ·) :=
      more.initial.map _
    split
    · rw [← known, List.flatMap_cons]
      exact initial.trans (List.prefix_append _ _)
    · exact initial

/-- The product of listings agrees with the product of series, if every first value is the first of
its listing. -/
theorem agrees_product {start : β → Except Failure (Option α)} {list : β → Listing α}
    {factor : β → Series α} {children : List β}
    (first : ∀ child ∈ children,
      start child = Cursor.firstResult (list child).found (list child).failure)
    (each : ∀ child ∈ children, Agrees (list child) (factor child)) :
    Agrees (product start list children) (Series.product (children.map factor)) := by
  induction children with
  | nil => exact agrees_single
  | cons child children ih =>
    have one := each child List.mem_cons_self
    have begins := first child List.mem_cons_self
    have others := ih (fun other there => first other (List.mem_cons_of_mem _ there))
      fun other there => each other (List.mem_cons_of_mem _ there)
    show Agrees _ (Series.cross (factor child) (Series.product (children.map factor)))
    cases begun : start child with
    | error failure =>
      obtain ⟨_, failed⟩ := Cursor.firstResult_eq_error (begins.symm.trans begun)
      rw [product_cons_of_error begun]
      exact agrees_fail (one.stopped failure failed)
    | ok found =>
      cases found with
      | none =>
        obtain ⟨empty, ended⟩ := Cursor.firstResult_eq_none (begins.symm.trans begun)
        rw [product_cons_of_none begun, one.complete ended, empty]
        exact agrees_nil
      | some value =>
        obtain ⟨rest, values⟩ := Cursor.firstResult_eq_some (begins.symm.trans begun)
        rw [product_cons_of_some begun]
        exact agrees_times values one others

end Listing

/-! ### The pattern of a child -/

/-- A leaf matches every root. -/
theorem Pattern.matchesRoot_of_isLeaf {pattern : Pattern} (operator : Operator) (arity : Nat)
    (stops : pattern.isLeaf = true) : pattern.matchesRoot operator arity = true := by
  cases pattern with
  | leaf | leaves => rfl
  | node | tree | trees => cases stops

/-- Below a root that matches, every child has a pattern. -/
theorem Pattern.child_ok {pattern : Pattern} {operator : Operator} {position arity : Nat}
    (root : pattern.matchesRoot operator arity = true) (inner : pattern.isLeaf = false)
    (inside : position < arity) : ∃ part, pattern.child position arity = .ok part := by
  unfold Pattern.child
  rw [if_neg (Nat.not_le_of_lt inside)]
  cases pattern with
  | leaf => cases inner
  | leaves => cases inner
  | tree => exact ⟨_, rfl⟩
  | trees => exact ⟨_, rfl⟩
  | node matcher children =>
    have arities := (Bool.and_eq_true_iff.1 root).2
    cases repeated : Pattern.repeatedFirst? children with
    | none =>
      simp only [repeated] at arities ⊢
      have counts : arity = children.length := of_decide_eq_true arities
      rw [List.getElem?_eq_getElem (counts ▸ inside)]
      exact ⟨_, rfl⟩
    | some first =>
      simp only [repeated]
      by_cases last : position + 1 = arity
      · cases children with
        | nil => cases repeated
        | cons head tail =>
          rw [if_pos last, List.getLast?_eq_some_getLast (List.cons_ne_nil head tail)]
          exact ⟨_, rfl⟩
      · rw [if_neg last]
        exact ⟨first, rfl⟩

/-! ### Listings are right -/

namespace Listing

variable {memo : Memo} {guard : Guard}

/-- The first result of the cursor over the members of a scalar group is the first of their
listings. -/
theorem firstOf_eq {room : Nat} {pattern : Pattern} {group : Group} (valid : memo.Valid)
    (scalar : group.isScalar = true) (members : List ExprId) :
    Cursor.firstOf memo guard room pattern group members =
      Cursor.firstResult
        (concatMap (fun member => inExpr memo guard room member pattern) members).found
        (concatMap (fun member => inExpr memo guard room member pattern) members).failure := by
  induction members with
  | nil => rfl
  | cons member members ih =>
    have visited : Cursor.visit memo guard room pattern group none member =
        Cursor.nextInExpr memo guard room member pattern none := by
      rw [Cursor.visit, scalar]
      rfl
    rw [Cursor.firstOf_cons, visited, ((Cursor.gives valid guard room).2 member pattern).start_eq, ih]
    cases failed : (inExpr memo guard room member pattern).failure with
    | none =>
      rw [concatMap_cons_of_none (fun member => inExpr memo guard room member pattern) failed]
      cases (inExpr memo guard room member pattern).found <;> rfl
    | some failure =>
      rw [concatMap_cons_of_failure (fun member => inExpr memo guard room member pattern) failed,
        failed]
      cases (inExpr memo guard room member pattern).found <;> rfl

/-- The listing of an expression agrees with its bindings, if the listings of groups below do. -/
theorem agrees_inExpr {room levels : Nat} (valid : memo.Valid)
    (groups : ∀ child pattern, child < memo.groups.size →
      Agrees (inGroup memo guard room child pattern) (Series.ofGroup memo levels child pattern))
    {id : ExprId} (present : id < memo.exprs.size) (pattern : Pattern) :
    Agrees (inExpr memo guard (room + 1) id pattern)
      (Series.ofExpr memo (levels + 1) id pattern) := by
  have stored : memo.exprs[id]? = some memo.exprs[id] := Array.getElem?_eq_getElem present
  generalize memo.exprs[id] = expr at stored
  cases running : guard.cancelled with
  | true =>
    rw [inExpr, running]
    exact agrees_fail Guard.refusal_stops
  | false =>
    rw [Series.ofExpr, stored]
    cases root : pattern.matchesRoot expr.operator expr.arity with
    | false =>
      rw [(Cursor.inExpr_of_mismatch running stored room root).1]
      show Agrees nil (if (!pattern.matchesRoot expr.operator expr.arity) = true then _ else _)
      rw [root]
      exact agrees_nil
    | true =>
      show Agrees _ (if (!pattern.matchesRoot expr.operator expr.arity) = true then _
        else if pattern.isLeaf = true then _ else _)
      rw [root]
      cases inner : pattern.isLeaf with
      | true =>
        rw [(Cursor.inExpr_of_leaf running stored root room inner).1]
        exact agrees_single
      | false =>
        rw [Cursor.inExpr_eq running stored root inner]
        refine (agrees_product (fun wheel _ => ?_) fun wheel member => ?_).map
        · exact (Cursor.gives_below (Cursor.gives valid guard room).1 wheel).start_eq
        · obtain ⟨child, position⟩ := wheel
          obtain ⟨_, bound, same⟩ := List.mem_zipIdx member
          rw [Nat.zero_add] at bound
          obtain ⟨part, found⟩ := Pattern.child_ok root inner bound
          have below : child < memo.groups.size :=
            valid.childExists stored (same ▸ List.getElem_mem _)
          show Agrees (ofExcept (_ >>= _)) (match pattern.child position expr.arity with
            | .ok below => Series.ofGroup memo levels child below
            | .error _ => Series.unknown)
          rw [found]
          exact groups child part below

/-- The listing in a group agrees with its bindings, if the listings of expressions below do. -/
theorem agrees_inGroup {room levels : Nat} (valid : memo.Valid)
    (exprs : ∀ member pattern, member < memo.exprs.size →
      Agrees (inExpr memo guard room member pattern) (Series.ofExpr memo levels member pattern))
    {id : GroupId} (present : id < memo.groups.size) (pattern : Pattern) :
    Agrees (inGroup memo guard (room + 1) id pattern)
      (Series.ofGroup memo (levels + 1) id pattern) := by
  obtain ⟨group, there⟩ := Memo.group_of_lt present
  have each : ∀ member ∈ group.members.toList, Agrees (inExpr memo guard room member pattern)
      (Series.ofExpr memo levels member pattern) := by
    intro member listed
    obtain ⟨position, place⟩ := List.getElem?_of_mem listed
    rw [Array.getElem?_toList] at place
    obtain ⟨expr, stored, _⟩ := valid.listed there place
    exact exprs member pattern (Memo.lt_of_expr stored)
  cases running : guard.cancelled with
  | true =>
    rw [inGroup, running]
    exact agrees_fail Guard.refusal_stops
  | false =>
    rw [Series.ofGroup, there]
    show Agrees _ (if group.isScalar = true then _ else _)
    cases scalar : group.isScalar with
    | true =>
      rw [Cursor.inGroup_of_scalar running there scalar, Cursor.nextInGroup_none running there,
        firstOf_eq valid scalar]
      exact agrees_head (agrees_concat each)
    | false =>
      rw [Cursor.inGroup_eq running there scalar]
      exact agrees_concat fun member listed => each member (List.mem_of_mem_filter listed)

/-- **Listings agree with the bindings**, as far as any number of levels shows them that the guard
does not exceed. -/
theorem agrees (valid : memo.Valid) (room : Nat) {levels : Nat} (enough : room ≤ levels) :
    (∀ id pattern, id < memo.groups.size →
      Agrees (inGroup memo guard room id pattern) (Series.ofGroup memo levels id pattern)) ∧
    (∀ id pattern, id < memo.exprs.size →
      Agrees (inExpr memo guard room id pattern) (Series.ofExpr memo levels id pattern)) := by
  induction room generalizing levels with
  | zero =>
    exact ⟨fun _ _ _ => agrees_fail Guard.refusal_stops,
      fun _ _ _ => agrees_fail Guard.refusal_stops⟩
  | succ room ih =>
    obtain ⟨levels, rfl⟩ := Nat.exists_eq_add_of_lt enough
    rw [show room + levels + 1 = (room + levels) + 1 from rfl]
    obtain ⟨groups, exprs⟩ := ih (Nat.le_add_right room levels)
    exact ⟨fun id pattern present => agrees_inGroup valid exprs present pattern,
      fun id pattern present => agrees_inExpr valid groups present pattern⟩

end Listing

end Cascades
