/-
**Bindings are drawn from the memo.**

Every node of a listed binding is a stored expression with its own operator and group. Where the
pattern goes on below it, its children bind its child groups in order, each under the pattern that
belongs to its position.

* `Drawn`: what a listed binding shows of the memo;
* `drawn_ofExpr`: all listed bindings are drawn;
* `Rule.exists_of_proposals`: a rule proposes for drawn bindings only.
-/

import Cascades.Proofs.Binding.Series
import Cascades.Rule.Basic

namespace Cascades

/-! ### Listed values -/

namespace Listing

variable {α β : Type} {start : β → Except Failure (Option α)} {list : β → Listing α}

theorem mem_concatMap {members : List β} {value : α}
    (found : value ∈ (concatMap list members).found) :
    ∃ member ∈ members, value ∈ (list member).found := by
  induction members with
  | nil => cases found
  | cons head tail ih =>
    cases ended : (list head).failure with
    | none =>
      rw [concatMap_cons_of_none list ended] at found
      rcases List.mem_append.1 found with first | later
      · exact ⟨head, List.mem_cons_self, first⟩
      · obtain ⟨member, there, listed⟩ := ih later
        exact ⟨member, List.mem_cons_of_mem _ there, listed⟩
    | some failure =>
      rw [concatMap_cons_of_failure list ended] at found
      exact ⟨head, List.mem_cons_self, found⟩

/-- A combination has a value of each factor in its place. -/
theorem forall₂_of_mem_product {each : β → α → Prop} {children : List β}
    (first : ∀ child head, start child = .ok (some head) → each child head)
    (others : ∀ child, ∀ value ∈ (list child).found, each child value) {combination : List α}
    (member : combination ∈ (product start list children).found) :
    List.Forall₂ each children combination := by
  induction children generalizing combination with
  | nil =>
    rw [List.mem_singleton.1 member]
    exact .nil
  | cons child rest ih =>
    cases begins : start child with
    | error failure =>
      rw [product_cons_of_error begins] at member
      cases member
    | ok found =>
      cases found with
      | none =>
        rw [product_cons_of_none begins] at member
        cases member
      | some head =>
        rw [product_cons_of_some begins] at member
        generalize product start list rest = tails at member ih
        obtain ⟨_ | ⟨_, _⟩, _ | _⟩ := tails
        · cases member
        · cases member
        · obtain ⟨value, listed, found⟩ := List.mem_flatMap.1 member
          obtain ⟨tail, there, rfl⟩ := List.mem_map.1 found
          exact .cons (others child value listed) (ih there)
        · obtain ⟨tail, there, rfl⟩ := List.mem_map.1 member
          exact .cons (first child head begins) (ih there)

end Listing

/-! ### Drawn bindings -/

namespace Binding

open Cursor (nodeOf)

/-- A binding of a pattern shows stored expressions over their child groups. -/
inductive Drawn (memo : Memo) : Pattern → Binding → Prop
  | leaf {pattern : Pattern} {id : ExprId} {expr : Expr} (stops : pattern.isLeaf = true)
      (stored : memo.exprs[id]? = some expr) : Drawn memo pattern (nodeOf id expr [])
  | node {pattern : Pattern} {id : ExprId} {expr : Expr} {children : List Binding}
      (inner : pattern.isLeaf = false) (stored : memo.exprs[id]? = some expr)
      (root : pattern.matchesRoot expr.operator expr.arity = true)
      (groups : children.map group = expr.children)
      (below : ∀ position child part, children[position]? = some child →
        pattern.child position expr.arity = .ok part → Drawn memo part child) :
      Drawn memo pattern (nodeOf id expr children)

/-- Bindings that belong one by one to numbered groups. -/
theorem of_zipIdx {own : Nat → Binding → Prop} {groups : List GroupId} {bindings : List Binding}
    {offset : Nat} (each : List.Forall₂ (fun (wheel : GroupId × Nat) child =>
      child.group = wheel.1 ∧ own wheel.2 child) (groups.zipIdx offset) bindings) :
    bindings.map group = groups ∧
      ∀ position child, bindings[position]? = some child → own (offset + position) child := by
  induction groups generalizing bindings offset with
  | nil =>
    cases each
    exact ⟨rfl, fun position child place => by simp at place⟩
  | cons first groups ih =>
    cases each with
    | cons one others =>
      obtain ⟨named, owned⟩ := ih others
      refine ⟨by rw [List.map_cons, one.1, named], fun position child place => ?_⟩
      cases position with
      | zero =>
        cases place
        exact one.2
      | succ position =>
        have later := owned position child place
        rwa [Nat.add_assoc, Nat.add_comm 1 position] at later

end Binding

namespace Listing

variable {memo : Memo} {guard : Guard}

/-- The listing of an expression is drawn, if the listings of groups below are. -/
theorem drawn_inExpr {room : Nat} (valid : memo.Valid)
    (groups : ∀ child pattern, ∀ binding ∈ (inGroup memo guard room child pattern).found,
      binding.group = child ∧ binding.Drawn memo pattern) {id : ExprId} {pattern : Pattern}
    {binding : Binding} (member : binding ∈ (inExpr memo guard (room + 1) id pattern).found) :
    binding.Drawn memo pattern := by
  cases running : guard.cancelled with
  | true =>
    rw [inExpr, running] at member
    cases member
  | false =>
    cases stored : memo.exprs[id]? with
    | none =>
      rw [inExpr, running, stored] at member
      cases member
    | some expr =>
      cases root : pattern.matchesRoot expr.operator expr.arity with
      | false =>
        rw [(Cursor.inExpr_of_mismatch running stored room root).1] at member
        cases member
      | true =>
        cases inner : pattern.isLeaf with
        | true =>
          rw [(Cursor.inExpr_of_leaf running stored root room inner).1] at member
          rw [List.mem_singleton.1 member]
          exact .leaf inner stored
        | false =>
          rw [Cursor.inExpr_eq running stored root inner] at member
          obtain ⟨children, combined, rfl⟩ := List.mem_map.1 member
          let own (position : Nat) (child : Binding) : Prop :=
            ∀ part, pattern.child position expr.arity = .ok part → child.Drawn memo part
          -- The first binding of a child is listed as well.
          have wheels : List.Forall₂ (fun (wheel : GroupId × Nat) (child : Binding) =>
              child.group = wheel.1 ∧ own wheel.2 child) expr.children.zipIdx children := by
            have listed : ∀ wheel : GroupId × Nat, ∀ child ∈
                (Cursor.listingBelow memo guard room pattern expr.arity wheel).found,
                child.group = wheel.1 ∧ own wheel.2 child := by
              intro wheel child found
              unfold Cursor.listingBelow at found
              cases part : pattern.child wheel.2 expr.arity with
              | error cause =>
                rw [part] at found
                cases found
              | ok below =>
                rw [part] at found
                obtain ⟨same, drawn⟩ := groups wheel.1 below child found
                refine ⟨same, fun other equal => ?_⟩
                rw [part] at equal
                cases equal
                exact drawn
            refine forall₂_of_mem_product (fun wheel head begins => ?_) listed combined
            have below : Cursor.opening (Cursor.below memo guard room pattern expr.arity) wheel = _ :=
              (Cursor.gives_below (Cursor.gives valid guard room).1 wheel).start_eq
            obtain ⟨rest, same⟩ := Cursor.firstResult_eq_some (below.symm.trans begins)
            exact listed wheel head (same ▸ List.mem_cons_self)
          obtain ⟨named, below⟩ := Binding.of_zipIdx wheels
          refine .node inner stored root named fun position child part place given => ?_
          exact below position child place part (by simpa using given)

/-- The listing of a group is drawn, if the listings of its members are. -/
theorem drawn_inGroup {room : Nat} (valid : memo.Valid)
    (exprs : ∀ id pattern, ∀ binding ∈ (inExpr memo guard room id pattern).found,
      binding.Drawn memo pattern) {id : GroupId} {pattern : Pattern} {binding : Binding}
    (member : binding ∈ (inGroup memo guard (room + 1) id pattern).found) :
    binding.group = id ∧ binding.Drawn memo pattern := by
  cases running : guard.cancelled with
  | true =>
    rw [inGroup, running] at member
    cases member
  | false =>
    cases there : memo.groups[id]? with
    | none =>
      rw [inGroup, running, there] at member
      cases member
    | some group =>
      have listed : ∃ expr ∈ group.members.toList,
          binding ∈ (inExpr memo guard room expr pattern).found := by
        cases scalar : group.isScalar with
        | false =>
          rw [Cursor.inGroup_eq running there scalar] at member
          obtain ⟨expr, inGroup, found⟩ := mem_concatMap member
          exact ⟨expr, List.mem_of_mem_filter inGroup, found⟩
        | true =>
          rw [Cursor.inGroup_of_scalar running there scalar,
            Cursor.nextInGroup_none running there, firstOf_eq valid scalar] at member
          cases first : Cursor.firstResult
              (concatMap (fun expr => inExpr memo guard room expr pattern) group.members.toList).found
              (concatMap (fun expr => inExpr memo guard room expr pattern)
                group.members.toList).failure with
          | error failure =>
            rw [first] at member
            cases member
          | ok found =>
            rw [first] at member
            cases found with
            | none => cases member
            | some head =>
              obtain ⟨rest, same⟩ := Cursor.firstResult_eq_some first
              rw [List.mem_singleton.1 member]
              exact mem_concatMap (same ▸ List.mem_cons_self)
      obtain ⟨expr, inGroup, found⟩ := listed
      refine ⟨?_, exprs expr pattern binding found⟩
      obtain ⟨position, place⟩ := Array.mem_iff_getElem?.1 (Array.mem_toList_iff.1 inGroup)
      obtain ⟨stored, same, named, _⟩ := valid.listed there place
      obtain ⟨again, children, equal, rfl⟩ := Cursor.root_of_mem_inExpr found
      rw [same] at equal
      cases equal
      exact named

/-- All listed bindings are drawn, at every level of recursion. -/
theorem drawn (valid : memo.Valid) (room : Nat) :
    (∀ id pattern, ∀ binding ∈ (inGroup memo guard room id pattern).found,
      binding.group = id ∧ binding.Drawn memo pattern) ∧
    ∀ id pattern, ∀ binding ∈ (inExpr memo guard room id pattern).found,
      binding.Drawn memo pattern := by
  induction room with
  | zero => exact ⟨fun _ _ _ found => (nomatch found), fun _ _ _ found => (nomatch found)⟩
  | succ room ih =>
    exact ⟨fun _ _ _ found => drawn_inGroup valid ih.2 found,
      fun _ _ _ found => drawn_inExpr valid ih.1 found⟩

/-- **The bindings of an expression are drawn from the memo** and have it at the root. -/
theorem drawn_ofExpr (valid : memo.Valid) {id : ExprId} {pattern : Pattern} {binding : Binding}
    (found : binding ∈ (ofExpr memo guard id pattern).found) :
    binding.Drawn memo pattern ∧ ∃ expr children, memo.exprs[id]? = some expr ∧
      binding = Cursor.nodeOf id expr children :=
  ⟨(drawn valid guard.room).2 id pattern binding found, Cursor.root_of_mem_inExpr found⟩

/-- The bindings of an expression show its operator over its child groups. -/
theorem shows_ofExpr (valid : memo.Valid) {id : ExprId} {expr : Expr}
    (stored : memo.exprs[id]? = some expr) {pattern : Pattern} (inner : pattern.isLeaf = false)
    {binding : Binding} (found : binding ∈ (ofExpr memo guard id pattern).found) :
    binding.Drawn memo pattern ∧ binding.operator = expr.operator ∧ binding.group = expr.group ∧
      binding.childGroups = expr.children := by
  obtain ⟨drawn, other, children, there, rfl⟩ := drawn_ofExpr valid found
  rw [stored] at there
  cases there
  refine ⟨drawn, rfl, rfl, ?_⟩
  generalize shown : Cursor.nodeOf id expr children = binding at drawn
  cases drawn with
  | leaf stops _ =>
    rw [inner] at stops
    cases stops
  | node _ again _ groups _ =>
    obtain ⟨rfl, _, _, rfl⟩ := Binding.node.inj shown
    rw [stored] at again
    cases again
    exact groups

end Listing

/-- Whatever a rule proposes for an expression it proposes for some binding. -/
theorem Rule.exists_of_mem_proposals {rule : Rule} {context : Context} {id : ExprId}
    {proposals : List Proposal} (done : rule.proposals context id = .ok proposals)
    {proposal : Proposal} (member : proposal ∈ proposals) :
    ∃ binding ∈ (Listing.ofExpr context.memo context.guard id rule.pattern).found,
      ∃ alternatives, rule.transform context binding = .ok alternatives ∧
        proposal ∈ alternatives := by
  obtain ⟨proposed, each, done⟩ := bind_eq_ok_iff.1 done
  split at done
  · cases done
  · obtain rfl := pure_eq_ok_iff.1 done
    obtain ⟨alternatives, among, inside⟩ := List.mem_flatten.1 member
    obtain ⟨binding, found, transformed⟩ := (mem_mapM_iff each).1 among
    obtain ⟨_, _, transformed⟩ := bind_eq_ok_iff.1 transformed
    exact ⟨binding, found, alternatives, transformed, inside⟩

/-- Whatever a rule proposes for an expression it proposes for a binding that shows the expression. -/
theorem Rule.exists_of_proposals {rule : Rule} {context : Context} (valid : context.memo.Valid)
    {id : ExprId} {expr : Expr} (stored : context.memo.exprs[id]? = some expr)
    {proposals : List Proposal} (done : rule.proposals context id = .ok proposals)
    {proposal : Proposal} (member : proposal ∈ proposals) :
    ∃ binding alternatives, binding.Drawn context.memo rule.pattern ∧
      binding.group = expr.group ∧ rule.transform context binding = .ok alternatives ∧
      proposal ∈ alternatives := by
  obtain ⟨_, found, alternatives, transformed, inside⟩ := exists_of_mem_proposals done member
  obtain ⟨drawn, root, children, there, rfl⟩ := Listing.drawn_ofExpr valid found
  rw [stored] at there
  cases there
  exact ⟨_, alternatives, drawn, rfl, transformed, inside⟩

end Cascades
