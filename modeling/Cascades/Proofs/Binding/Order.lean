/-
**The cursor goes on upwards.**

A binding has a place for each of its nodes, in the group of the node. Handed a binding of the memo,
the cursor gives one that has a higher place where the two first differ, reading the root first and then
the children from the left, or it ends, or a guard stops it. It need not have given that binding itself
and the memo may have grown since, so all that is known of it is that it is drawn from the memo.

* `Binding.places`: the places of a binding, from the root on and from the left;
* `Branches`: two lists that first differ in an entry that both have;
* `Binding.Lies`: a binding of a pattern in a group; it stays one while the memo grows;
* `turnOn_ends`: a turn of the children goes upwards;
* `next_ends`: so does the cursor.
-/

import Cascades.Proofs.Binding.Drawn
import Cascades.Proofs.Plan.Tree
import Mathlib.Data.List.Lex

namespace Cascades

open Plan (placeOf)

/-! ### Lists that branch -/

/-- Two lists are equal in front of an entry that is lower in the first. -/
def Branches (first second : List Nat) : Prop :=
  ∃ (front : List Nat) (low high : Nat) (rest others : List Nat),
    first = front ++ low :: rest ∧ second = front ++ high :: others ∧ low < high

namespace Branches

variable {first second : List Nat}

theorem cons {low high : Nat} {rest others : List Nat} (lower : low < high) :
    Branches (low :: rest) (high :: others) := ⟨[], low, high, rest, others, rfl, rfl, lower⟩

theorem append_left (branches : Branches first second) (front : List Nat) :
    Branches (front ++ first) (front ++ second) := by
  obtain ⟨shared, low, high, rest, others, rfl, rfl, lower⟩ := branches
  exact ⟨front ++ shared, low, high, rest, others, (List.append_assoc ..).symm,
    (List.append_assoc ..).symm, lower⟩

theorem append_right (branches : Branches first second) (rest others : List Nat) :
    Branches (first ++ rest) (second ++ others) := by
  obtain ⟨shared, low, high, tail, more, rfl, rfl, lower⟩ := branches
  exact ⟨shared, low, high, tail ++ rest, more ++ others, by simp, by simp, lower⟩

/-- The lexicographic order. -/
theorem lt (branches : Branches first second) : first < second := by
  obtain ⟨front, low, high, rest, others, rfl, rfl, lower⟩ := branches
  induction front with
  | nil => exact List.Lex.rel lower
  | cons entry front ih => exact List.Lex.cons ih

end Branches

/-! ### Places -/

namespace Binding

variable {memo next : Memo} {id : GroupId} {pattern : Pattern} {binding : Binding}

mutual

/-- The places of the expressions of a binding in their groups, the root first. -/
def places (memo : Memo) : Binding → List Nat
  | node expr _ _ children => placeOf memo expr :: placesOfAll memo children

/-- The places of some bindings one after another. -/
def placesOfAll (memo : Memo) : List Binding → List Nat
  | [] => []
  | first :: rest => places memo first ++ placesOfAll memo rest

end

/-- Bindings whose roots have different places branch there. -/
theorem branches_of_placeOf {other : Binding}
    (lower : placeOf memo binding.expr < placeOf memo other.expr) :
    Branches (binding.places memo) (other.places memo) := by
  obtain ⟨_, _, _, _⟩ := binding
  obtain ⟨_, _, _, _⟩ := other
  exact .cons lower

/-! ### Bindings of a pattern in a group -/

/-- A binding of a pattern in a group. -/
structure Lies (memo : Memo) (id : GroupId) (pattern : Pattern) (binding : Binding) : Prop where
  home : binding.group = id
  drawn : binding.Drawn memo pattern

/-- The root of a drawn binding is stored. -/
theorem Drawn.exists_root (drawn : binding.Drawn memo pattern) :
    ∃ expr children, memo.exprs[binding.expr]? = some expr ∧
      binding = Cursor.nodeOf binding.expr expr children := by
  cases drawn with
  | leaf _ stored => exact ⟨_, _, stored, rfl⟩
  | node _ stored _ _ _ => exact ⟨_, _, stored, rfl⟩

/-- The group of a binding is there. -/
theorem Lies.exists_group (lies : Lies memo id pattern binding) (valid : memo.Valid) :
    ∃ group, memo.groups[id]? = some group := by
  obtain ⟨expr, children, stored, shown⟩ := lies.drawn.exists_root
  have home : expr.group = id := by
    rw [← lies.home, shown]
    rfl
  obtain ⟨group, there, _⟩ := valid.placed stored
  exact ⟨group, home ▸ there⟩

theorem placeOf_of_stored {member : ExprId} {expr : Expr} (stored : memo.exprs[member]? = some expr) :
    placeOf memo member = expr.position := by
  rw [placeOf, stored]
  rfl

theorem placesOfAll_congr {children : List Binding}
    (each : ∀ child ∈ children, child.places next = child.places memo) :
    placesOfAll next children = placesOfAll memo children := by
  induction children with
  | nil => rfl
  | cons child children ih =>
    rw [placesOfAll, placesOfAll, each child List.mem_cons_self,
      ih fun other inside => each other (List.mem_cons_of_mem _ inside)]

section Grows

variable (grows : memo.Grows next)
include grows

/-- A binding stays drawn while the memo grows. -/
theorem Drawn.grow (drawn : binding.Drawn memo pattern) : binding.Drawn next pattern := by
  induction drawn with
  | leaf stops stored => exact .leaf stops (grows.exprs stored)
  | node inner stored root groups _ ih => exact .node inner (grows.exprs stored) root groups ih

/-- The places of a binding stay the same while the memo grows. -/
theorem Drawn.places_eq (drawn : binding.Drawn memo pattern) :
    binding.places next = binding.places memo := by
  have same : ∀ {member : ExprId} {expr : Expr}, memo.exprs[member]? = some expr →
      placeOf next member = placeOf memo member := fun stored => by
    rw [placeOf_of_stored (grows.exprs stored), placeOf_of_stored stored]
  induction drawn with
  | leaf _ stored =>
    rw [Cursor.nodeOf, places, places, same stored]
    rfl
  | @node pattern member expr children inner stored root groups _ ih =>
    have each : ∀ child ∈ children, child.places next = child.places memo := by
      intro child inside
      obtain ⟨position, place⟩ := List.mem_iff_getElem?.1 inside
      have bound : position < expr.arity := by
        have count : children.length = expr.arity := by
          rw [← List.length_map group, groups]
          rfl
        exact count ▸ (List.getElem?_eq_some_iff.1 place).1
      obtain ⟨part, given⟩ := Pattern.child_ok root inner bound
      exact ih position child part place given
    rw [Cursor.nodeOf, places, places, same stored, placesOfAll_congr each]

theorem Lies.grow (lies : Lies memo id pattern binding) :
    Lies next id pattern binding :=
  ⟨lies.home, lies.drawn.grow grows⟩

end Grows

end Binding

/-! ### Children -/

namespace Binding

variable {memo : Memo} {pattern : Pattern}

/-- A binding of the part of a pattern for a child. -/
def Befits (memo : Memo) (pattern : Pattern) (arity : Nat) (wheel : Cursor.Wheel) (child : Binding) :
    Prop :=
  child.group = wheel.1 ∧ ∀ part, pattern.child wheel.2 arity = .ok part → child.Drawn memo part

theorem befits_iff {arity : Nat} {wheel : Cursor.Wheel} {part : Pattern} {child : Binding}
    (given : pattern.child wheel.2 arity = .ok part) :
    Befits memo pattern arity wheel child ↔ Lies memo wheel.1 part child := by
  refine ⟨fun fits => ⟨fits.1, fits.2 part given⟩, fun lies => ⟨lies.home, ?_⟩⟩
  intro other same
  rw [given] at same
  exact Except.ok.inj same ▸ lies.drawn

/-- Bindings of numbered groups, one by one. -/
theorem zipIdx_of_map {own : Nat → Binding → Prop} {groups : List GroupId} {bindings : List Binding}
    {offset : Nat} (named : bindings.map group = groups)
    (each : ∀ position child, bindings[position]? = some child → own (offset + position) child) :
    List.Forall₂ (fun (wheel : GroupId × Nat) child => child.group = wheel.1 ∧ own wheel.2 child)
      (groups.zipIdx offset) bindings := by
  induction bindings generalizing groups offset with
  | nil =>
    subst named
    exact .nil
  | cons first bindings ih =>
    subst named
    refine .cons ⟨rfl, each 0 first rfl⟩ (ih rfl fun position child place => ?_)
    have later := each (position + 1) child place
    rwa [Nat.add_comm position 1, ← Nat.add_assoc] at later

/-- The children of a node fit, one by one, if and only if it is drawn. -/
theorem drawn_nodeOf_iff {id : ExprId} {expr : Expr} {children : List Binding}
    (inner : pattern.isLeaf = false) (stored : memo.exprs[id]? = some expr)
    (root : pattern.matchesRoot expr.operator expr.arity = true) :
    (Cursor.nodeOf id expr children).Drawn memo pattern ↔
      List.Forall₂ (Befits memo pattern expr.arity) expr.children.zipIdx children := by
  let own (position : Nat) (child : Binding) : Prop :=
    ∀ part, pattern.child position expr.arity = .ok part → child.Drawn memo part
  constructor
  · intro drawn
    generalize shown : Cursor.nodeOf id expr children = binding at drawn
    cases drawn with
    | leaf stops _ =>
      rw [inner] at stops
      cases stops
    | node _ again _ groups below =>
      obtain ⟨rfl, _, _, rfl⟩ := Binding.node.inj shown
      rw [stored] at again
      cases again
      have each : ∀ position child, children[position]? = some child →
          own (0 + position) child := fun position child place part given =>
        below position child part place (Nat.zero_add position ▸ given)
      exact zipIdx_of_map groups each
  · intro fits
    have split : children.map group = expr.children ∧
        ∀ position child, children[position]? = some child → own (0 + position) child :=
      of_zipIdx fits
    refine .node inner stored root split.1 fun position child part place given => ?_
    exact split.2 position child place part ((Nat.zero_add position).symm ▸ given)

end Binding

/-! ### A turn of the children -/

namespace Cursor

open Binding

variable {memo : Memo} {guard : Guard} {room : Nat} {pattern : Pattern} {id : GroupId}

/-- Nothing but a guard stops the cursor. -/
abbrev Stopped : Failure → Prop := Failure.Allowed fun _ => False

/-- What a turn of the children of a node comes to: other bindings that befit the children, higher
ones if some child moved. -/
def Turned (memo : Memo) (own : Wheel → Binding → Prop) (wheels : List Wheel)
    (current : List Binding) : Turn → Prop
  | .moved children => List.Forall₂ own wheels children ∧
      Branches (placesOfAll memo current) (placesOfAll memo children)
  | .restarted children => List.Forall₂ own wheels children
  | .stuck => True

/-- What the cursor gives is higher than what it was handed. -/
def Rises (memo : Memo) (own : Binding → Prop) (last : Binding) (found : Option Binding) : Prop :=
  ∀ binding, found = some binding →
    own binding ∧ Branches (last.places memo) (binding.places memo)

theorem rises_none {own : Binding → Prop} {last : Binding} : Rises memo own last none :=
  fun _ none => by cases none

/-- **A turn of the children of a node goes upwards**, if each child does. -/
theorem turnOn_ends {next : Nat → GroupId → Option Binding → Except Failure (Option Binding)}
    {own : Wheel → Binding → Prop} {wheels : List Wheel} {current : List Binding}
    (starts : ∀ wheel ∈ wheels, Ends Stopped (opening next wheel) fun found =>
      ∀ binding, found = some binding → own wheel binding)
    (steps : ∀ wheel ∈ wheels, ∀ last, own wheel last →
      Ends Stopped (next wheel.2 wheel.1 (some last)) (Rises memo (own wheel) last))
    (each : List.Forall₂ own wheels current) :
    Ends Stopped (turnOn next wheels current) (Turned memo own wheels current) := by
  induction each with
  | nil => exact List.Forall₂.nil
  | @cons wheel head wheels tail one _ ih =>
    have below := ih (fun other inside => starts other (List.mem_cons_of_mem _ inside))
      fun other inside => steps other (List.mem_cons_of_mem _ inside)
    show Ends _ (turn next (_ :: _)) _
    rw [turn]
    refine Ends.bind below fun turned given => ?_
    cases turned with
    | moved others => exact ⟨.cons one given.1, given.2.append_left _⟩
    | stuck => exact trivial
    | restarted others =>
      refine Ends.bind (steps wheel List.mem_cons_self head one) fun found moved => ?_
      cases found with
      | some following =>
        obtain ⟨owned, up⟩ := moved following rfl
        exact ⟨.cons owned given, up.append_right _ _⟩
      | none =>
        refine Ends.bind (starts wheel List.mem_cons_self) fun found again => ?_
        cases found with
        | some first => exact .cons (again first rfl) given
        | none => exact trivial

/-! ### Starting -/

/-- The first of some values, unless a guard stops it. -/
theorem firstResult_ends {α : Type} {values : List α} {failure : Option Failure}
    (stopped : ∀ cause, failure = some cause → Stopped cause) :
    Ends Stopped (firstResult values failure) fun found =>
      ∀ value, found = some value → value ∈ values := by
  cases values with
  | nil =>
    cases failure with
    | none => exact fun _ none => (nomatch none)
    | some cause => exact stopped cause rfl
  | cons head rest => exact fun value same => Option.some.inj same ▸ List.mem_cons_self

variable (valid : memo.Valid)
include valid

/-- The first binding of a group. -/
theorem first_ends (inside : id < memo.groups.size) :
    Ends Stopped (nextInGroup memo guard room id pattern none) fun found =>
      ∀ binding, found = some binding → Lies memo id pattern binding := by
  rw [((gives valid guard room).1 id pattern).start_eq]
  have agrees : (Listing.inGroup memo guard room id pattern).Agrees
      (Series.ofGroup memo room id pattern) :=
    (Listing.agrees valid room (Nat.le_refl room)).1 id pattern inside
  refine (firstResult_ends agrees.stopped).mono fun found listed binding same => ?_
  obtain ⟨home, drawn⟩ := (Listing.drawn valid room).1 id pattern binding (listed binding same)
  exact ⟨home, drawn⟩

/-- The listings of some members of a group one after another. -/
def listingOf (memo : Memo) (guard : Guard) (room : Nat) (pattern : Pattern)
    (members : List ExprId) : Listing Binding :=
  Listing.concatMap (fun member => Listing.inExpr memo guard room member pattern)
    (members.filter (memo.hasOperator Operator.isLogical))

section Members

variable {group : Group} {before after : List ExprId} (there : memo.groups[id]? = some group)
  (members : group.members.toList = before ++ after)
include there members

/-- The listings of some members agree with their bindings. -/
theorem agrees_listingOf {levels : Nat} (enough : room ≤ levels) :
    (listingOf memo guard room pattern after).Agrees
      (Series.concat ((after.filter (memo.hasOperator Operator.isLogical)).map fun member =>
        Series.ofExpr memo levels member pattern)) := by
  refine Listing.agrees_concat fun member inside => ?_
  have listed : member ∈ group.members.toList :=
    members ▸ List.mem_append_right _ (List.mem_of_mem_filter inside)
  obtain ⟨position, place⟩ := Array.mem_iff_getElem?.1 (Array.mem_toList_iff.1 listed)
  obtain ⟨expr, stored, _⟩ := valid.listed there place
  exact (Listing.agrees valid room enough).2 member pattern (Memo.lt_of_expr stored)

variable (running : guard.cancelled = false) (relational : group.isScalar = false)
include running relational

/-- From any of its members on, the cursor of a relational group gives their listings. -/
theorem gives_listingOf :
    Gives (fun value => nextInGroup memo guard (room + 1) id pattern (some value))
      (firstOf memo guard room pattern group after)
      (listingOf memo guard room pattern after).found
      (listingOf memo guard room pattern after).failure :=
  gives_members running there valid relational
    (fun member => (gives valid guard room).2 member pattern) members

/-- The first binding of some members of a relational group, from one of them on. -/
theorem firstOf_ends :
    Ends Stopped (firstOf memo guard room pattern group after) fun found =>
      ∀ binding, found = some binding → binding.expr ∈ after ∧ binding.Drawn memo pattern := by
  have gives : Gives (fun value => nextInGroup memo guard (room + 1) id pattern (some value)) _ _ _ :=
    gives_listingOf valid there members running relational
  rw [gives.start_eq]
  have agrees : (listingOf memo guard room pattern after).Agrees _ :=
    agrees_listingOf valid there members (Nat.le_refl room)
  refine (firstResult_ends agrees.stopped).mono fun found listed binding same => ?_
  obtain ⟨member, inside, found⟩ := Listing.mem_concatMap (listed binding same)
  obtain ⟨expr, children, _, rfl⟩ := root_of_mem_inExpr found
  exact ⟨List.mem_of_mem_filter inside, (Listing.drawn valid room).2 member pattern _ found⟩

end Members

/-! ### Going on -/

/-- The cursors of groups go upwards. -/
def GroupsRise (memo : Memo) (guard : Guard) (room : Nat) : Prop :=
  ∀ id pattern last, Lies memo id pattern last →
    Ends Stopped (nextInGroup memo guard room id pattern (some last))
      (Rises memo (Lies memo id pattern) last)

section Expr

variable {member : ExprId} {expr : Expr} (stored : memo.exprs[member]? = some expr)
  (inner : pattern.isLeaf = false)
  (root : pattern.matchesRoot expr.operator expr.arity = true)
include stored inner root

/-- The cursor of a child of a node is that of its group under a part of the pattern. -/
theorem exists_part {wheel : Wheel} (inside : wheel ∈ expr.children.zipIdx) :
    wheel.1 < memo.groups.size ∧ ∃ part, pattern.child wheel.2 expr.arity = .ok part ∧
      ∀ resume, below memo guard room pattern expr.arity wheel.2 wheel.1 resume =
        nextInGroup memo guard room wheel.1 part resume := by
  obtain ⟨child, position⟩ := wheel
  obtain ⟨_, bound, same⟩ := List.mem_zipIdx inside
  rw [Nat.zero_add] at bound
  obtain ⟨part, given⟩ := Pattern.child_ok root inner bound
  refine ⟨valid.childExists stored (same ▸ List.getElem_mem _), part, given, fun resume => ?_⟩
  unfold below
  rw [given]
  rfl

/-- The first binding of a child of a node. -/
theorem opening_ends {wheel : Wheel} (inside : wheel ∈ expr.children.zipIdx) :
    Ends Stopped (opening (below memo guard room pattern expr.arity) wheel) fun found =>
      ∀ binding, found = some binding → Befits memo pattern expr.arity wheel binding := by
  obtain ⟨bound, part, given, same⟩ := exists_part valid stored inner root inside
  rw [opening, same]
  exact (first_ends valid bound).mono fun _ found binding equal =>
    (befits_iff given).2 (found binding equal)

/-- The next binding of a child of a node. -/
theorem below_ends (groups : GroupsRise memo guard room) {wheel : Wheel}
    (inside : wheel ∈ expr.children.zipIdx) {last : Binding}
    (fits : Befits memo pattern expr.arity wheel last) :
    Ends Stopped (below memo guard room pattern expr.arity wheel.2 wheel.1 (some last))
      (Rises memo (Befits memo pattern expr.arity wheel) last) := by
  obtain ⟨_, part, given, same⟩ := exists_part valid stored inner root inside
  rw [same]
  exact (groups wheel.1 part last ((befits_iff given).1 fits)).mono fun _ rises binding equal =>
    ⟨(befits_iff given).2 (rises binding equal).1, (rises binding equal).2⟩

/-- A turn of the children of a node in the memo goes upwards, if the cursors of groups do. -/
theorem turnOn_below_ends (groups : GroupsRise memo guard room) {children : List Binding}
    (fits : List.Forall₂ (Befits memo pattern expr.arity) expr.children.zipIdx children) :
    Ends Stopped (turnOn (below memo guard room pattern expr.arity) expr.children.zipIdx children)
      (Turned memo (Befits memo pattern expr.arity) expr.children.zipIdx children) :=
  turnOn_ends (fun _ inside => opening_ends valid stored inner root inside)
    (fun _ inside _ own => below_ends valid stored inner root groups inside own) fits

end Expr

/-- **The cursor of an expression goes upwards**, if the cursors of groups below do. -/
theorem nextInExpr_ends (groups : GroupsRise memo guard room) {last : Binding}
    (drawn : last.Drawn memo pattern) :
    Ends Stopped (nextInExpr memo guard (room + 1) last.expr pattern (some last))
      (Rises memo (fun binding => binding.expr = last.expr ∧ Lies memo last.group pattern binding)
        last) := by
  cases running : guard.cancelled with
  | true =>
    rw [nextInExpr, running]
    exact Guard.refusal_stops
  | false =>
    have whole := drawn
    cases drawn with
    | @leaf _ id expr stops stored =>
      have root := Pattern.matchesRoot_of_isLeaf expr.operator expr.arity stops
      show Ends _ (nextInExpr memo guard (room + 1) id pattern (some (nodeOf id expr []))) _
      rw [(inExpr_of_leaf running stored root room stops).2]
      exact rises_none
    | @node _ id expr children inner stored root named below =>
      have fits := (drawn_nodeOf_iff inner stored root).1 whole
      have complete : children.length = expr.arity := by
        rw [← List.length_map group, named]
        rfl
      show Ends _ (nextInExpr memo guard (room + 1) id pattern (some (nodeOf id expr children))) _
      rw [nextInExpr_some running stored root inner complete]
      have turned := turnOn_below_ends valid stored inner root groups fits
      cases outcome : turnOn (Cursor.below memo guard room pattern expr.arity) expr.children.zipIdx
          children with
      | error failure =>
        rw [outcome] at turned
        exact turned
      | ok turn =>
        rw [outcome] at turned
        cases turn with
        | restarted others => exact rises_none
        | stuck => exact rises_none
        | moved others =>
          intro binding same
          obtain rfl := Option.some.inj same
          refine ⟨⟨rfl, rfl, (drawn_nodeOf_iff inner stored root).2 turned.1⟩, ?_⟩
          exact turned.2.append_left [placeOf memo id]

omit valid in
theorem orElse_ends {result fallback : Except Failure (Option Binding)}
    {gives : Option Binding → Prop} (first : Ends Stopped result gives)
    (second : Ends Stopped fallback gives) : Ends Stopped (orElse result fallback) gives := by
  rcases result with _ | _ | _
  · exact first
  · exact second
  · exact first

/-- A binding with its root among the members after a place of a group. -/
theorem of_mem_drop {group : Group} {count : Nat} {binding : Binding}
    (there : memo.groups[id]? = some group)
    (inside : binding.expr ∈ group.members.toList.drop count) (drawn : binding.Drawn memo pattern) :
    Lies memo id pattern binding ∧ count ≤ placeOf memo binding.expr := by
  obtain ⟨expr, children, stored, shown⟩ := drawn.exists_root
  obtain ⟨offset, found⟩ := List.mem_iff_getElem?.1 inside
  rw [List.getElem?_drop, Array.getElem?_toList] at found
  obtain ⟨again, same, home, position⟩ := valid.listed there found
  obtain rfl : expr = again := Option.some.inj (stored.symm.trans same)
  refine ⟨⟨?_, drawn⟩, ?_⟩
  · rw [shown]
    exact home
  · rw [placeOf_of_stored stored, position]
    exact Nat.le_add_right count offset

/-- Handed a binding of a relational group, the cursor goes on with the member at its root, and then
with those behind. -/
theorem nextInGroup_of_lies {group : Group} (running : guard.cancelled = false)
    (there : memo.groups[id]? = some group) (relational : group.isScalar = false) {last : Binding}
    (lies : Lies memo id pattern last) :
    nextInGroup memo guard (room + 1) id pattern (some last) =
      orElse (visit memo guard room pattern group (some last) last.expr)
        (firstOf memo guard room pattern group
          (group.members.toList.drop (placeOf memo last.expr + 1))) := by
  obtain ⟨expr, children, stored, shown⟩ := lies.drawn.exists_root
  have home : expr.group = id := by
    rw [← lies.home, shown]
    rfl
  obtain ⟨same, found, place⟩ := valid.placed stored
  rw [home, there] at found
  cases found
  rw [← Array.getElem?_toList] at place
  obtain ⟨bound, named⟩ := List.getElem?_eq_some_iff.1 place
  have position : group.members.toList.drop expr.position =
      last.expr :: group.members.toList.drop (expr.position + 1) := by
    rw [List.drop_eq_getElem_cons bound, named]
  rw [nextInGroup_some running there last relational lies.home stored position,
    placeOf_of_stored stored]

/-- **The cursor of a group goes upwards**, if the cursors of its members do. -/
theorem nextInGroup_ends
    (exprs : ∀ pattern last, Binding.Drawn memo pattern last →
      Ends Stopped (nextInExpr memo guard room last.expr pattern (some last))
        (Rises memo (fun binding => binding.expr = last.expr ∧ Lies memo last.group pattern binding)
          last)) : GroupsRise memo guard (room + 1) := by
  intro id pattern last lies
  cases running : guard.cancelled with
  | true =>
    rw [nextInGroup, running]
    exact Guard.refusal_stops
  | false =>
    obtain ⟨group, there⟩ := lies.exists_group valid
    cases scalar : group.isScalar with
    | true =>
      rw [nextInGroup_some_of_scalar running there scalar]
      exact rises_none
    | false =>
      have members := (List.take_append_drop (placeOf memo last.expr + 1) group.members.toList).symm
      rw [nextInGroup_of_lies valid running there scalar lies]
      refine orElse_ends ?_ ?_
      · unfold visit
        refine Ends.ite ((exprs pattern last lies.drawn).mono fun found rises binding same => ?_) ?_
        · obtain ⟨⟨_, own⟩, up⟩ := rises binding same
          exact ⟨lies.home ▸ own, up⟩
        · exact rises_none
      · refine (firstOf_ends valid there members running scalar).mono fun found later binding same => ?_
        obtain ⟨inside, drawn⟩ := later binding same
        obtain ⟨own, higher⟩ := of_mem_drop valid there inside drawn
        exact ⟨own, branches_of_placeOf higher⟩

/-- **The cursor goes upwards**, at every level of recursion, or a guard stops it. -/
theorem next_ends (guard : Guard) (room : Nat) : GroupsRise memo guard room ∧
    ∀ pattern last, Binding.Drawn memo pattern last →
      Ends Stopped (nextInExpr memo guard room last.expr pattern (some last))
        (Rises memo (fun binding => binding.expr = last.expr ∧ Lies memo last.group pattern binding)
          last) := by
  induction room with
  | zero => exact ⟨fun _ _ _ _ => Guard.refusal_stops, fun _ _ _ => Guard.refusal_stops⟩
  | succ room ih =>
    exact ⟨nextInGroup_ends valid ih.2, fun _ _ drawn => nextInExpr_ends valid ih.1 drawn⟩

end Cursor

end Cascades
