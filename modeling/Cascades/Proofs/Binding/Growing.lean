/-
**Bindings while the memo grows.**

Between the calls of a cursor the memo may grow, in the groups that are gone through as well: a child
that starts again may start with another binding than before, and members that were passed may have
new ones. What is given still rises from call to call, so nothing comes twice. Once the memo stays as
it is, the bindings of the root given last come to an end, and after them come those of all members
behind it.

* `turnOn_acc`, `next_acc`: from each binding of the memo there are finitely many calls;
* `Enumerates`: calls of the cursor of a group, between which the memo grows;
* `Memo.membersAfter`: the members behind the root given last;
* `enumerates_rising`: what such calls give, and what is still to come.
-/

import Cascades.Proofs.Binding.Completeness
import Cascades.Proofs.Binding.Order

namespace Cascades.Cursor

open Binding
open Plan (placeOf)

variable {memo : Memo} {guard : Guard} {room : Nat} {pattern : Pattern} {id : GroupId}

/-! ### Calls come to an end -/

/-- A cursor gives one binding after another. -/
def Follows (next : Binding → Except Failure (Option Binding)) (later earlier : Binding) : Prop :=
  next earlier = .ok (some later)

theorem orElse_eq_some {result fallback : Except Failure (Option Binding)} {binding : Binding}
    (given : orElse result fallback = .ok (some binding)) :
    result = .ok (some binding) ∨ fallback = .ok (some binding) := by
  rcases result with _ | _ | _
  · cases given
  · exact Or.inr given
  · exact Or.inl given

/-- A turn moves from one combination to another. -/
def Moves (turnOn : List Binding → Except Failure Turn) (later earlier : List Binding) : Prop :=
  turnOn earlier = .ok (.moved later)

section Calls

variable {next : Binding → Except Failure (Option Binding)} {binding : Binding}

/-- Where the calls come to an end, they give some values. -/
theorem exists_gives_of_acc (ends : Acc (Follows next) binding) :
    ∃ values failure, Gives next (next binding) values failure := by
  induction ends with
  | intro binding _ ih =>
    cases given : next binding with
    | error failure => exact ⟨[], some failure, rfl⟩
    | ok found =>
      cases found with
      | none => exact ⟨[], none, rfl⟩
      | some following =>
        obtain ⟨values, failure, gives⟩ := ih following given
        exact ⟨following :: values, failure, rfl, gives⟩

/-- From each of the values the calls come to an end. -/
theorem acc_of_gives {start : Except Failure (Option Binding)} {values : List Binding}
    {failure : Option Failure} (gives : Gives next start values failure)
    (first : start = .ok (some binding)) : Acc (Follows next) binding := by
  induction values generalizing start binding with
  | nil =>
    cases failure with
    | none => cases gives.symm.trans first
    | some cause => cases gives.symm.trans first
  | cons value rest ih =>
    obtain rfl : value = binding := Option.some.inj (Except.ok.inj (gives.1.symm.trans first))
    exact Acc.intro _ fun later follows => ih gives.2 follows

end Calls

/-! ### Turns come to an end -/

section Wheels

variable {next : Nat → GroupId → Option Binding → Except Failure (Option Binding)}
  {own : Wheel → Binding → Prop} {wheel : Wheel} {wheels : List Wheel}

/-- How a turn moves on: to the right of the first child, or that child moved and the others started
again. -/
theorem moves_cons {head : Binding} {tail later : List Binding}
    (moves : Moves (turnOn next (wheel :: wheels)) later (head :: tail)) :
    (∃ others, Moves (turnOn next wheels) others tail ∧ later = head :: others) ∨
    ∃ others following, turnOn next wheels tail = .ok (.restarted others) ∧
      next wheel.2 wheel.1 (some head) = .ok (some following) ∧ later = following :: others := by
  have run : turn next (_ :: _) = .ok (.moved later) := moves
  rw [turn] at run
  obtain ⟨turned, below, run⟩ := bind_eq_ok_iff.1 run
  cases turned with
  | moved others =>
    cases run
    exact Or.inl ⟨others, below, rfl⟩
  | stuck => cases run
  | restarted others =>
    obtain ⟨found, given, run⟩ := bind_eq_ok_iff.1 run
    cases found with
    | some following =>
      cases run
      exact Or.inr ⟨others, following, below, given, rfl⟩
    | none =>
      obtain ⟨again, _, run⟩ := bind_eq_ok_iff.1 run
      cases again with
      | none => cases run
      | some first => cases run

/-- **Turns come to an end** if each child does: one that moved starts the others again, and none moves
without end. -/
theorem turnOn_acc
    (starts : ∀ wheel ∈ wheels, Ends Stopped (opening next wheel) fun found =>
      ∀ binding, found = some binding → own wheel binding)
    (steps : ∀ wheel ∈ wheels, ∀ last, own wheel last →
      Ends Stopped (next wheel.2 wheel.1 (some last)) (Rises memo (own wheel) last))
    (ends : ∀ wheel ∈ wheels, ∀ binding, own wheel binding →
      Acc (Follows fun last => next wheel.2 wheel.1 (some last)) binding) :
    ∀ current, List.Forall₂ own wheels current → Acc (Moves (turnOn next wheels)) current := by
  induction wheels with
  | nil =>
    intro current each
    cases each
    exact Acc.intro _ fun _ moves => nomatch moves
  | cons wheel wheels ih =>
    have startsBelow := fun other inside => starts other (List.mem_cons_of_mem wheel inside)
    have stepsBelow := fun other inside => steps other (List.mem_cons_of_mem wheel inside)
    have below := ih startsBelow stepsBelow fun other inside =>
      ends other (List.mem_cons_of_mem wheel inside)
    intro current each
    cases each with
    | @cons _ head _ tail one others =>
      -- The first child moves less often than the others, which may start again with any bindings.
      have upper := ends wheel List.mem_cons_self head one
      induction upper generalizing tail with
      | intro head _ onHead =>
        have lower := below tail others
        induction lower with
        | intro tail _ onTail =>
          refine Acc.intro _ fun later moves => ?_
          have turned : Ends Stopped (turnOn next wheels tail) (Turned memo own wheels tail) :=
            turnOn_ends startsBelow stepsBelow others
          rcases moves_cons moves with ⟨rest, moved, rfl⟩ | ⟨rest, following, restarted, given, rfl⟩
          · rw [show turnOn next wheels tail = _ from moved] at turned
            exact onTail rest moved turned.1
          · rw [restarted] at turned
            have rises := steps wheel List.mem_cons_self head one
            rw [given] at rises
            exact onHead following given (rises following rfl).1 turned

end Wheels

/-! ### The cursor comes to an end -/

/-- From each binding of a group the calls come to an end. -/
def GroupsEnd (memo : Memo) (guard : Guard) (room : Nat) : Prop :=
  ∀ id pattern last, Lies memo id pattern last →
    Acc (Follows fun binding => nextInGroup memo guard room id pattern (some binding)) last

/-- From each binding of an expression the calls come to an end. -/
def ExprsEnd (memo : Memo) (guard : Guard) (room : Nat) : Prop :=
  ∀ pattern last, Binding.Drawn memo pattern last →
    Acc (Follows fun binding => nextInExpr memo guard room last.expr pattern (some binding)) last

variable (valid : memo.Valid)
include valid

theorem exprsEnd_succ (groups : GroupsEnd memo guard room) : ExprsEnd memo guard (room + 1) := by
  intro pattern last drawn
  cases running : guard.cancelled with
  | true =>
    refine Acc.intro _ fun later follows => ?_
    rw [Follows, nextInExpr, running] at follows
    cases follows
  | false =>
    have whole := drawn
    cases drawn with
    | @leaf _ member expr stops stored =>
      have root := Pattern.matchesRoot_of_isLeaf expr.operator expr.arity stops
      refine Acc.intro _ fun later follows => ?_
      cases follows.symm.trans ((inExpr_of_leaf running stored root room stops).2 _)
    | @node _ member expr children inner stored root named parts =>
      have fits := (drawn_nodeOf_iff inner stored root).1 whole
      have rise := (next_ends valid guard room).1
      have turns : Acc (Moves (turnOn (below memo guard room pattern expr.arity)
          expr.children.zipIdx)) children := by
        refine turnOn_acc (fun _ inside => opening_ends valid stored inner root inside)
          (fun _ inside _ own => below_ends valid stored inner root rise inside own)
          (fun wheel inside binding own => ?_) children fits
        obtain ⟨_, part, given, same⟩ := exists_part valid stored inner root inside
        have shown : (fun last => below memo guard room pattern expr.arity wheel.2 wheel.1 (some last)) =
            fun last => nextInGroup memo guard room wheel.1 part (some last) :=
          funext fun last => same (some last)
        rw [shown]
        exact groups wheel.1 part binding ((befits_iff given).1 own)
      clear whole named parts
      induction turns with
      | intro children _ ih =>
        refine Acc.intro _ fun later follows => ?_
        have complete : children.length = expr.arity := by
          rw [← fits.length_eq, List.length_zipIdx]
          rfl
        have step : afterTurn (nodeOf member expr) (turnOn (below memo guard room pattern expr.arity)
            expr.children.zipIdx children) = .ok (some later) :=
          (nextInExpr_some running stored root inner complete).symm.trans follows
        have turned := turnOn_below_ends valid stored inner root rise fits
        cases outcome : turnOn (Cursor.below memo guard room pattern expr.arity) expr.children.zipIdx
            children with
        | error failure =>
          rw [outcome] at step
          cases step
        | ok turn =>
          rw [outcome] at step turned
          cases turn with
          | restarted others => cases step
          | stuck => cases step
          | moved others =>
            cases step
            exact ih others outcome turned.1

theorem groupsEnd_succ (exprs : ExprsEnd memo guard room) : GroupsEnd memo guard (room + 1) := by
  intro id pattern last lies
  cases running : guard.cancelled with
  | true =>
    refine Acc.intro _ fun later follows => ?_
    rw [Follows, nextInGroup, running] at follows
    cases follows
  | false =>
    obtain ⟨group, there⟩ := lies.exists_group valid
    cases scalar : group.isScalar with
    | true =>
      refine Acc.intro _ fun later follows => ?_
      cases follows.symm.trans (nextInGroup_some_of_scalar running there scalar room pattern last)
    | false =>
      have members := (List.take_append_drop (placeOf memo last.expr + 1) group.members.toList).symm
      have rise := (next_ends valid guard room).2
      -- The bindings of the root come to an end, and the cursor gives those of the members behind.
      generalize shown : last.expr = root at members
      have upper := exprs pattern last lies.drawn
      rw [shown] at upper
      induction upper with
      | intro last _ ih =>
        refine Acc.intro _ fun later follows => ?_
        have step : orElse (visit memo guard room pattern group (some last) last.expr) _ =
            .ok (some later) :=
          (nextInGroup_of_lies valid running there scalar lies).symm.trans follows
        rcases orElse_eq_some step with found | behind
        · have given : nextInExpr memo guard room last.expr pattern (some last) = .ok (some later) := by
            unfold visit at found
            split at found
            · exact found
            · cases found
          have rises := rise pattern last lies.drawn
          rw [given] at rises
          obtain ⟨⟨same, own⟩, _⟩ := rises later rfl
          rw [lies.home] at own
          exact ih later (shown ▸ given) own (same.trans shown)
        · rw [shown] at behind
          exact acc_of_gives (gives_listingOf valid there members running scalar) behind

/-- **Calls come to an end**, from each binding of the memo. -/
theorem next_acc (guard : Guard) (room : Nat) :
    GroupsEnd memo guard room ∧ ExprsEnd memo guard room := by
  induction room with
  | zero =>
    refine ⟨fun id pattern last _ => Acc.intro _ fun later follows => ?_,
      fun pattern last _ => Acc.intro _ fun later follows => ?_⟩
    · cases follows
    · cases follows
  | succ room ih => exact ⟨groupsEnd_succ valid ih.2, exprsEnd_succ valid ih.1⟩

/-! ### What is still to come -/

omit valid in
/-- What holds of the first value and passes on holds of all, and the failures are those of the calls. -/
theorem Gives.all {next : Binding → Except Failure (Option Binding)} {good : Binding → Prop}
    (steps : ∀ last, good last →
      Ends Stopped (next last) fun found => ∀ binding, found = some binding → good binding)
    {start : Except Failure (Option Binding)} {values : List Binding} {failure : Option Failure}
    (gives : Gives next start values failure)
    (first : Ends Stopped start fun found => ∀ binding, found = some binding → good binding) :
    (∀ value ∈ values, good value) ∧ ∀ cause, failure = some cause → Stopped cause := by
  induction values generalizing start with
  | nil =>
    refine ⟨fun _ none => absurd none List.not_mem_nil, fun cause same => ?_⟩
    subst same
    rw [show start = .error cause from gives] at first
    exact first
  | cons value rest ih =>
    rw [gives.1] at first
    have own := first value rfl
    obtain ⟨others, stops⟩ := ih gives.2 (steps value own)
    exact ⟨List.forall_mem_cons.2 ⟨own, others⟩, stops⟩

omit valid in
/-- A cursor that is never stopped ends without a failure. -/
theorem Gives.take_of_passes {next : Option Binding → Except Failure (Option Binding)}
    {previous : Option Binding} {values : List Binding} {failure : Option Failure}
    (gives : Gives (fun value => next (some value)) (next previous) values failure)
    (stops : ∀ cause, failure = some cause → Stopped cause)
    (passes : ∀ count abort, take next count previous ≠ .error (.abort abort)) :
    failure = none ∧ ∀ count, take next count previous = .ok (values.take count) := by
  cases failure with
  | none => exact ⟨rfl, gives.take_eq⟩
  | some failure =>
    cases failure with
    | abort abort => exact absurd gives.take_failure (passes _ abort)
    | fault cause => exact (stops _ rfl).elim

/-- Handed a binding of a relational group, the cursor gives further bindings of its root and then those
of the members behind, unless a guard stops it. -/
theorem exists_gives_behind {group : Group} (running : guard.cancelled = false)
    (there : memo.groups[id]? = some group) (relational : group.isScalar = false) {last : Binding}
    (lies : Lies memo id pattern last) :
    let behind := listingOf memo guard room pattern
      (group.members.toList.drop (placeOf memo last.expr + 1))
    let next := fun binding => nextInGroup memo guard (room + 1) id pattern (some binding)
    ∃ front, (∀ binding ∈ front, binding.expr = last.expr) ∧
      (Gives next (next last) (front ++ behind.found) behind.failure ∨
        ∃ failure, Gives next (next last) front (some failure) ∧ Stopped failure) := by
  intro behind next
  let own := fun binding => binding.expr = last.expr ∧ Lies memo id pattern binding
  let first := fun binding => visit memo guard room pattern group (some binding) last.expr
  have members := (List.take_append_drop (placeOf memo last.expr + 1) group.members.toList).symm
  have step : ∀ binding, own binding → next binding = orElse (first binding)
      (firstOf memo guard room pattern group
        (group.members.toList.drop (placeOf memo last.expr + 1))) := by
    intro binding owned
    have shown : next binding = orElse (visit memo guard room pattern group (some binding) binding.expr) _ :=
      nextInGroup_of_lies valid running there relational owned.2
    rw [owned.1] at shown
    exact shown
  have visited : first = (fun binding => nextInExpr memo guard room last.expr pattern (some binding)) ∨
      first = fun _ => .ok none := by
    cases logical : group.isScalar || memo.hasOperator Operator.isLogical last.expr with
    | true => exact Or.inl (funext fun _ => if_pos logical)
    | false => exact Or.inr (funext fun _ => if_neg (ne_true_of_eq_false logical))
  have ends : ∀ binding, own binding →
      Ends Stopped (first binding) fun found => ∀ following, found = some following → own following := by
    rintro binding ⟨same, owned⟩
    rcases visited with shown | shown <;> rw [shown]
    · have rises := (next_ends valid guard room).2 pattern binding owned.drawn
      rw [same] at rises
      refine rises.mono fun found up following equal => ?_
      obtain ⟨⟨root, lies⟩, _⟩ := up following equal
      exact ⟨root, owned.home ▸ lies⟩
    · exact fun following none => (nomatch none)
  have halts : Acc (Follows first) last := by
    rcases visited with shown | shown <;> rw [shown]
    · exact (next_acc valid guard room).2 pattern last lies.drawn
    · exact Acc.intro _ fun later follows => nomatch follows
  obtain ⟨front, failure, gives⟩ := exists_gives_of_acc halts
  obtain ⟨owned, stops⟩ := gives.all ends (ends last ⟨rfl, lies⟩)
  refine ⟨front, fun binding inside => (owned binding inside).1, ?_⟩
  have starts : next last = orElse (first last) _ := step last ⟨rfl, lies⟩
  rw [starts]
  cases failure with
  | none =>
    exact Or.inl (gives.orElse (fun binding inside => step binding (owned binding inside))
      (gives_listingOf valid there members running relational))
  | some failure =>
    exact Or.inr ⟨failure, gives.orElse_failure fun binding inside => step binding (owned binding inside),
      stops failure rfl⟩

end Cascades.Cursor

namespace Cascades

open Binding
open Plan (placeOf)

/-! ### Calls between which the memo grows -/

/-- The logical members of a group behind the root of the binding that was given last, or all. -/
def Memo.membersAfter (memo : Memo) (id : GroupId) (last : Option Binding) : List ExprId :=
  match memo.groups[id]? with
  | none => []
  | some group =>
    let passed := match last with
      | none => 0
      | some binding => placeOf memo binding.expr + 1
    (group.members.toList.drop passed).filter (memo.hasOperator Operator.isLogical)

namespace Cursor

variable {memo next : Memo} {id : GroupId} {pattern : Pattern} {found : List Binding}

/-- **Calls of the cursor of a relational group**, each handed the binding that was given last, and what
they gave. Between them the memo grows in any way, and guards differ. -/
inductive Enumerates (id : GroupId) (pattern : Pattern) : Memo → List Binding → Prop
  | start {memo : Memo} : memo.Valid → memo.Relational id → Enumerates id pattern memo []
  | grow {memo next : Memo} {found : List Binding} {request : Memo.Request} :
      Enumerates id pattern memo found → memo.perform request = .ok next →
      Enumerates id pattern next found
  | call {memo : Memo} {found : List Binding} {guard : Guard} {binding : Binding} :
      Enumerates id pattern memo found →
      inGroup memo guard id pattern found.getLast? = .ok (some binding) →
      Enumerates id pattern memo (found ++ [binding])

/-- What such calls keep: what was given lies in the group and rises. -/
structure Rising (memo : Memo) (id : GroupId) (pattern : Pattern) (found : List Binding) : Prop where
  valid : memo.Valid
  relational : memo.Relational id
  lies : ∀ binding ∈ found, Lies memo id pattern binding
  ordered : (found.map (Binding.places memo)).Pairwise (· < ·)

namespace Rising

variable (rising : Rising memo id pattern found)
include rising

theorem grow (grows : memo.Grows next) (valid : next.Valid) : Rising next id pattern found where
  valid := valid
  relational := by
    obtain ⟨group, there, family⟩ := rising.relational
    obtain ⟨after, again, same, _⟩ := grows.groups there
    exact ⟨after, again, same.trans family⟩
  lies binding inside := (rising.lies binding inside).grow grows
  ordered := by
    rw [List.map_congr_left fun binding inside =>
      (rising.lies binding inside).drawn.places_eq grows]
    exact rising.ordered

/-- What the next call comes to. -/
theorem call_ends (guard : Guard) :
    Ends Stopped (inGroup memo guard id pattern found.getLast?) fun given =>
      ∀ binding, given = some binding → Lies memo id pattern binding ∧
        ∀ last, found.getLast? = some last → Branches (last.places memo) (binding.places memo) := by
  unfold inGroup
  cases given : found.getLast? with
  | none =>
    exact (first_ends rising.valid rising.relational.inside).mono fun _ first binding same =>
      ⟨first binding same, nofun⟩
  | some last =>
    have lies := rising.lies last (List.mem_of_getLast? given)
    refine ((next_ends rising.valid guard guard.room).1 id pattern last lies).mono ?_
    intro _ rises binding same
    refine ⟨(rises binding same).1, fun other equal => ?_⟩
    exact Option.some.inj equal ▸ (rises binding same).2

theorem call {guard : Guard} {binding : Binding}
    (given : inGroup memo guard id pattern found.getLast? = .ok (some binding)) :
    Rising memo id pattern (found ++ [binding]) := by
  have ends := rising.call_ends guard
  rw [given] at ends
  obtain ⟨lies, up⟩ := ends binding rfl
  refine ⟨rising.valid, rising.relational, fun other inside => ?_, ?_⟩
  · rcases List.mem_append.1 inside with inside | same
    · exact rising.lies other inside
    · exact List.mem_singleton.1 same ▸ lies
  · rw [List.map_append, List.map_singleton]
    refine List.pairwise_append.2 ⟨rising.ordered, List.pairwise_singleton .., ?_⟩
    rintro lower inside _ same
    rw [List.mem_singleton.1 same]
    have ordered := rising.ordered
    rcases List.eq_nil_or_concat found with rfl | ⟨front, last, rfl⟩
    · cases inside
    · have above : last.places memo < binding.places memo :=
        (up last (by rw [List.concat_eq_append, List.getLast?_concat])).lt
      rw [List.concat_eq_append, List.map_append, List.map_singleton] at ordered inside
      rcases List.mem_append.1 inside with before | same
      · have below := (List.pairwise_append.1 ordered).2.2 lower before _ List.mem_cons_self
        exact List.lt_trans below above
      · exact List.mem_singleton.1 same ▸ above

end Rising

theorem Enumerates.rising (run : Enumerates id pattern memo found) : Rising memo id pattern found := by
  induction run with
  | start valid relational => exact ⟨valid, relational, nofun, .nil⟩
  | grow _ performed ih =>
    obtain ⟨valid, grows⟩ := Memo.perform_keeps performed ih.valid
    exact ih.grow grows valid
  | call _ given ih => exact ih.call given

/-- What a cursor that is never stopped gives from a binding of the group on, or from the start. -/
theorem Rising.exists_rest (rising : Rising memo id pattern found) {guard : Guard}
    (passes : ∀ count abort,
      take (inGroup memo guard id pattern) count found.getLast? ≠ .error (.abort abort)) :
    ∃ front later : List Binding,
      (∀ binding ∈ front, ∃ last, found.getLast? = some last ∧ binding.expr = last.expr) ∧
      (∀ levels, guard.room ≤ levels →
        Series.concat ((memo.membersAfter id found.getLast?).map fun member =>
          Series.ofExpr memo levels member pattern) = ⟨later, true⟩) ∧
      ∀ count, take (inGroup memo guard id pattern) count found.getLast? =
        .ok ((front ++ later).take count) := by
  have running : guard.cancelled = false := by
    refine Bool.eq_false_iff.2 fun cancelled => passes 1 guard.refusal ?_
    rw [take, inGroup, Guard.room, nextInGroup, cancelled]
    rfl
  obtain ⟨group, there, relational⟩ := rising.relational
  let behind := fun passed : Nat =>
    listingOf memo guard guard.maxDepth pattern (group.members.toList.drop passed)
  have gives : ∀ passed, Gives (fun value => inGroup memo guard id pattern (some value))
      (firstOf memo guard guard.maxDepth pattern group (group.members.toList.drop passed))
      (behind passed).found (behind passed).failure :=
    fun passed => gives_listingOf rising.valid there (List.take_append_drop passed _).symm running
      relational
  have agrees : ∀ passed levels, guard.room ≤ levels → (behind passed).Agrees (Series.concat
      (((group.members.toList.drop passed).filter (memo.hasOperator Operator.isLogical)).map
        fun member => Series.ofExpr memo levels member pattern)) :=
    fun passed levels enough => agrees_listingOf rising.valid there
      (List.take_append_drop passed _).symm (Nat.le_of_succ_le enough)
  have stops : ∀ passed cause, (behind passed).failure = some cause → Stopped cause :=
    fun passed => (agrees passed guard.room (Nat.le_refl _)).stopped
  cases given : found.getLast? with
  | none =>
    rw [given] at passes
    have start : inGroup memo guard id pattern none = _ := nextInGroup_none running there
    have all := gives 0
    rw [List.drop_zero, ← start] at all
    obtain ⟨ended, taken⟩ := all.take_of_passes (stops 0) passes
    refine ⟨[], _, fun _ none => absurd none List.not_mem_nil, fun levels enough => ?_, taken⟩
    rw [Memo.membersAfter, there]
    exact (agrees 0 levels enough).complete ended
  | some last =>
    rw [given] at passes
    have lies := rising.lies last (List.mem_of_getLast? given)
    obtain ⟨front, roots, all | ⟨failure, refused, stopped⟩⟩ :=
      exists_gives_behind rising.valid running there relational lies
    · have all : Gives (fun value => inGroup memo guard id pattern (some value))
          (inGroup memo guard id pattern (some last)) _ _ := all
      obtain ⟨ended, taken⟩ := all.take_of_passes (stops (placeOf memo last.expr + 1)) passes
      refine ⟨front, _, fun binding inside => ⟨last, rfl, roots binding inside⟩,
        fun levels enough => ?_, taken⟩
      rw [Memo.membersAfter, there]
      exact (agrees _ levels enough).complete ended
    · have refused : Gives (fun value => inGroup memo guard id pattern (some value))
          (inGroup memo guard id pattern (some last)) front (some failure) := refused
      have never :=
        (refused.take_of_passes (fun _ same => Option.some.inj same ▸ stopped) passes).1
      cases never

/-- **What the cursor of a relational group gives while the memo grows** rises in the lexicographic order
of places, so nothing is given twice, and no call ends in a fault. When the memo stays as it is and no
guard stops the calls, they come to an end; after further bindings of the root that was given last they
give every binding of each logical member behind it. -/
theorem enumerates_rising (run : Enumerates id pattern memo found) :
    (found.map (Binding.places memo)).Pairwise (· < ·) ∧ found.Nodup ∧
    (∀ guard fault, inGroup memo guard id pattern found.getLast? ≠ .error (.fault fault)) ∧
    ∀ guard : Guard, (∀ count abort,
        take (inGroup memo guard id pattern) count found.getLast? ≠ .error (.abort abort)) →
      ∃ front later : List Binding,
        (∀ binding ∈ front, ∃ last, found.getLast? = some last ∧ binding.expr = last.expr) ∧
        (∀ levels, guard.room ≤ levels →
          Series.concat ((memo.membersAfter id found.getLast?).map fun member =>
            Series.ofExpr memo levels member pattern) = ⟨later, true⟩) ∧
        ∀ count, take (inGroup memo guard id pattern) count found.getLast? =
          .ok ((front ++ later).take count) := by
  have rising := run.rising
  refine ⟨rising.ordered, ?_, fun guard fault failed => ?_, fun guard passes => rising.exists_rest passes⟩
  · have distinct : (found.map (Binding.places memo)).Nodup :=
      rising.ordered.imp fun below => ne_of_lt below
    exact distinct.of_map
  · have ends := rising.call_ends guard
    rw [failed] at ends
    exact ends

/-- A join of tables over another join. -/
def joinOverJoin : List Memo.Request :=
  [.insert (.logical (.get ⟨"shop", "orders"⟩ [])) [],
    .insert (.logical (.get ⟨"shop", "items"⟩ [])) [],
    .insert (.logical (.get ⟨"shop", "customers"⟩ [])) [],
    .insert .truth [],
    .insert (.logical (.join .inner)) [0, 1, 3],
    .insert (.logical (.join .inner)) [4, 2, 3]]

/-- The lower join is given once more with its inputs exchanged, after the first call. -/
theorem enumerates_rising_joinOverJoin :
    ∃ memo first second, Enumerates 5 .joinOfJoin memo [first, second] ∧
      first.children.map Binding.expr = [4, 2, 3] ∧ second.children.map Binding.expr = [6, 2, 3] ∧
      ([first, second].map (Binding.places memo)).Pairwise (· < ·) ∧ [first, second].Nodup := by
  let exchanged : Memo.Request := .insertInto 4 (.logical (.join .inner)) [1, 0, 3]
  have shown : ((Memo.empty.performAll joinOverJoin).toOption.bind fun memo =>
      (memo.perform exchanged).toOption.bind fun next =>
        (inGroup memo {} 5 .joinOfJoin none).toOption.join.bind fun first =>
          (inGroup next {} 5 .joinOfJoin (some first)).toOption.join.map fun second =>
            (memo.groups[5]?.map Group.isScalar, first.children.map Binding.expr,
              second.children.map Binding.expr)) =
      some (some false, [4, 2, 3], [6, 2, 3]) := by
    decide +kernel
  obtain ⟨memo, history, shown⟩ := Option.bind_eq_some_iff.1 shown
  obtain ⟨next, performed, shown⟩ := Option.bind_eq_some_iff.1 shown
  obtain ⟨first, one, shown⟩ := Option.bind_eq_some_iff.1 shown
  obtain ⟨second, two, shown⟩ := Option.map_eq_some_iff.1 shown
  simp only [Prod.mk.injEq] at shown
  obtain ⟨family, firsts, seconds⟩ := shown
  have valid : memo.Valid :=
    (Memo.performAll_keeps (toOption_eq_some_iff.1 history) Memo.empty_valid).1
  have began : Enumerates 5 .joinOfJoin memo [first] :=
    .call (.start valid (Option.map_eq_some_iff.1 family))
      (toOption_eq_some_iff.1 (Option.join_eq_some_iff.1 one))
  have run : Enumerates 5 .joinOfJoin next [first, second] :=
    .call (.grow began (toOption_eq_some_iff.1 performed))
      (toOption_eq_some_iff.1 (Option.join_eq_some_iff.1 two))
  obtain ⟨ordered, distinct, _⟩ := enumerates_rising run
  exact ⟨next, first, second, run, firsts, seconds, ordered, distinct⟩

end Cursor

end Cascades
