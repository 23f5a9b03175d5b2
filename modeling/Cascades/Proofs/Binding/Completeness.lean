/-
**No binding is missed and none comes twice.**

The listings that cursors give have no repetitions, because the members of a group are different
expressions and a product has no repetitions if its factors have none. They agree with the bindings
that the recursion over the pattern finds, so a cursor that no guard stops gives these bindings, in
their order, each once.

* `Listing.nodup`: listings have no repetitions;
* `take_bindings`: what the calls of a cursor return.
-/

import Cascades.Proofs.Binding.Series
import Cascades.Proofs.Memo.History
import Mathlib.Data.List.Nodup

namespace Cascades

/-! ### No binding comes twice -/

namespace Listing

variable {α β : Type} {memo : Memo} {guard : Guard}

/-- Products of lists without repetitions have none. -/
theorem nodup_product {start : α → Except Failure (Option β)} {list : α → Listing β}
    {children : List α} (each : ∀ child ∈ children, (list child).found.Nodup) :
    (product start list children).found.Nodup := by
  induction children with
  | nil => exact List.nodup_singleton []
  | cons child children ih =>
    have others := ih fun other there => each other (List.mem_cons_of_mem _ there)
    have prepended : ∀ head : β, ((product start list children).found.map (head :: ·)).Nodup :=
      fun head => List.Nodup.map (List.cons_injective) others
    cases first : start child with
    | error failure =>
      rw [product_cons_of_error first]
      exact List.nodup_nil
    | ok found =>
      cases found with
      | none =>
        rw [product_cons_of_none first]
        exact List.nodup_nil
      | some head =>
        rw [product_cons_of_some first]
        generalize product start list children = tails at prepended
        obtain ⟨_ | ⟨tail, rest⟩, _ | failure⟩ := tails
        · exact List.nodup_nil
        · exact List.nodup_nil
        · refine List.nodup_flatMap.2 ⟨fun value _ => prepended value, ?_⟩
          refine (each child List.mem_cons_self).imp fun {first second} different => ?_
          intro combination one two
          obtain ⟨_, _, rfl⟩ := List.mem_map.1 one
          obtain ⟨_, _, same⟩ := List.mem_map.1 two
          exact different (List.cons.inj same).1.symm
        · exact prepended head

/-- Listings without common values, one after another, have no repetitions. -/
theorem nodup_concatMap {list : α → Listing β} {members : List α} (distinct : members.Nodup)
    (each : ∀ member ∈ members, (list member).found.Nodup)
    (apart : ∀ {first second : α} {value : β}, value ∈ (list first).found →
      value ∈ (list second).found → first = second) :
    (concatMap list members).found.Nodup ∧
      ∀ value ∈ (concatMap list members).found, ∃ member ∈ members, value ∈ (list member).found := by
  induction members with
  | nil => exact ⟨List.nodup_nil, nofun⟩
  | cons member members ih =>
    obtain ⟨absent, distinct⟩ := List.nodup_cons.1 distinct
    obtain ⟨nodup, source⟩ := ih distinct fun other there => each other (List.mem_cons_of_mem _ there)
    have one := each member List.mem_cons_self
    cases failed : (list member).failure with
    | none =>
      rw [concatMap_cons_of_none list failed]
      constructor
      · refine List.nodup_append.2 ⟨one, nodup, ?_⟩
        rintro value here _ there rfl
        obtain ⟨other, listed, found⟩ := source value there
        exact absent (apart here found ▸ listed)
      · intro value found
        rcases List.mem_append.1 found with here | there
        · exact ⟨member, List.mem_cons_self, here⟩
        · obtain ⟨other, listed, found⟩ := source value there
          exact ⟨other, List.mem_cons_of_mem _ listed, found⟩
    | some failure =>
      rw [concatMap_cons_of_failure list failed]
      exact ⟨one, fun value found => ⟨member, List.mem_cons_self, found⟩⟩

/-- The members of a group are different. -/
theorem nodup_members (valid : memo.Valid) {id : GroupId} {group : Group}
    (there : memo.groups[id]? = some group) : group.members.toList.Nodup := by
  rw [List.nodup_iff_getElem?_ne_getElem?]
  intro first second before inside same
  rw [List.getElem?_eq_getElem inside, Array.getElem?_toList] at same
  have place : group.members[second]? = some group.members.toList[second] := by
    rw [← Array.getElem?_toList, List.getElem?_eq_getElem inside]
  obtain ⟨expr, stored, _, position⟩ := valid.listed there place
  obtain ⟨_, again, _, other⟩ := valid.listed there same
  rw [stored] at again
  cases again
  exact Nat.ne_of_lt before (other.symm.trans position)

/-- Bindings of one expression come from one listing only. -/
theorem inExpr_apart {room : Nat} {pattern : Pattern} {first second : ExprId} {binding : Binding}
    (one : binding ∈ (inExpr memo guard room first pattern).found)
    (two : binding ∈ (inExpr memo guard room second pattern).found) : first = second := by
  obtain ⟨_, _, _, rfl⟩ := Cursor.root_of_mem_inExpr one
  obtain ⟨_, _, _, same⟩ := Cursor.root_of_mem_inExpr two
  exact congrArg Binding.expr same

/-- **Listings have no repetitions.** -/
theorem nodup (valid : memo.Valid) (guard : Guard) (room : Nat) :
    (∀ id pattern, (inGroup memo guard room id pattern).found.Nodup) ∧
      ∀ id pattern, (inExpr memo guard room id pattern).found.Nodup := by
  induction room with
  | zero => exact ⟨fun _ _ => List.nodup_nil, fun _ _ => List.nodup_nil⟩
  | succ room ih =>
    cases running : guard.cancelled with
    | true =>
      constructor
      · intro id pattern
        rw [inGroup, running]
        exact List.nodup_nil
      · intro id pattern
        rw [inExpr, running]
        exact List.nodup_nil
    | false =>
      refine ⟨fun id pattern => ?_, fun id pattern => ?_⟩
      · cases there : memo.groups[id]? with
        | none =>
          rw [inGroup, running, there]
          exact List.nodup_nil
        | some group =>
          cases scalar : group.isScalar with
          | true =>
            rw [Cursor.inGroup_of_scalar running there scalar]
            rcases Cursor.nextInGroup memo guard (room + 1) id pattern none with _ | _ | first
            · exact List.nodup_nil
            · exact List.nodup_nil
            · exact List.nodup_singleton first
          | false =>
            rw [Cursor.inGroup_eq running there scalar]
            have distinct : (memo.logicalMembers group).Nodup := (nodup_members valid there).filter _
            exact (nodup_concatMap distinct (fun member _ => ih.2 member pattern) inExpr_apart).1
      · cases stored : memo.exprs[id]? with
        | none =>
          rw [inExpr, running, stored]
          exact List.nodup_nil
        | some expr =>
          cases root : pattern.matchesRoot expr.operator expr.arity with
          | false =>
            rw [(Cursor.inExpr_of_mismatch running stored room root).1]
            exact List.nodup_nil
          | true =>
            cases inner : pattern.isLeaf with
            | true =>
              rw [(Cursor.inExpr_of_leaf running stored root room inner).1]
              exact List.nodup_singleton _
            | false =>
              rw [Cursor.inExpr_eq running stored root inner]
              refine List.Nodup.map (fun first second same => ?_) (nodup_product fun wheel _ => ?_)
              · exact congrArg Binding.children same
              · unfold Cursor.listingBelow
                cases pattern.child wheel.2 expr.arity with
                | error cause => exact List.nodup_nil
                | ok part => exact ih.1 wheel.1 part

end Listing

/-! ### Runs of a cursor -/

namespace Cursor

variable {memo : Memo} {guard : Guard} {pattern : Pattern}

/-- A cursor whose values agree with a list gives that list, if none of its calls aborts. -/
theorem take_of_agrees {next : Option Binding → Except Failure (Option Binding)}
    {listing : Listing Binding} {series : Nat → Series Binding} {room : Nat}
    (gives : Gives (fun value => next (some value)) (next none) listing.found listing.failure)
    (agrees : ∀ levels, room ≤ levels → listing.Agrees (series levels))
    (passes : ∀ count abort, take next count none ≠ .error (.abort abort)) :
    (∀ levels, room ≤ levels → series levels = ⟨listing.found, true⟩) ∧
      ∀ count, take next count none = .ok (listing.found.take count) := by
  cases ended : listing.failure with
  | none =>
    rw [ended] at gives
    exact ⟨fun levels enough => (agrees levels enough).complete ended, gives.take_eq⟩
  | some failure =>
    rw [ended] at gives
    cases failure with
    | abort abort => exact absurd gives.take_failure (passes _ abort)
    | fault cause => exact ((agrees room (Nat.le_refl room)).stopped _ ended).elim

/-- **A cursor gives every binding once, in order.** Unless a guard refuses a call, the calls of the
cursor of a group, each with the result of the one before, return the bindings that the recursion
over the pattern finds on any number of levels that the guard allows or more; they are all
different, and there is nothing after the last. So do the calls of the cursor of an expression. -/
theorem take_bindings (valid : memo.Valid) (guard : Guard) (pattern : Pattern) :
    (∀ id < memo.groups.size,
      (∀ count abort, take (inGroup memo guard id pattern) count none ≠ .error (.abort abort)) →
      ∃ bindings : List Binding, bindings.Nodup ∧
        (∀ levels, guard.room ≤ levels →
          Series.ofGroup memo levels id pattern = ⟨bindings, true⟩) ∧
        ∀ count, take (inGroup memo guard id pattern) count none = .ok (bindings.take count)) ∧
    ∀ id < memo.exprs.size,
      (∀ count abort, take (inExpr memo guard id pattern) count none ≠ .error (.abort abort)) →
      ∃ bindings : List Binding, bindings.Nodup ∧
        (∀ levels, guard.room ≤ levels →
          Series.ofExpr memo levels id pattern = ⟨bindings, true⟩) ∧
        ∀ count, take (inExpr memo guard id pattern) count none = .ok (bindings.take count) := by
  obtain ⟨nodupGroups, nodupExprs⟩ := Listing.nodup valid guard guard.room
  constructor
  · intro id present passes
    exact ⟨_, nodupGroups id pattern, take_of_agrees (gives_ofGroup valid guard id pattern)
      (fun levels enough => (Listing.agrees valid guard.room enough).1 id pattern present) passes⟩
  · intro id present passes
    exact ⟨_, nodupExprs id pattern, take_of_agrees (gives_ofExpr valid guard id pattern)
      (fun levels enough => (Listing.agrees valid guard.room enough).2 id pattern present) passes⟩

/-- Two joins, one over the other, each also with its inputs exchanged. -/
def nestedJoins : List Memo.Request :=
  [.insert (.logical (.get ⟨"shop", "orders"⟩ [])) [],
    .insert (.logical (.get ⟨"shop", "items"⟩ [])) [],
    .insert (.logical (.get ⟨"shop", "customers"⟩ [])) [],
    .insert .truth [],
    .insert (.logical (.join .inner)) [0, 1, 3],
    .insertInto 4 (.logical (.join .inner)) [1, 0, 3],
    .insert (.logical (.join .inner)) [4, 2, 3],
    .insertInto 5 (.logical (.join .inner)) [2, 4, 3]]

theorem take_bindings_nestedJoins :
    ∃ memo, Memo.empty.performAll nestedJoins = .ok memo ∧
      ((take (inGroup memo {} 5 .joinOfJoin) 3 none).toOption.map fun found =>
        found.map fun binding => binding.children.map Binding.expr) = some [[4, 2, 3], [5, 2, 3]] ∧
      ∃ bindings : List Binding, bindings.Nodup ∧
        (∀ levels, 513 ≤ levels →
          Series.ofGroup memo levels 5 .joinOfJoin = ⟨bindings, true⟩) ∧
        ∀ count, take (inGroup memo {} 5 .joinOfJoin) count none = .ok (bindings.take count) := by
  have results : (Memo.empty.performAll nestedJoins).toOption.map (fun memo =>
      (memo.groups.size, (Listing.ofGroup memo {} 5 .joinOfJoin).failure.isNone,
        (take (inGroup memo {} 5 .joinOfJoin) 3 none).toOption.map fun found =>
          found.map fun binding => binding.children.map Binding.expr)) =
      some (6, true, some [[4, 2, 3], [5, 2, 3]]) := by
    decide +kernel
  cases history : Memo.empty.performAll nestedJoins with
  | error cause =>
    rw [history] at results
    cases results
  | ok memo =>
    rw [history] at results
    obtain ⟨size, parts⟩ := Prod.mk.inj (Option.some.inj results)
    obtain ⟨complete, found⟩ := Prod.mk.inj parts
    have valid : memo.Valid := (Memo.performAll_keeps history Memo.empty_valid).1
    have run := gives_ofGroup valid {} 5 .joinOfJoin
    rw [Option.isNone_iff_eq_none.1 complete] at run
    refine ⟨memo, rfl, found, (take_bindings valid {} .joinOfJoin).1 5 (by omega) ?_⟩
    intro count abort failed
    have ended : take (inGroup memo {} 5 .joinOfJoin) count none = .ok _ := run.take_eq count
    rw [ended] at failed
    cases failed

end Cursor

end Cascades
