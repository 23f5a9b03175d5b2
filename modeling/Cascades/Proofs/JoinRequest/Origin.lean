/-
**The memo of a request before a search.**

A request is loaded by inserting well-formed expressions: its tables and the scalar expressions of its
edges, and at last the join of all tables. Nothing else is in its memo, and nothing stands for more
tables than the request has.

* `Memo.Bare`: a memo of tables and scalar expressions;
* `Loaded.addEdges_bare`, `Loaded.addPredicate_bare`: what is loaded below the join of all tables;
* `JoinQuery.Origin`, `ofRequest_origin`: the memo of a request;
* `Origin.tables_le`: the tables that its groups stand for.
-/

import Cascades.Proofs.Gathering.Counting
import Cascades.Proofs.JoinRequest.Loading

namespace Cascades

open Memo Interpretation

/-! ### Tables and scalar expressions -/

/-- A table, or a scalar operator. -/
def Operator.IsBare (operator : Operator) : Prop :=
  operator.isScalar = true ∨ ∃ table columns, operator = .logical (.get table columns)

theorem Operator.IsBare.isPhysical_eq {operator : Operator} (bare : operator.IsBare) :
    operator.isPhysical = false := by
  rcases bare with scalar | ⟨table, columns, rfl⟩
  · cases operator with
    | scalar => rfl
    | _ => cases scalar
  · rfl

namespace Memo

variable {memo next : Memo} {operator : Operator} {children : List GroupId} {id : ExprId}
  {breadth : GroupId → Breadth}

/-- A memo of well-formed tables and scalar expressions. -/
structure Bare (memo : Memo) : Prop where
  built : memo.Built
  atoms : ∀ {id : ExprId} {expr : Expr}, memo.exprs[id]? = some expr → expr.operator.IsBare

theorem empty_bare : Memo.empty.Bare where
  built := .empty
  atoms stored := by simp [empty] at stored

theorem Bare.insert (bare : memo.Bare) (atom : operator.IsBare) (fits : memo.Fits operator children)
    (done : memo.insert operator children = .ok (id, next)) : next.Bare where
  built := bare.built.insert atom.isPhysical_eq fits done
  atoms stored := by
    rcases stored_insert done stored with before | ⟨same, _⟩
    · exact bare.atoms before
    · exact same ▸ atom

theorem Heads.isScalarGroup_eq {group : GroupId} (heads : memo.Heads group operator children)
    (linked : memo.Linked) : memo.isScalarGroup group = operator.isScalar := by
  obtain ⟨expr, found, rfl, _⟩ := heads
  obtain ⟨there, number, owner, _, stored⟩ := firstMember_ok_iff.1 found
  obtain ⟨rfl, _⟩ := linked.of_firstMember found
  rw [linked.family stored owner, isScalarGroup, owner]

theorem Heads.exists_stored {group : GroupId} (heads : memo.Heads group operator children)
    (linked : memo.Linked) : ∃ (number : ExprId) (expr : Expr), memo.exprs[number]? = some expr ∧
      expr.group = group ∧ expr.operator = operator ∧ expr.children = children := by
  obtain ⟨expr, found, shape⟩ := heads
  obtain ⟨_, number, _, _, stored⟩ := firstMember_ok_iff.1 found
  exact ⟨number, expr, stored, (linked.of_firstMember found).1, shape⟩

/-- A scalar expression stands for no table. -/
theorem Formed.tables_scalar (formed : memo.Formed breadth) {expr : Expr}
    (stored : memo.exprs[id]? = some expr) (scalar : expr.operator.isScalar = true) :
    (breadth expr.group).tables = 0 := by
  have family := (formed.seated stored).takes.isScalar_eq
  rw [scalar] at family
  cases value : breadth expr.group with
  | scalar => rfl
  | relation tables =>
    rw [value] at family
    cases family

theorem Formed.tables_bare (formed : memo.Formed breadth) {expr : Expr}
    (stored : memo.exprs[id]? = some expr) (bare : expr.operator.IsBare) :
    (breadth expr.group).tables ≤ 1 := by
  rcases bare with scalar | ⟨table, columns, get⟩
  · rw [formed.tables_scalar stored scalar]
    exact Nat.zero_le 1
  · exact (formed.tables_single stored get).le

/-- Scalar operators over as many scalar groups as they take. -/
theorem fits_scalars {operator : ScalarOp} (takes : operator.Takes (children.map fun _ => .scalar))
    (scalars : ∀ child ∈ children, memo.isScalarGroup child = true) :
    memo.Fits (.scalar operator) children := by
  refine ⟨_, _, ?_, .scalar takes⟩
  rw [List.map_map]
  exact List.map_congr_left fun child member => (scalars child member).symm

end Memo

/-! ### Loading -/

variable {V : Type} {I : Interpretation V} {strict : Prop}

namespace JoinQuery

variable {query next : JoinQuery} {placed : List PlacedTable}

theorem insert_cases {operator : Operator} {children : List GroupId} {group : GroupId}
    (done : query.insert operator children = .ok (group, next)) :
    ∃ number expr, query.memo.insert operator children = .ok (number, next.memo) ∧
      next.memo.exprs[number]? = some expr ∧ expr.group = group := by
  obtain ⟨⟨number, memo⟩, inserted, done⟩ := bind_eq_ok_iff.1 done
  obtain ⟨expr, found, done⟩ := bind_eq_ok_iff.1 done
  cases pure_eq_ok_iff.1 done
  exact ⟨number, expr, lift_requestError_eq_ok_iff.1 inserted,
    expr_ok_iff.1 (lift_requestError_eq_ok_iff.1 found), rfl⟩

theorem insertScalar_bare (bare : query.memo.Bare) {operator : ScalarOp} {children : List GroupId}
    {group : GroupId} (takes : operator.Takes (children.map fun _ => .scalar))
    (scalars : ∀ child ∈ children, query.memo.isScalarGroup child = true)
    (done : query.insert (.scalar operator) children = .ok (group, next)) : next.memo.Bare := by
  obtain ⟨number, expr, inserted, _⟩ := insert_cases done
  exact bare.insert (.inl rfl) (fits_scalars takes scalars) inserted

theorem addTable_bare (bare : query.memo.Bare) {table : TableRequest}
    (done : query.addTable table = .ok next) : next.memo.Bare := by
  unfold JoinQuery.addTable at done
  split at done
  · cases done
  · obtain ⟨⟨number, memo⟩, inserted, done⟩ := bind_eq_ok_iff.1 done
    obtain ⟨expr, _, done⟩ := bind_eq_ok_iff.1 done
    cases pure_eq_ok_iff.1 done
    exact bare.insert (.inr ⟨_, _, rfl⟩) ⟨[], _, rfl, .logical .get⟩
      (lift_requestError_eq_ok_iff.1 inserted)

theorem addTables_bare (bare : query.memo.Bare) {tables : List TableRequest}
    (done : tables.foldlM addTable query = .ok next) : next.memo.Bare := by
  let relates (one two : JoinQuery) : Prop := one.memo.Bare → two.memo.Bare
  have kept : relates query next := foldlM_relates (fun _ => id) (fun first second => second ∘ first)
    (fun _ step bare => addTable_bare bare step) done
  exact kept bare

theorem Loaded.addEdge_bare {edge : EdgeRequest} {conjunct : GroupId}
    (loaded : query.Loaded I strict placed) (bare : query.memo.Bare)
    (done : query.addEdge edge = .ok (conjunct, next)) : next.memo.Bare := by
  unfold JoinQuery.addEdge at done
  split at done
  · cases done
  · obtain ⟨_, _, done⟩ := bind_eq_ok_iff.1 done
    obtain ⟨_, _, done⟩ := bind_eq_ok_iff.1 done
    obtain ⟨⟨first, one⟩, leftDone, done⟩ := bind_eq_ok_iff.1 done
    obtain ⟨⟨second, two⟩, rightDone, done⟩ := bind_eq_ok_iff.1 done
    replace bare := insertScalar_bare bare .column (List.forall_mem_nil _) leftDone
    replace bare := insertScalar_bare bare .column (List.forall_mem_nil _) rightDone
    obtain ⟨loaded, leftAdds⟩ := loaded.insertScalar leftDone nofun fun _ _ => rfl
    obtain ⟨loaded, rightAdds⟩ := loaded.insertScalar rightDone nofun fun _ _ => rfl
    have linked := loaded.unsearched.sound.toLinked
    refine insertScalar_bare bare .binary (fun child member => ?_) done
    rcases List.mem_pair.1 member with rfl | rfl
    · exact ((leftAdds.heads rfl).mono rightAdds.grows).isScalarGroup_eq linked
    · exact (rightAdds.heads rfl).isScalarGroup_eq linked

theorem Loaded.addEdges_bare {edges : List EdgeRequest} {conjuncts : List GroupId}
    (loaded : query.Loaded I strict placed) (bare : query.memo.Bare)
    (done : query.addEdges edges = .ok (conjuncts, next)) : next.memo.Bare := by
  induction edges generalizing query conjuncts with
  | nil =>
    cases pure_eq_ok_iff.1 done
    exact bare
  | cons edge edges ih =>
    obtain ⟨⟨conjunct, middle⟩, one, done⟩ := bind_eq_ok_iff.1 done
    obtain ⟨⟨others, last⟩, more, done⟩ := bind_eq_ok_iff.1 done
    cases pure_eq_ok_iff.1 done
    exact ih (loaded.addEdge one).1 (loaded.addEdge_bare bare one) more

theorem addPredicate_bare (bare : query.memo.Bare) {conjuncts : List GroupId} {predicate : GroupId}
    (scalars : ∀ conjunct ∈ conjuncts, query.memo.isScalarGroup conjunct = true)
    (done : query.addPredicate conjuncts = .ok (predicate, next)) : next.memo.Bare := by
  rcases conjuncts with _ | ⟨single, _ | ⟨second, rest⟩⟩
  · exact insertScalar_bare bare .constant (List.forall_mem_nil _) done
  · cases pure_eq_ok_iff.1 done
    exact bare
  · refine insertScalar_bare bare ?_ scalars done
    rw [List.map_const']
    exact .and _

/-! ### Requests -/

/-- **The memo of a request**: tables and scalar expressions, each in a group of its own, and the join
of all tables at the root. -/
structure Origin (query : JoinQuery) : Prop where
  built : query.memo.Built
  flat : query.memo.Flat
  relational : query.memo.Relational query.root
  root : ∃ (number : ExprId) (expr : Expr), query.memo.exprs[number]? = some expr ∧
    expr.operator = .logical .naryJoin ∧ expr.group = query.root
  cases : ∀ {id : ExprId} {expr : Expr}, query.memo.exprs[id]? = some expr →
    expr.operator.IsBare ∨ expr.operator = .logical .naryJoin ∧ expr.group = query.root

theorem ofRequest_origin {request : JoinRequest} (done : ofRequest request = .ok query) :
    query.Origin := by
  obtain ⟨one, two, three, four, conjuncts, predicate, root, tablesDone, edgesDone, predicateDone,
    rootDone, rfl, some⟩ := ofRequest_cases done
  have empty : ({} : JoinQuery).Loaded (.ofTables fun _ _ => 0) False [] := empty_loaded
  obtain ⟨placed, tables, loaded⟩ := empty.addTables tablesDone
  rw [List.nil_append] at loaded
  have bare : two.memo.Bare := loaded.addEdges_bare (addTables_bare empty_bare tablesDone) edgesDone
  obtain ⟨loaded, _, each⟩ := loaded.addEdges edgesDone
  have conjunct := isConjunct_of_equates each loaded.unsearched.sound
  replace bare : three.memo.Bare := by
    refine addPredicate_bare bare (fun child member => ?_) predicateDone
    have isPredicate := (conjunct child member).isPredicate
    exact (loaded.unsearched.sound.toValid.isScalarGroup_eq isPredicate.1).trans isPredicate.2
  obtain ⟨loaded, _, isPredicate, _⟩ := loaded.addPredicate conjunct predicateDone
  have valid := loaded.unsearched.sound.toValid
  rw [loaded.places.filterMap_group tables] at rootDone
  obtain ⟨number, expr, inserted, stored, rfl⟩ := insert_cases rootDone
  have place : placed ≠ [] := by
    rintro rfl
    exact some tables.symm
  have takes : LogicalOp.naryJoin.Takes ((placed.map fun _ => 0).map .relation ++ [.scalar])
      (placed.map fun _ => 0).sum := .naryJoin fun none => place (List.map_eq_nil_iff.1 none)
  have fits : three.memo.Fits (.logical .naryJoin) (placed.map PlacedTable.group ++ [predicate]) := by
    refine ⟨_, _, ?_, .logical takes⟩
    have relations : placed.map (fun _ => false) =
        placed.map fun table => three.memo.isScalarGroup table.group :=
      List.map_congr_left fun table member =>
        ((loaded.places.heads table member).isScalarGroup_eq valid.toLinked).symm
    have scalar : three.memo.isScalarGroup predicate = true :=
      (valid.isScalarGroup_eq isPredicate.1).trans isPredicate.2
    rw [List.map_append, List.map_append, List.map_map, List.map_map, List.map_map]
    exact congrArg₂ (· ++ ·) relations (congrArg (fun family => [family]) scalar.symm)
  have built := bare.built.insert rfl fits inserted
  obtain ⟨breadth, formed⟩ := built.formed
  obtain ⟨same, again, equal, shape⟩ := insert_stored valid inserted
  obtain rfl := Option.some.inj (stored.symm.trans again)
  have flat := insert_flat loaded.unsearched.flat inserted
  have nary : expr.operator = .logical .naryJoin := Operator.eq_of_beq equal rfl
  refine ⟨built, flat, ?_, ⟨number, expr, stored, nary, rfl⟩, fun {id other} found => ?_⟩
  · obtain ⟨group, there, _⟩ := formed.placed stored
    exact ⟨group, there, by rw [← formed.family stored there, nary]; rfl⟩
  · rcases stored_insert inserted found with before | ⟨same, shapes, _⟩
    · exact .inl (bare.atoms before)
    · have one := formed.unique found stored (by rw [same, nary]; rfl) (shapes.trans shape.symm)
      subst one
      obtain rfl := Option.some.inj (stored.symm.trans found)
      exact .inr ⟨nary, rfl⟩

section Tables

variable {request : JoinRequest} {breadth : GroupId → Breadth} (done : ofRequest request = .ok query)
  (formed : query.memo.Formed breadth)
include done formed

/-- The root of a request stands for its tables. -/
theorem tables_root : (breadth query.root).tables = request.tables.length := by
  obtain ⟨placed, conjuncts, holds⟩ :
      ∃ placed conjuncts, query.Holds (.ofTables fun _ _ => 0) False request placed conjuncts :=
    ofRequest_holds False.elim done
  have linked := formed.toLinked
  have ones : placed.map (fun table => (breadth table.group).tables) = placed.map fun _ => 1 := by
    refine List.map_congr_left fun table member => ?_
    obtain ⟨_, expr, stored, same, get, _⟩ :=
      (holds.loaded.places.heads table member).exists_stored linked
    exact same ▸ formed.tables_single stored get
  have zeros : conjuncts.map (fun conjunct => (breadth conjunct).tables) =
      conjuncts.map fun _ => 0 := by
    refine List.map_congr_left fun conjunct member => ?_
    obtain ⟨edge, _, left, right, _, _, equality⟩ := exists_edge holds.equates member
    obtain ⟨_, _, _, _, heads⟩ := equality.heads
    obtain ⟨_, expr, stored, same, equates, _⟩ := heads.exists_stored linked
    exact same ▸ formed.tables_scalar stored (equates ▸ rfl)
  rw [formed.tables_eq_contents holds.isRelation.1, holds.contents_eq, Multiset.map_add,
    Multiset.sum_add, Multiset.map_coe, Multiset.map_coe, Multiset.sum_coe, Multiset.sum_coe,
    List.map_map]
  rw [zeros, ← holds.tables_eq, List.length_map]
  show (placed.map fun table => (breadth table.group).tables).sum + _ = _
  rw [ones]
  simp

/-- **No group of a request stands for more tables** than the request has. -/
theorem tables_le (id : GroupId) (inside : id < query.memo.groups.size) :
    (breadth id).tables ≤ max 1 request.tables.length := by
  obtain ⟨expr, found⟩ := formed.toValid.exists_firstMember inside
  obtain ⟨rfl, _⟩ := formed.toLinked.of_firstMember found
  obtain ⟨_, number, _, _, stored⟩ := firstMember_ok_iff.1 found
  rcases (ofRequest_origin done).cases stored with bare | ⟨_, same⟩
  · exact (formed.tables_bare stored bare).trans (Nat.le_max_left _ _)
  · rw [same, tables_root done formed]
    exact Nat.le_max_right _ _

end Tables

end JoinQuery

end Cascades
