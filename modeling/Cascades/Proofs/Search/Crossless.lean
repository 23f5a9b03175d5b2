/-
**Exploration introduces no cross product.**

If no join of a memo needs a cross product, then none does in any state of a search over it: what a rule
proposes has none, for a memo with the same columns and predicates as the one that it is put into.

* `Bridging.proposals`: all that a rule proposes for an expression;
* `enduring_crossless`: a commit brings no cross product;
* `Reached.crossless`: **no join of any state of a search is a cross product**.
-/

import Cascades.Proofs.Order.Bridging
import Cascades.Proofs.Search.Members

namespace Cascades

open Memo

variable {context : Context} {breadth : GroupId → Breadth}

/-- A mark makes no cross product. -/
theorem Memo.Crossless.mark {memo : Memo} (crossless : memo.Crossless) (valid : memo.Valid)
    {id : ExprId} {mark : Mark} : (memo.mark id mark).Crossless := by
  obtain ⟨later, grows⟩ := mark_keeps valid
  intro number expr stored
  rw [exprs_mark] at stored
  exact (crossless number expr stored).of_grows grows valid later fun child => valid.childExists stored

/-- What a rule proposes for an expression of a memo without cross products has none. -/
theorem Rule.Bridging.proposals {rule : Rule} (bridging : rule.Bridging)
    (formed : context.memo.Formed breadth) (exactly : context.Exact)
    (crossless : context.memo.Crossless) {id : ExprId} {expr : Expr}
    (stored : context.memo.exprs[id]? = some expr) {proposals : List Proposal}
    (done : rule.proposals context id = .ok proposals) :
    ∀ proposal ∈ proposals, context.memo.Clear proposal := by
  intro proposal member
  obtain ⟨binding, alternatives, drawn, _, transformed, inside⟩ :=
    exists_of_proposals formed.toValid stored done member
  exact bridging formed exactly crossless drawn transformed proposal inside

namespace Search

variable {search : Search} {first memo : Memo} {catalog : Catalog} {rules : List Rule} {config : Config}

/-- **A commit brings no cross product.** -/
theorem enduring_crossless : Enduring first Memo.Crossless := by
  intro source one two breadth trial expr proposals added reshaped ready stored standard found grows
    before committed after free kept
  have valid := before.fresh.valid
  have bridging : trial.2.Bridging := Rule.standard_bridging _ standard
  have clear := bridging.proposals ready.formed (reshaped.fresh.exact ready.complete) free stored found
  obtain ⟨later, formed⟩ := after.formed
  have holds := after.rearranged.holds
  obtain ⟨_, memo, _, inserted, rfl⟩ := committed
  obtain ⟨marked, more⟩ := mark_keeps valid
  exact insertProposals_crossless (grows.trans more) ready.formed.toValid marked (kept.mark valid)
    clear inserted formed holds

/-- **Exploration introduces no cross product.** Logical expressions are inserted into an empty memo, no
join of which is a cross product: there is no cross join, every inner join has a conjunct that uses a
column of either input, and every join of many inputs has at least two, without common columns and
connected by conjuncts on two of them. Phases run with any of the rules, and end as they may. In every
state that is reached this is still so of every join. -/
theorem Reached.crossless (built : memo.Built) (standard : ∀ rule ∈ rules, rule ∈ Rule.standard)
    (crossless : memo.Crossless) (reached : (ofMemo memo catalog rules config).Reached search) :
    search.context.memo.Crossless :=
  (enduring_crossless.reached (.ofMemo built standard) crossless reached).2

/-- A join of a join of two inputs, made of many, and two tables, one after the other. -/
def joinedInPairs : List (Operator × List GroupId) :=
  [(.logical (.get ⟨"shop", "orders"⟩ [⟨1, none, "order"⟩]), []),
    (.logical (.get ⟨"shop", "items"⟩ [⟨2, none, "item"⟩]), []),
    (.logical (.get ⟨"shop", "parts"⟩ [⟨3, none, "part"⟩]), []),
    (.logical (.get ⟨"shop", "makers"⟩ [⟨4, none, "maker"⟩]), []),
    (.scalar (.column ⟨1, none, "order"⟩), []), (.scalar (.column ⟨2, none, "item"⟩), []),
    (.scalar (.column ⟨3, none, "part"⟩), []), (.scalar (.column ⟨4, none, "maker"⟩), []),
    (.scalar (.binary .eq), [4, 5]), (.logical .naryJoin, [0, 1, 8]),
    (.scalar (.binary .eq), [5, 6]), (.logical (.join .inner), [9, 2, 10]),
    (.scalar (.binary .eq), [6, 7]), (.logical (.join .inner), [11, 3, 12])]

/-- The join of many inputs is expanded and the others are regrouped, in 16 new expressions. -/
theorem crossless_joinedInPairs :
    ∃ (memo : Memo) (search : Search), Memo.empty.build? joinedInPairs = some memo ∧ memo.Crossless ∧
      explore 13 (ofMemo memo {} Rule.standard {}) = .ok (.ok ⟨⟩, search) ∧ memo.exprs.size = 14 ∧
      search.context.memo.exprs.size = 30 ∧ search.context.memo.Crossless := by
  have shown : (Memo.empty.build? joinedInPairs).bind (fun memo =>
      (explore 13 (ofMemo memo {} Rule.standard {})).toOption.map fun ended =>
        (decide memo.Crossless, decide (ended.1 = .ok ⟨⟩), memo.exprs.size,
          ended.2.context.memo.exprs.size)) = some (true, true, 14, 30) := by
    decide +kernel
  obtain ⟨memo, made, shown⟩ := Option.bind_eq_some_iff.1 shown
  obtain ⟨⟨outcome, search⟩, ran, shown⟩ := Option.map_eq_some_iff.1 shown
  obtain ⟨crossless, rfl, before, after⟩ : memo.Crossless ∧ outcome = .ok ⟨⟩ ∧
    memo.exprs.size = 14 ∧ search.context.memo.exprs.size = 30 := by simpa using shown
  have ran := toOption_eq_some_iff.1 ran
  have built := Memo.Built.empty.build? made
  exact ⟨memo, search, made, crossless, ran, before, after,
    Reached.crossless built (fun _ => id) crossless (Reached.start.phase ran)⟩

end Search

end Cascades
