/-
**Computations that end well.**

What it takes for a computation that may fail to give a result: each of its steps gives one.

* `bind_eq_ok_iff`: one step after another;
* `mapM_eq_ok_iff`, `mem_mapM_iff`, `mapM_congr`, `foldlM_congr`: one step for each value of a list;
* `foldlM_relates`, `foldlM_step`: steps that pass a state on, each related to the one before, all taken;
* `foldlM_eq_foldl`, `anyM_eq_any`: steps and tests that are known;
* `Ends`: a value with a property, or one of the failures that are allowed;
* `Yields`: whatever one computation gives, another one gives.
-/

import Mathlib.Data.List.Forall2
import Mathlib.Order.Defs.Unbundled

namespace Cascades

variable {ε α β σ : Type}

theorem bind_eq_ok_iff {first : Except ε α} {next : α → Except ε β} {result : β} :
    (first >>= next) = .ok result ↔ ∃ value, first = .ok value ∧ next value = .ok result := by
  cases first <;> simp [Bind.bind, Except.bind]

theorem pure_eq_ok_iff {value result : α} :
    (pure value : Except ε α) = .ok result ↔ value = result := by
  simp [pure, Except.pure]

theorem throw_eq_ok_iff {cause : ε} {result : α} :
    (throw cause : Except ε α) = .ok result ↔ False := by
  simp [throw, throwThe, MonadExceptOf.throw]

theorem toOption_eq_some_iff {result : Except ε α} {value : α} :
    result.toOption = some value ↔ result = .ok value := by
  cases result <;> simp [Except.toOption]

theorem mapM_eq_ok_iff {step : α → Except ε β} {values : List α} {results : List β} :
    values.mapM step = .ok results ↔
      List.Forall₂ (fun value result => step value = .ok result) values results := by
  induction values generalizing results with
  | nil =>
    rw [List.mapM_nil, pure_eq_ok_iff, List.forall₂_nil_left_iff]
    exact eq_comm
  | cons head tail ih =>
    rw [List.mapM_cons, bind_eq_ok_iff]
    simp only [bind_eq_ok_iff, pure_eq_ok_iff, ih]
    constructor
    · rintro ⟨first, one, rest, others, rfl⟩
      exact .cons one others
    · rintro (_ | ⟨one, others⟩)
      exact ⟨_, one, _, others, rfl⟩

/-- The results of the steps, without their order. -/
theorem mem_mapM_iff {step : α → Except ε β} {values : List α} {results : List β}
    (done : values.mapM step = .ok results) {result : β} :
    result ∈ results ↔ ∃ value ∈ values, step value = .ok result := by
  have each := mapM_eq_ok_iff.1 done
  clear done
  induction each with
  | nil => simp
  | @cons value found values results one _ ih =>
    refine (List.mem_cons.trans (or_congr_right ih)).trans ?_
    constructor
    · rintro (rfl | ⟨other, member, given⟩)
      · exact ⟨value, List.mem_cons_self, one⟩
      · exact ⟨other, List.mem_cons_of_mem _ member, given⟩
    · rintro ⟨other, member, given⟩
      rcases List.mem_cons.1 member with rfl | member
      · rw [one] at given
        exact Or.inl (Except.ok.inj given).symm
      · exact Or.inr ⟨other, member, given⟩

/-- Every step has its result among the results. -/
theorem exists_mem_of_mapM {step : α → Except ε β} {values : List α} {results : List β}
    (done : values.mapM step = .ok results) {value : α} (member : value ∈ values) :
    ∃ result ∈ results, step value = .ok result := by
  have each := mapM_eq_ok_iff.1 done
  clear done
  induction each with
  | nil => cases member
  | @cons first found values results one _ ih =>
    rcases List.mem_cons.1 member with rfl | member
    · exact ⟨found, List.mem_cons_self, one⟩
    · obtain ⟨result, there, given⟩ := ih member
      exact ⟨result, List.mem_cons_of_mem _ there, given⟩

/-- If every step gives a result, all together do. -/
theorem mapM_total {step : α → Except ε β} {values : List α}
    (each : ∀ value ∈ values, ∃ result, step value = .ok result) :
    ∃ results, values.mapM step = .ok results := by
  induction values with
  | nil => exact ⟨[], rfl⟩
  | cons value values ih =>
    obtain ⟨first, one⟩ := each value List.mem_cons_self
    obtain ⟨rest, others⟩ := ih fun other member => each other (List.mem_cons_of_mem _ member)
    refine ⟨first :: rest, mapM_eq_ok_iff.2 (.cons one (mapM_eq_ok_iff.1 others))⟩

/-- Steps that agree on all values give the same results. -/
theorem mapM_congr {m : Type → Type} [Monad m] [LawfulMonad m] {step other : α → m β}
    {values : List α} (same : ∀ value ∈ values, step value = other value) :
    values.mapM step = values.mapM other := by
  induction values with
  | nil => rfl
  | cons value values ih =>
    rw [List.mapM_cons, List.mapM_cons, same value List.mem_cons_self,
      ih fun other member => same other (List.mem_cons_of_mem _ member)]

/-- Steps that agree on all values of a list end alike. -/
theorem foldlM_congr {m : Type → Type} [Monad m] {step other : β → α → m β}
    {values : List α} (same : ∀ value ∈ values, ∀ sofar, step sofar value = other sofar value)
    {start : β} : values.foldlM step start = values.foldlM other start := by
  induction values generalizing start with
  | nil => rfl
  | cons value values ih =>
    rw [List.foldlM_cons, List.foldlM_cons, same value List.mem_cons_self]
    exact congrArg _ (funext fun _ => ih fun next member => same next (List.mem_cons_of_mem _ member))

/-- A relation that holds between the state before and the state after every step holds between the
first state and the last. -/
theorem foldlM_relates {relates : σ → σ → Prop} {step : σ → α → Except ε σ} {values : List α}
    {first last : σ} (refl : ∀ state, relates state state)
    (trans : ∀ {one two three}, relates one two → relates two three → relates one three)
    (each : ∀ {value before after}, value ∈ values → step before value = .ok after →
      relates before after)
    (run : values.foldlM step first = .ok last) : relates first last := by
  induction values generalizing first with
  | nil =>
    rw [List.foldlM_nil, pure_eq_ok_iff] at run
    exact run ▸ refl first
  | cons head tail ih =>
    rw [List.foldlM_cons, bind_eq_ok_iff] at run
    obtain ⟨middle, one, others⟩ := run
    exact trans (each List.mem_cons_self one)
      (ih (fun member => each (List.mem_cons_of_mem _ member)) others)

/-- Every step of a loop that ends was taken. -/
theorem foldlM_step {step : σ → α → Except ε σ} {values : List α} {first last : σ}
    (run : values.foldlM step first = .ok last) :
    ∀ value ∈ values, ∃ before after, step before value = .ok after := by
  induction values generalizing first with
  | nil => exact fun _ member => absurd member List.not_mem_nil
  | cons head tail ih =>
    rw [List.foldlM_cons] at run
    obtain ⟨middle, one, others⟩ := bind_eq_ok_iff.1 run
    exact List.forall_mem_cons.2 ⟨⟨first, middle, one⟩, ih others⟩

/-- Steps that are known end where they lead. -/
theorem foldlM_eq_foldl {step : σ → α → Except ε σ} {known : σ → α → σ} {values : List α} {start : σ}
    (each : ∀ value ∈ values, ∀ state, step state value = .ok (known state value)) :
    values.foldlM step start = .ok (values.foldl known start) := by
  induction values generalizing start with
  | nil => rfl
  | cons head tail ih =>
    rw [List.foldlM_cons, each head List.mem_cons_self]
    exact ih fun value member => each value (List.mem_cons_of_mem _ member)

/-- A test that gives what is known of each value finds whether some value passes. -/
theorem anyM_eq_any {values : List α} {test : α → Except ε Bool} {known : α → Bool}
    (each : ∀ value ∈ values, ∀ result, test value = .ok result → result = known value) {result : Bool}
    (done : values.anyM test = .ok result) : result = values.any known := by
  induction values with
  | nil => exact (pure_eq_ok_iff.1 done).symm
  | cons value values ih =>
    obtain ⟨first, tested, done⟩ := bind_eq_ok_iff.1 done
    rw [each value List.mem_cons_self first tested] at done
    rw [List.any_cons]
    cases passes : known value with
    | true =>
      rw [passes] at done
      exact (pure_eq_ok_iff.1 done).symm
    | false =>
      rw [passes] at done
      rw [Bool.false_or]
      exact ih (fun other member => each other (List.mem_cons_of_mem _ member)) done

/-! ### Values and failures -/

/-- A computation gives a value with a property, or it fails in a way that is allowed. -/
def Ends (allowed : ε → Prop) (computation : Except ε α) (gives : α → Prop) : Prop :=
  match computation with
  | .ok value => gives value
  | .error cause => allowed cause

namespace Ends

variable {allowed : ε → Prop} {computation : Except ε α} {gives : α → Prop}

theorem bind {next : α → Except ε β} {later : β → Prop} (first : Ends allowed computation gives)
    (second : ∀ value, gives value → Ends allowed (next value) later) :
    Ends allowed (computation >>= next) later := by
  cases computation with
  | ok value => exact second value first
  | error cause => exact first

theorem pure {value : α} (given : gives value) :
    Ends allowed (Pure.pure value : Except ε α) gives := given

theorem throw {cause : ε} (may : allowed cause) :
    Ends allowed (MonadExcept.throw cause : Except ε α) gives := may

theorem of_ok {value : α} (done : computation = .ok value) (given : gives value) :
    Ends allowed computation gives := by
  rw [done]
  exact given

theorem mono {more : α → Prop} (ends : Ends allowed computation gives)
    (weaker : ∀ value, gives value → more value) : Ends allowed computation more := by
  cases computation with
  | ok value => exact weaker value ends
  | error cause => exact ends

theorem allow {more : ε → Prop} (ends : Ends allowed computation gives)
    (weaker : ∀ cause, allowed cause → more cause) : Ends more computation gives := by
  cases computation with
  | ok value => exact ends
  | error cause => exact weaker cause ends

/-- What is known of each value that the computation may give. -/
theorem of_all (ends : Ends allowed computation fun _ => True)
    (each : ∀ value, computation = .ok value → gives value) : Ends allowed computation gives := by
  cases computation with
  | ok value => exact each value rfl
  | error cause => exact ends

theorem ite {condition : Prop} [Decidable condition] {other : Except ε α}
    (one : Ends allowed computation gives) (two : Ends allowed other gives) :
    Ends allowed (if condition then computation else other) gives := by
  split
  · exact one
  · exact two

/-- The next step works with a value that is known. -/
theorem bind_ok {value : α} {next : α → Except ε β} {later : β → Prop}
    (done : computation = .ok value) (second : Ends allowed (next value) later) :
    Ends allowed (computation >>= next) later := by
  rw [done]
  exact second

/-- Something is done with the value. -/
theorem returns (ends : Ends allowed computation gives) {change : α → β} :
    Ends allowed (do return change (← computation)) fun _ => True :=
  bind ends fun _ _ => pure trivial

/-- Where no failure is allowed there is a value. -/
theorem exists_ok (ends : Ends (fun _ => False) computation gives) :
    ∃ value, computation = .ok value ∧ gives value := by
  cases computation with
  | ok value => exact ⟨value, rfl, ends⟩
  | error cause => exact ends.elim

theorem mapM {step : α → Except ε β} {values : List α} {relates : α → β → Prop}
    (each : ∀ value ∈ values, Ends allowed (step value) (relates value)) :
    Ends allowed (values.mapM step) (List.Forall₂ relates values) := by
  induction values with
  | nil => exact List.Forall₂.nil
  | cons value values ih =>
    rw [List.mapM_cons]
    refine bind (each value List.mem_cons_self) fun first one => ?_
    refine bind (ih fun other member => each other (List.mem_cons_of_mem _ member))
      fun rest others => ?_
    exact pure (.cons one others)

/-- What holds of every single result holds of all. -/
theorem mapM_all {step : α → Except ε β} {values : List α} {good : β → Prop}
    (each : ∀ value ∈ values, Ends allowed (step value) good) :
    Ends allowed (values.mapM step) fun results => ∀ result ∈ results, good result := by
  refine (mapM each).mono fun results related => ?_
  induction related with
  | nil => exact fun _ none => absurd none List.not_mem_nil
  | cons one _ ih =>
    exact List.forall_mem_cons.2
      ⟨one, ih fun value member => each value (List.mem_cons_of_mem _ member)⟩

theorem foldlM {step : σ → α → Except ε σ} {values : List α} {good : σ → Prop}
    (each : ∀ value ∈ values, ∀ state, good state → Ends allowed (step state value) good) {first : σ}
    (start : good first) : Ends allowed (values.foldlM step first) good := by
  induction values generalizing first with
  | nil => exact start
  | cons value values ih =>
    rw [List.foldlM_cons]
    refine bind (each value List.mem_cons_self first start) fun state next => ?_
    exact ih (fun other member => each other (List.mem_cons_of_mem _ member)) next

theorem anyM {step : α → Except ε Bool} {values : List α}
    (each : ∀ value ∈ values, Ends allowed (step value) fun _ => True) :
    Ends allowed (values.anyM step) fun _ => True := by
  induction values with
  | nil => exact pure trivial
  | cons value values ih =>
    rw [List.anyM_cons]
    refine bind (each value List.mem_cons_self) fun found _ => ?_
    cases found with
    | true => exact pure trivial
    | false => exact ih fun other member => each other (List.mem_cons_of_mem _ member)

/-- A value for each of some others, or none for all. -/
theorem mapM_option {step : α → Except ε (Option β)} {values : List α}
    (each : ∀ value ∈ values, Ends allowed (step value) fun _ => True) :
    Ends allowed (values.mapM fun value => OptionT.mk (step value)).run fun _ => True := by
  induction values with
  | nil => exact pure trivial
  | cons value values ih =>
    rw [List.mapM_cons, OptionT.run_bind]
    refine bind (each value List.mem_cons_self) fun found _ => ?_
    cases found with
    | none => exact pure trivial
    | some result =>
      rw [Option.elim_some, OptionT.run_bind]
      refine bind (ih fun other member => each other (List.mem_cons_of_mem _ member))
        fun rest _ => ?_
      cases rest with
      | none => exact pure trivial
      | some more => exact pure trivial

end Ends

/-! ### The same values -/

/-- Whatever a computation gives, another one gives. -/
def Yields (computation other : Except ε α) : Prop :=
  ∀ value, computation = .ok value → other = .ok value

namespace Yields

variable {computation other : Except ε α}

theorem refl (computation : Except ε α) : Yields computation computation := fun _ given => given

theorem throw {cause : ε} : Yields (MonadExcept.throw cause) other := nofun

/-- The next steps yield the same for the values that are given. -/
theorem bind_given {next onward : α → Except ε β} (first : Yields computation other)
    (second : ∀ value, computation = .ok value → Yields (next value) (onward value)) :
    Yields (computation >>= next) (other >>= onward) := by
  intro result given
  obtain ⟨value, one, two⟩ := bind_eq_ok_iff.1 given
  exact bind_eq_ok_iff.2 ⟨value, first value one, second value one result two⟩

theorem bind {next onward : α → Except ε β} (first : Yields computation other)
    (second : ∀ value, Yields (next value) (onward value)) :
    Yields (computation >>= next) (other >>= onward) :=
  first.bind_given fun value _ => second value

theorem ite {condition : Prop} [Decidable condition] {second again : Except ε α}
    (one : Yields computation other) (two : Yields second again) :
    Yields (if condition then computation else second) (if condition then other else again) := by
  split
  · exact one
  · exact two

/-- Something is done with the value. -/
theorem returns {change : α → β} (first : Yields computation other) :
    Yields (do return change (← computation)) (do return change (← other)) :=
  first.bind fun _ => refl _

theorem mapM {step again : α → Except ε β} {values : List α}
    (each : ∀ value ∈ values, Yields (step value) (again value)) :
    Yields (values.mapM step) (values.mapM again) := by
  induction values with
  | nil => exact refl _
  | cons value values ih =>
    rw [List.mapM_cons, List.mapM_cons]
    refine bind (each value List.mem_cons_self) fun first => ?_
    exact (ih fun next member => each next (List.mem_cons_of_mem _ member)).bind fun _ => refl _

theorem foldlM {step again : σ → α → Except ε σ} {values : List α}
    (each : ∀ value ∈ values, ∀ state, Yields (step state value) (again state value)) {start : σ} :
    Yields (values.foldlM step start) (values.foldlM again start) := by
  induction values generalizing start with
  | nil => exact refl _
  | cons value values ih =>
    rw [List.foldlM_cons, List.foldlM_cons]
    refine bind (each value List.mem_cons_self start) fun state => ?_
    exact ih fun next member => each next (List.mem_cons_of_mem _ member)

theorem anyM {step again : α → Except ε Bool} {values : List α}
    (each : ∀ value ∈ values, Yields (step value) (again value)) :
    Yields (values.anyM step) (values.anyM again) := by
  induction values with
  | nil => exact refl _
  | cons value values ih =>
    rw [List.anyM_cons, List.anyM_cons]
    refine bind (each value List.mem_cons_self) fun found => ?_
    cases found with
    | true => exact refl _
    | false => exact ih fun next member => each next (List.mem_cons_of_mem _ member)

/-- A value for each of some others, or none for all. -/
theorem mapM_option {step again : α → Except ε (Option β)} {values : List α}
    (each : ∀ value ∈ values, Yields (step value) (again value)) :
    Yields (values.mapM fun value => OptionT.mk (step value)).run
      (values.mapM fun value => OptionT.mk (again value)).run := by
  induction values with
  | nil => exact refl _
  | cons value values ih =>
    rw [List.mapM_cons, List.mapM_cons, OptionT.run_bind, OptionT.run_bind]
    refine bind (each value List.mem_cons_self) fun found => ?_
    cases found with
    | none => exact refl _
    | some result =>
      rw [Option.elim_some, Option.elim_some, OptionT.run_bind, OptionT.run_bind]
      exact (ih fun next member => each next (List.mem_cons_of_mem _ member)).bind fun _ => refl _

end Yields

end Cascades
