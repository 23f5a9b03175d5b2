/-
**Actions step by step.**

An action ends with a value or an abort, each with the state it reached, or in a fault. What it
takes for one action after another to end so is what it takes for each.

* `bind_eq_ok_iff`: one action after another;
* `Relates`: whatever an action ends with, the state before and the state after are related;
* `Ensures`: an action keeps a property of the state, and its values have a property too;
* `Leads`: what holds where an action gives a value, and how it may end without one;
* `Gives`: from a state an action gives a value.
-/

import Cascades.Guard
import Cascades.Proofs.Outcome

namespace Cascades

/-- A computation that cannot abort ends well as one that can. -/
theorem lift_fault_eq_ok_iff {α : Type} {computation : Except Fault α} {value : α} :
    (liftM computation : Except Failure α) = .ok value ↔ computation = .ok value := by
  cases computation with
  | ok other =>
    constructor <;> intro same <;> cases same <;> rfl
  | error cause =>
    constructor <;> intro same <;> cases same

/-- A computation that cannot fail otherwise ends well as one that can. -/
theorem lift_abort_eq_ok_iff {α : Type} {computation : Except Abort α} {value : α} :
    (liftM computation : Except Failure α) = .ok value ↔ computation = .ok value := by
  cases computation with
  | ok other =>
    constructor <;> intro same <;> cases same <;> rfl
  | error cause =>
    constructor <;> intro same <;> cases same

/-! ### Failures that are allowed -/

/-- An abort by which a guard stops a search. -/
def Abort.Stops (abort : Abort) : Prop := abort.stopsSearch = true

theorem Guard.refusal_stops {guard : Guard} : guard.refusal.Stops := by
  unfold refusal
  split <;> rfl

theorem Guard.check_ends {guard : Guard} {depth : Nat} :
    Ends Abort.Stops (guard.check depth) fun _ => True :=
  Ends.ite (Ends.throw refusal_stops) (Ends.pure trivial)

/-- Failures that are allowed: every abort that stops a search, and some faults. -/
def Failure.Allowed (faulty : Fault → Prop) : Failure → Prop
  | .abort cause => cause.Stops
  | .fault cause => faulty cause

theorem Failure.Allowed.mono {faulty more : Fault → Prop} {failure : Failure}
    (may : failure.Allowed faulty) (weaker : ∀ cause, faulty cause → more cause) :
    failure.Allowed more := by
  cases failure with
  | abort _ => exact may
  | fault cause => exact weaker cause may

theorem Ends.lift {α : Type} {faulty : Fault → Prop} {computation : Except Fault α}
    {gives : α → Prop} (ends : Ends faulty computation gives) :
    Ends (Failure.Allowed faulty) (liftM computation : Except Failure α) gives := by
  cases computation with
  | ok value => exact ends
  | error cause => exact ends

/-- The next step works with a value that is known and cannot abort. -/
theorem Ends.bind_lift_ok {α β : Type} {allowed : Failure → Prop} {computation : Except Fault α}
    {value : α} {next : α → Except Failure β} {gives : β → Prop} (done : computation = .ok value)
    (second : Ends allowed (next value) gives) :
    Ends allowed (liftM computation >>= next) gives :=
  .bind_ok (lift_fault_eq_ok_iff.2 done) second

theorem Ends.lift_abort {α : Type} {faulty : Fault → Prop} {computation : Except Abort α}
    {gives : α → Prop} (ends : Ends Abort.Stops computation gives) :
    Ends (Failure.Allowed faulty) (liftM computation : Except Failure α) gives := by
  cases computation with
  | ok value => exact ends
  | error cause => exact ends

namespace Action

variable {σ τ α β : Type}

/-! ### Single steps -/

theorem bind_eq_ok_iff {first : Action σ α} {next : α → Action σ β} {state final : σ}
    {result : Except Abort β} :
    (first >>= next : Action σ β) state = .ok (result, final) ↔
      (∃ value middle, first state = .ok (.ok value, middle) ∧
        next value middle = .ok (result, final)) ∨
      ∃ abort, first state = .ok (.error abort, final) ∧ result = .error abort := by
  show (first state >>= _) = _ ↔ _
  cases first state with
  | error cause =>
    constructor
    · exact nofun
    · rintro (⟨_, _, started, _⟩ | ⟨_, started, _⟩) <;> cases started
  | ok ended =>
    obtain ⟨_ | value, middle⟩ := ended
    · rename_i abort
      constructor
      · intro same
        cases same
        exact Or.inr ⟨abort, rfl, rfl⟩
      · rintro (⟨_, _, started, _⟩ | ⟨_, started, rfl⟩)
        · cases started
        · cases started
          rfl
    · constructor
      · intro same
        exact Or.inl ⟨value, middle, rfl, same⟩
      · rintro (⟨_, _, started, rest⟩ | ⟨_, started, _⟩)
        · cases started
          exact rest
        · cases started

theorem lift_eq_ok_iff {computation : Except Fault α} {state final : σ} {result : Except Abort α} :
    (liftM computation : Action σ α) state = .ok (result, final) ↔
      ∃ value, computation = .ok value ∧ result = .ok value ∧ final = state := by
  cases computation with
  | error cause =>
    constructor
    · intro same
      cases same
    · rintro ⟨_, ended, _⟩
      cases ended
  | ok value =>
    constructor
    · intro same
      cases same
      exact ⟨value, rfl, rfl, rfl⟩
    · rintro ⟨_, ended, rfl, rfl⟩
      cases ended
      rfl

theorem lift_abort_eq_ok_iff {computation : Except Abort α} {state final : σ}
    {result : Except Abort α} :
    (liftM computation : Action σ α) state = .ok (result, final) ↔
      result = computation ∧ final = state := by
  cases computation with
  | error abort =>
    constructor
    · intro same
      cases same
      exact ⟨rfl, rfl⟩
    · rintro ⟨rfl, rfl⟩
      rfl
  | ok value =>
    constructor
    · intro same
      cases same
      exact ⟨rfl, rfl⟩
    · rintro ⟨rfl, rfl⟩
      rfl

theorem lift_failure_eq_ok_iff {computation : Except Failure α} {state final : σ}
    {result : Except Abort α} :
    (liftM computation : Action σ α) state = .ok (result, final) ↔
      final = state ∧ ((∃ value, computation = .ok value ∧ result = .ok value) ∨
        ∃ abort, computation = .error (.abort abort) ∧ result = .error abort) := by
  rcases computation with (abort | cause) | value
  · constructor
    · intro same
      cases same
      exact ⟨rfl, Or.inr ⟨abort, rfl, rfl⟩⟩
    · rintro ⟨rfl, ⟨_, ended, _⟩ | ⟨_, ended, rfl⟩⟩
      · cases ended
      · cases ended
        rfl
  · constructor
    · intro same
      cases same
    · rintro ⟨_, ⟨_, ended, _⟩ | ⟨_, ended, _⟩⟩ <;> cases ended
  · constructor
    · intro same
      cases same
      exact ⟨rfl, Or.inl ⟨value, rfl, rfl⟩⟩
    · rintro ⟨rfl, ⟨_, ended, rfl⟩ | ⟨_, ended, _⟩⟩
      · cases ended
        rfl
      · cases ended

/-- An action that begins with reading the state. -/
theorem get_bind_eq_ok_iff {next : σ → Action σ α} {state final : σ} {result : Except Abort α} :
    ((get : Action σ σ) >>= next : Action σ α) state = .ok (result, final) ↔
      next state state = .ok (result, final) := Iff.rfl

/-- An action that begins with a computation that cannot abort. -/
theorem lift_bind_eq_ok_iff {computation : Except Fault α} {next : α → Action σ β} {state final : σ}
    {result : Except Abort β} :
    ((liftM computation : Action σ α) >>= next : Action σ β) state = .ok (result, final) ↔
      ∃ value, computation = .ok value ∧ next value state = .ok (result, final) := by
  rw [bind_eq_ok_iff]
  constructor
  · rintro (⟨value, middle, given, rest⟩ | ⟨abort, stopped, _⟩)
    · obtain ⟨_, done, same, rfl⟩ := lift_eq_ok_iff.1 given
      cases same
      exact ⟨value, done, rest⟩
    · obtain ⟨_, _, same, _⟩ := lift_eq_ok_iff.1 stopped
      cases same
  · rintro ⟨value, done, rest⟩
    exact Or.inl ⟨value, state, lift_eq_ok_iff.2 ⟨value, done, rfl, rfl⟩, rest⟩

theorem onPart_eq_ok_iff {view : σ → τ} {update : σ → τ → σ} {action : Action τ α}
    {state final : σ} {result : Except Abort α} :
    onPart view update action state = .ok (result, final) ↔
      ∃ part, action (view state) = .ok (result, part) ∧ final = update state part := by
  unfold onPart
  cases action (view state) with
  | error cause =>
    constructor
    · intro same
      cases same
    · rintro ⟨_, ended, _⟩
      cases ended
  | ok ended =>
    constructor
    · intro same
      cases same
      exact ⟨ended.2, rfl, rfl⟩
    · rintro ⟨part, same, rfl⟩
      cases same
      rfl

/-! ### Whole actions -/

/-- Whatever an action ends with, the state before and the state after are related. -/
def Relates (relation : σ → σ → Prop) (action : Action σ α) : Prop :=
  ∀ before result after, action before = .ok (result, after) → relation before after

section Relates

variable {relation : σ → σ → Prop} (refl : ∀ state, relation state state)
  (trans : ∀ one two three, relation one two → relation two three → relation one three)

include trans in
theorem Relates.bind {first : Action σ α} {next : α → Action σ β} (one : Relates relation first)
    (others : ∀ value, Relates relation (next value)) :
    Relates relation (first >>= next : Action σ β) := by
  intro before result after done
  rcases bind_eq_ok_iff.1 done with ⟨value, middle, started, rest⟩ | ⟨abort, stopped, _⟩
  · exact trans _ _ _ (one _ _ _ started) (others value _ _ _ rest)
  · exact one _ _ _ stopped

include refl in
theorem Relates.pure (value : α) : Relates relation (pure value : Action σ α) := by
  intro before result after done
  cases done
  exact refl before

include refl in
theorem Relates.get : Relates relation (get : Action σ σ) := by
  intro before result after done
  cases done
  exact refl before

theorem Relates.modify {change : σ → σ} (each : ∀ state, relation state (change state)) :
    Relates relation (modify change : Action σ PUnit) := by
  intro before result after done
  cases done
  exact each before

include refl in
theorem Relates.lift (computation : Except Fault α) :
    Relates relation (liftM computation : Action σ α) := by
  intro before result after done
  obtain ⟨_, _, _, rfl⟩ := lift_eq_ok_iff.1 done
  exact refl after

include refl in
theorem Relates.lift_abort (computation : Except Abort α) :
    Relates relation (liftM computation : Action σ α) := by
  intro before result after done
  rw [(lift_abort_eq_ok_iff.1 done).2]
  exact refl before

include refl trans in
theorem Relates.forM {step : β → Action σ PUnit} {values : List β}
    (each : ∀ value ∈ values, Relates relation (step value)) :
    Relates relation (values.forM step : Action σ PUnit) := by
  induction values with
  | nil => exact Relates.pure refl PUnit.unit
  | cons value values ih =>
    have rest := ih fun other member => each other (List.mem_cons_of_mem _ member)
    have all : Relates relation (step value >>= fun _ => values.forM step : Action σ PUnit) :=
      Relates.bind trans (each value List.mem_cons_self) fun _ => rest
    exact all

end Relates

/-! ### Properties of states and values -/

/-- From a state with a property an action ends in a state with the property, and a value that it
gives has a property of its own. -/
def Ensures (holds : σ → Prop) (action : Action σ α) (gives : α → Prop) : Prop :=
  ∀ before result after, holds before → action before = .ok (result, after) →
    holds after ∧ ∀ value, result = .ok value → gives value

section Ensures

variable {holds : σ → Prop} {gives : α → Prop} {ends : β → Prop}

theorem Ensures.bind {first : Action σ α} {next : α → Action σ β}
    (one : Ensures holds first gives) (others : ∀ value, gives value → Ensures holds (next value) ends) :
    Ensures holds (first >>= next : Action σ β) ends := by
  intro before result after start done
  rcases bind_eq_ok_iff.1 done with ⟨value, middle, started, rest⟩ | ⟨abort, stopped, rfl⟩
  · obtain ⟨between, given⟩ := one _ _ _ start started
    exact others value (given value rfl) _ _ _ between rest
  · exact ⟨(one _ _ _ start stopped).1, fun _ same => nomatch same⟩

theorem Ensures.get : Ensures holds (get : Action σ σ) holds := by
  intro before result after start done
  cases done
  refine ⟨start, fun value same => ?_⟩
  cases same
  exact start

theorem Ensures.pure {value : α} (given : gives value) :
    Ensures holds (pure value : Action σ α) gives := by
  intro before result after start done
  cases done
  refine ⟨start, fun other same => ?_⟩
  cases same
  exact given

theorem Ensures.modify {change : σ → σ} (each : ∀ state, holds state → holds (change state)) :
    Ensures holds (modify change : Action σ PUnit) fun _ => True := by
  intro before result after start done
  cases done
  exact ⟨each before start, fun _ _ => trivial⟩

theorem Ensures.lift {computation : Except Fault α}
    (each : ∀ value, computation = .ok value → gives value) :
    Ensures holds (liftM computation : Action σ α) gives := by
  intro before result after start done
  obtain ⟨value, ended, rfl, rfl⟩ := lift_eq_ok_iff.1 done
  refine ⟨start, fun other same => ?_⟩
  cases same
  exact each value ended

theorem Ensures.lift_abort {computation : Except Abort α} :
    Ensures holds (liftM computation : Action σ α) fun _ => True := by
  intro before result after start done
  rw [(lift_abort_eq_ok_iff.1 done).2]
  exact ⟨start, fun _ _ => trivial⟩

theorem Ensures.forM {step : β → Action σ PUnit} {values : List β}
    (each : ∀ value ∈ values, Ensures holds (step value) fun _ => True) :
    Ensures holds (values.forM step : Action σ PUnit) fun _ => True := by
  induction values with
  | nil => exact Ensures.pure trivial
  | cons value values ih =>
    have rest := ih fun other member => each other (List.mem_cons_of_mem _ member)
    have all : Ensures holds (step value >>= fun _ => values.forM step : Action σ PUnit)
        fun _ => True :=
      Ensures.bind (each value List.mem_cons_self) fun _ _ => rest
    exact all

end Ensures

/-- From a state with one property, an action that ends normally or is aborted leads to a state with
another one. -/
def Brings (start finish : σ → Prop) (action : Action σ α) : Prop :=
  ∀ before result after, start before → action before = .ok (result, after) → finish after

section Brings

variable {start finish : σ → Prop} {gives : α → Prop}

/-- An action that keeps a property, and then one that leads from it to another one. -/
theorem Ensures.brings {first : Action σ α} {next : α → Action σ β} (one : Ensures start first gives)
    (weaker : ∀ state, start state → finish state)
    (others : ∀ value, gives value → Brings start finish (next value)) :
    Brings start finish (first >>= next : Action σ β) := by
  intro before result after begins done
  rcases bind_eq_ok_iff.1 done with ⟨value, middle, started, rest⟩ | ⟨abort, stopped, rfl⟩
  · obtain ⟨between, given⟩ := one _ _ _ begins started
    exact others value (given value rfl) _ _ _ between rest
  · exact weaker after (one _ _ _ begins stopped).1

theorem Brings.pure {value : α} (weaker : ∀ state, start state → finish state) :
    Brings start finish (pure value : Action σ α) := by
  rintro before result after begins done
  cases done
  exact weaker before begins

theorem Brings.modify {change : σ → σ} (each : ∀ state, start state → finish (change state)) :
    Brings start finish (modify change : Action σ PUnit) := by
  rintro before result after begins done
  cases done
  exact each before begins

end Brings

/-! ### Ends that are allowed -/

/-- From a state with a property, an action gives a value and a state that fit, or a guard stops it,
or it ends in a fault that is allowed. -/
def Leads (faulty : Fault → Prop) (start : σ → Prop) (action : Action σ α)
    (finish : α → σ → Prop) : Prop :=
  ∀ before, start before → Ends faulty (action before) fun ended =>
    Ends Abort.Stops ended.1 fun value => finish value ended.2

section Leads

variable {faulty : Fault → Prop} {start : σ → Prop} {finish : α → σ → Prop} {last : β → σ → Prop}

theorem Leads.bind {first : Action σ α} {next : α → Action σ β}
    (one : Leads faulty start first finish)
    (others : ∀ value, Leads faulty (finish value) (next value) last) :
    Leads faulty start (first >>= next : Action σ β) last := by
  intro before begins
  have ends := one before begins
  change Ends faulty (first before >>= _) _
  cases ran : first before with
  | error cause =>
    rw [ran] at ends
    exact ends
  | ok ended =>
    rw [ran] at ends
    obtain ⟨_ | value, middle⟩ := ended
    · exact ends
    · exact others value middle ends

theorem Leads.mono {action : Action σ α} {more : α → σ → Prop}
    (leads : Leads faulty start action finish)
    (weaker : ∀ value state, finish value state → more value state) :
    Leads faulty start action more :=
  fun before begins => (leads before begins).mono fun ended fits =>
    fits.mono fun value => weaker value ended.2

theorem Leads.of_start {action : Action σ α} {less : σ → Prop}
    (leads : Leads faulty less action finish) (stronger : ∀ state, start state → less state) :
    Leads faulty start action finish :=
  fun before begins => leads before (stronger before begins)

/-- What holds once an action gave a value. -/
theorem Leads.of_ok {action : Action σ α} (leads : Leads faulty start action finish)
    {before after : σ} (begins : start before) {value : α}
    (done : action before = .ok (.ok value, after)) : finish value after := by
  have ends := leads before begins
  rw [done] at ends
  exact ends

theorem Leads.pure {value : α} (fits : ∀ state, start state → finish value state) :
    Leads faulty start (pure value : Action σ α) finish :=
  fun before begins => fits before begins

/-- What comes after looking at the state knows it. -/
theorem Leads.bind_get {next : σ → Action σ β}
    (others : ∀ state, start state → Leads faulty (· = state) (next state) last) :
    Leads faulty start (get >>= next : Action σ β) last :=
  fun before begins => others before begins before rfl

theorem Leads.set {state : σ} {after : σ → Prop} (fits : after state) :
    Leads faulty start (set state : Action σ PUnit) fun _ => after :=
  fun _ _ => fits

theorem Leads.modify {change : σ → σ} {after : σ → Prop}
    (each : ∀ state, start state → after (change state)) :
    Leads faulty start (modify change : Action σ PUnit) fun _ => after :=
  fun before begins => each before begins

/-- What comes after a computation that does not look at the state. -/
theorem Leads.bind_lift {computation : Except Fault α} {gives : α → Prop} {next : α → Action σ β}
    (ends : Ends faulty computation gives)
    (others : ∀ value, gives value → Leads faulty start (next value) last) :
    Leads faulty start (liftM computation >>= next : Action σ β) last := by
  intro before begins
  cases computation with
  | error cause => exact ends
  | ok value => exact others value ends before begins

/-- The next step works with a value that is known. -/
theorem Leads.bind_ok {computation : Except Fault α} {value : α} {next : α → Action σ β}
    (done : computation = .ok value) (second : Leads faulty start (next value) last) :
    Leads faulty start (liftM computation >>= next : Action σ β) last := by
  rw [done]
  exact second

theorem Leads.bind_abort {computation : Except Abort α} {gives : α → Prop} {next : α → Action σ β}
    (ends : Ends Abort.Stops computation gives)
    (others : ∀ value, gives value → Leads faulty start (next value) last) :
    Leads faulty start (liftM computation >>= next : Action σ β) last := by
  intro before begins
  cases computation with
  | error abort => exact ends
  | ok value => exact others value ends before begins

theorem Leads.bind_failure {computation : Except Failure α} {gives : α → Prop}
    {next : α → Action σ β} (ends : Ends (Failure.Allowed faulty) computation gives)
    (others : ∀ value, gives value → Leads faulty start (next value) last) :
    Leads faulty start (liftM computation >>= next : Action σ β) last := by
  intro before begins
  rcases computation with (abort | cause) | value
  · exact ends
  · exact ends
  · exact others value ends before begins

/-- A computation that does not look at the state leaves it as it is. -/
theorem Leads.lift {computation : Except Fault α} {gives : α → Prop} {state : σ}
    (ends : Ends faulty computation gives) :
    Leads faulty (· = state) (liftM computation : Action σ α)
      fun value last => gives value ∧ last = state := by
  rintro _ rfl
  cases computation with
  | error cause => exact ends
  | ok value => exact ⟨ends, rfl⟩

theorem Leads.lift_failure {computation : Except Failure α} {gives : α → Prop} {state : σ}
    (ends : Ends (Failure.Allowed faulty) computation gives) :
    Leads faulty (· = state) (liftM computation : Action σ α)
      fun value last => gives value ∧ last = state := by
  rintro _ rfl
  rcases computation with (abort | cause) | value
  · exact ends
  · exact ends
  · exact ⟨ends, rfl⟩

/-- An action on a part of the state. -/
theorem Leads.onPart {view : σ → τ} {update : σ → τ → σ} {action : Action τ α} {whole : σ}
    {after : α → τ → Prop} (leads : Leads faulty (· = view whole) action after) :
    Leads faulty (· = whole) (onPart view update action) fun value state =>
      ∃ part, state = update whole part ∧ after value part := by
  rintro _ rfl
  have ends := leads (view _) rfl
  unfold Action.onPart
  cases ran : action (view _) with
  | error cause =>
    rw [ran] at ends
    exact ends
  | ok ended =>
    rw [ran] at ends
    have fits : Ends Abort.Stops ended.1 fun value => after value ended.2 := ends
    exact fits.mono fun value fits => ⟨ended.2, rfl, fits⟩

/-- Steps for the numbers below a bound, each of which takes a property one number further. -/
theorem Leads.forM_range {step : Nat → Action σ PUnit} {holds : Nat → σ → Prop} {count : Nat}
    (each : ∀ number < count, Leads faulty (holds number) (step number) fun _ => holds (number + 1)) :
    Leads faulty (holds 0) ((List.range count).forM step : Action σ PUnit) fun _ => holds count := by
  have along : ∀ fewer first, first + fewer = count →
      Leads faulty (holds first) ((List.range' first fewer).forM step : Action σ PUnit)
        fun _ => holds count := by
    intro fewer
    induction fewer with
    | zero =>
      rintro first rfl
      exact Leads.pure fun _ begins => begins
    | succ fewer ih =>
      intro first total
      have all : Leads faulty (holds first)
          (step first >>= fun _ => (List.range' (first + 1) fewer).forM step : Action σ PUnit)
          fun _ => holds count :=
        Leads.bind (each first (by omega)) fun _ => ih (first + 1) (by omega)
      exact all
  rw [List.range_eq_range']
  exact along count 0 (Nat.zero_add count)

end Leads

/-! ### Giving a value -/

/-- From a state an action gives a value. -/
def Gives (action : Action σ α) (state : σ) : Prop :=
  ∃ value after, action state = .ok (.ok value, after)

variable {state : σ}

theorem Gives.get {next : σ → Action σ β} (rest : Gives (next state) state) :
    Gives ((MonadState.get : Action σ σ) >>= next) state := rest

theorem Gives.lift {computation : Except Fault α} {value : α} {next : α → Action σ β}
    (done : computation = .ok value) (rest : Gives (next value) state) :
    Gives ((liftM computation : Action σ α) >>= next) state := by
  rw [done]
  exact rest

theorem Gives.lift_abort {computation : Except Abort α} {value : α} {next : α → Action σ β}
    (done : computation = .ok value) (rest : Gives (next value) state) :
    Gives ((liftM computation : Action σ α) >>= next) state := by
  rw [done]
  exact rest

theorem Gives.lift_failure {computation : Except Failure α} {value : α} {next : α → Action σ β}
    (done : computation = .ok value) (rest : Gives (next value) state) :
    Gives ((liftM computation : Action σ α) >>= next) state := by
  rw [done]
  exact rest

theorem Gives.bind {action : Action σ α} {value : α} {middle : σ} {next : α → Action σ β}
    (done : action state = .ok (.ok value, middle)) (rest : Gives (next value) middle) :
    Gives (action >>= next) state :=
  rest.imp fun _ => Exists.imp fun _ two => bind_eq_ok_iff.2 (Or.inl ⟨value, middle, done, two⟩)

end Action

end Cascades
