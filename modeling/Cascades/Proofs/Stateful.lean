/-
**Computations that pass a state on.**

A computation on a state that may fail carries a property of the state along if every step of it
does. Where it gives a value, the value has a property too.

* `run'_eq_ok_iff`, `forall₂_of_run`: what it takes to end well;
* `Carries`: a property of the state is carried along; its rules follow the steps;
* `Runs`: so it is, and only some failures are allowed;
* `Advances`: states go on in one direction, and what is given has a property in the last one;
* `Mirrors`: the outcome is the one that other steps have without looking at the state.
-/

import Cascades.Proofs.Outcome
import Mathlib.Data.List.Forall2

namespace Cascades

variable {ε α β σ : Type}

theorem run'_eq_ok_iff {steps : StateT σ (Except ε) α} {first : σ} {result : α} :
    steps.run' first = .ok result ↔ ∃ last, steps first = .ok (result, last) := by
  have shown : steps.run' first = (steps first).map (·.1) := rfl
  rw [shown]
  cases steps first with
  | error cause => simp [Except.map]
  | ok done => simp [Except.map, Prod.ext_iff]

/-- Steps that pass a state on, one for each value. -/
theorem forall₂_of_run {step : α → StateT σ (Except ε) β} {values : List α} {results : List β}
    {first last : σ} (run : (values.mapM step) first = .ok (results, last)) :
    List.Forall₂ (fun value result => ∃ before after, step value before = .ok (result, after))
      values results := by
  induction values generalizing results first with
  | nil =>
    cases pure_eq_ok_iff.1 run
    exact .nil
  | cons value values ih =>
    rw [List.mapM_cons] at run
    obtain ⟨⟨result, middle⟩, one, run⟩ := bind_eq_ok_iff.1 run
    obtain ⟨⟨rest, last⟩, others, run⟩ := bind_eq_ok_iff.1 run
    cases pure_eq_ok_iff.1 run
    exact .cons ⟨first, middle, one⟩ (ih others)

/-- A step that is known leaves the next one. -/
theorem bind_known {computation : Except ε α} {value : α}
    {next : α → StateT σ (Except ε) β} (done : computation = .ok value) :
    (liftM computation : StateT σ (Except ε) α) >>= next = next value := by
  rw [done]
  rfl

/-- What is done with a value that is computed is the same if it is for every such value. -/
theorem bind_lift_congr {computation : Except ε α} {steps others : α → StateT σ (Except ε) β}
    (each : ∀ value, computation = .ok value → steps value = others value) :
    (StateT.lift computation : StateT σ (Except ε) α) >>= steps =
      StateT.lift computation >>= others := by
  cases done : computation with
  | error cause => rfl
  | ok value => exact each value done

theorem bind_of_ok {steps : StateT σ (Except ε) α} {next : α → StateT σ (Except ε) β} {value : α}
    {before middle : σ} (done : steps before = .ok (value, middle)) :
    (steps >>= next) before = next value middle := by
  show steps before >>= _ = _
  rw [done]
  rfl

theorem bind_of_error {steps : StateT σ (Except ε) α} {next : α → StateT σ (Except ε) β} {cause : ε}
    {before : σ} (failed : steps before = .error cause) : (steps >>= next) before = .error cause := by
  show steps before >>= _ = _
  rw [failed]
  rfl

/-! ### Carrying a property along -/

/-- A state with a property is left with it, and the value that is given has a property. -/
def Carries (holds : σ → Prop) (steps : StateT σ (Except ε) α) (gives : α → Prop) : Prop :=
  ∀ before value after, holds before → steps before = .ok (value, after) →
    holds after ∧ gives value

namespace Carries

variable {holds : σ → Prop} {steps : StateT σ (Except ε) α} {gives : α → Prop}

theorem bind {next : α → StateT σ (Except ε) β} {later : β → Prop}
    (first : Carries holds steps gives) (second : ∀ value, gives value → Carries holds (next value) later) :
    Carries holds (steps >>= next) later := by
  intro before value after start done
  obtain ⟨⟨middle, state⟩, one, two⟩ := bind_eq_ok_iff.1 done
  obtain ⟨kept, given⟩ := first _ _ _ start one
  exact second middle given _ _ _ kept two

theorem pure {value : α} (given : gives value) :
    Carries holds (Pure.pure value : StateT σ (Except ε) α) gives := by
  intro before result after start done
  cases pure_eq_ok_iff.1 done
  exact ⟨start, given⟩

theorem throw {cause : ε} : Carries holds (MonadExcept.throw cause : StateT σ (Except ε) α) gives := by
  intro before result after start done
  cases done

theorem get : Carries holds (MonadState.get : StateT σ (Except ε) σ) holds := by
  intro before result after start done
  cases done
  exact ⟨start, start⟩

theorem modify {change : σ → σ} (keeps : ∀ {state}, holds state → holds (change state)) :
    Carries holds (MonadState.modifyGet fun state => (⟨⟩, change state) : StateT σ (Except ε) PUnit)
      fun _ => True := by
  intro before result after start done
  cases done
  exact ⟨keeps start, trivial⟩

/-- A computation that does not look at the state. -/
theorem lift {computation : Except ε α}
    (each : ∀ {value}, computation = .ok value → gives value) :
    Carries holds (StateT.lift computation : StateT σ (Except ε) α) gives := by
  intro before result after start done
  obtain ⟨value, given, done⟩ := bind_eq_ok_iff.1 done
  cases pure_eq_ok_iff.1 done
  exact ⟨start, each given⟩

/-- The next step works with a value that is computed. -/
theorem bind_lift {computation : Except ε β} {next : β → StateT σ (Except ε) α}
    (second : ∀ value, computation = .ok value → Carries holds (next value) gives) :
    Carries holds (StateT.lift computation >>= next) gives := by
  intro before value after start done
  obtain ⟨⟨middle, state⟩, one, two⟩ := bind_eq_ok_iff.1 done
  obtain ⟨found, given, same⟩ := bind_eq_ok_iff.1 one
  cases pure_eq_ok_iff.1 same
  exact second middle given _ _ _ start two

/-- The next step works with a value that is known. -/
theorem bind_ok {computation : Except ε β} {value : β} {next : β → StateT σ (Except ε) α}
    (done : computation = .ok value) (second : Carries holds (next value) gives) :
    Carries holds (StateT.lift computation >>= next) gives :=
  bind_lift fun _ given => Except.ok.inj (done.symm.trans given) ▸ second

theorem foldlM (good : β → Prop) {step : β → α → StateT σ (Except ε) β} {values : List α}
    (each : ∀ value ∈ values, ∀ best, good best → Carries holds (step best value) good) {start : β}
    (first : good start) : Carries holds (values.foldlM step start) good := by
  induction values generalizing start with
  | nil => exact pure first
  | cons value values ih =>
    rw [List.foldlM_cons]
    refine bind (each value List.mem_cons_self start first) fun best found => ?_
    exact ih (fun other member => each other (List.mem_cons_of_mem _ member)) found

/-- A value for each of some others, or none for all. -/
theorem mapM_option {step : α → StateT σ (Except ε) (Option β)} {values : List α}
    {relates : α → β → Prop}
    (each : ∀ value ∈ values, Carries holds (step value) fun found =>
      ∀ result, found = some result → relates value result) :
    Carries holds (values.mapM fun value => OptionT.mk (step value)).run fun found =>
      ∀ results, found = some results → List.Forall₂ relates values results := by
  induction values with
  | nil =>
    rw [List.mapM_nil, OptionT.run_pure]
    refine pure fun results given => ?_
    cases given
    exact .nil
  | cons value values ih =>
    rw [List.mapM_cons, OptionT.run_bind]
    refine bind (each value List.mem_cons_self) fun found one => ?_
    cases found with
    | none => exact pure fun results given => nomatch given
    | some result =>
      rw [Option.elim_some, OptionT.run_bind]
      refine bind (ih fun other member => each other (List.mem_cons_of_mem _ member))
        fun rest others => ?_
      cases rest with
      | none => exact pure fun results given => nomatch given
      | some more =>
        refine pure fun results given => ?_
        cases given
        exact .cons (one result rfl) (others more rfl)

end Carries

/-! ### Failing in allowed ways only -/

/-- From a state with a property, steps give a value and a state that have properties, or they fail
in a way that is allowed. -/
def Runs (allowed : ε → Prop) (holds : σ → Prop) (steps : StateT σ (Except ε) α)
    (gives : α → Prop) : Prop :=
  ∀ before, holds before → Ends allowed (steps before) fun ended => holds ended.2 ∧ gives ended.1

namespace Runs

variable {allowed : ε → Prop} {holds : σ → Prop} {steps : StateT σ (Except ε) α}
  {gives : α → Prop}

theorem bind {next : α → StateT σ (Except ε) β} {later : β → Prop}
    (first : Runs allowed holds steps gives)
    (second : ∀ value, gives value → Runs allowed holds (next value) later) :
    Runs allowed holds (steps >>= next) later :=
  fun before start => Ends.bind (first before start) fun ended between =>
    second ended.1 between.2 ended.2 between.1

theorem pure {value : α} (given : gives value) :
    Runs allowed holds (Pure.pure value : StateT σ (Except ε) α) gives :=
  fun _ start => ⟨start, given⟩

theorem throw {cause : ε} (may : allowed cause) :
    Runs allowed holds (MonadExcept.throw cause : StateT σ (Except ε) α) gives :=
  fun _ _ => may

theorem get : Runs allowed holds (MonadState.get : StateT σ (Except ε) σ) holds :=
  fun _ start => ⟨start, start⟩

theorem modify {change : σ → σ} (keeps : ∀ state, holds state → holds (change state)) :
    Runs allowed holds
      (MonadState.modifyGet fun state => (⟨⟩, change state) : StateT σ (Except ε) PUnit)
      fun _ => True :=
  fun before start => ⟨keeps before start, trivial⟩

/-- A computation that does not look at the state. -/
theorem lift {computation : Except ε α} (ends : Ends allowed computation gives) :
    Runs allowed holds (StateT.lift computation : StateT σ (Except ε) α) gives :=
  fun _ start => Ends.bind ends fun _ given => ⟨start, given⟩

/-- The next step works with a value that is known. -/
theorem bind_ok {computation : Except ε α} {value : α} {next : α → StateT σ (Except ε) β}
    {later : β → Prop} (done : computation = .ok value)
    (second : Runs allowed holds (next value) later) :
    Runs allowed holds (StateT.lift computation >>= next) later := by
  rw [done]
  exact second

/-- The value only. -/
theorem run' {first : σ} (runs : Runs allowed holds steps gives) (start : holds first) :
    Ends allowed (steps.run' first) gives := by
  have ends := runs first start
  unfold StateT.run'
  cases done : steps first with
  | ok ended =>
    rw [done] at ends
    exact ends.2
  | error cause =>
    rw [done] at ends
    exact ends

theorem mapM {step : α → StateT σ (Except ε) β} {values : List α} {relates : α → β → Prop}
    (each : ∀ value ∈ values, Runs allowed holds (step value) (relates value)) :
    Runs allowed holds (values.mapM step) (List.Forall₂ relates values) := by
  induction values with
  | nil => exact pure .nil
  | cons value values ih =>
    rw [List.mapM_cons]
    refine bind (each value List.mem_cons_self) fun first one => ?_
    refine bind (ih fun other member => each other (List.mem_cons_of_mem _ member))
      fun rest others => ?_
    exact pure (.cons one others)

/-- What is good of a result may depend on the values that were gone through. -/
theorem foldlM (good : List α → β → Prop) (done : List α) {step : β → α → StateT σ (Except ε) β}
    {values : List α}
    (each : ∀ value ∈ values, ∀ done best, good done best →
      Runs allowed holds (step best value) (good (done ++ [value]))) {start : β}
    (first : good done start) :
    Runs allowed holds (values.foldlM step start) (good (done ++ values)) := by
  induction values generalizing done start with
  | nil =>
    rw [List.append_nil]
    exact pure first
  | cons value values ih =>
    rw [List.foldlM_cons]
    refine bind (each value List.mem_cons_self done start first) fun best found => ?_
    have rest := ih (done ++ [value])
      (fun other member => each other (List.mem_cons_of_mem _ member)) found
    rwa [List.append_assoc, List.singleton_append] at rest

/-- A value for each of some others, or none for all where one has none. -/
theorem mapM_option {step : α → StateT σ (Except ε) (Option β)} {values : List α}
    {relates : α → Option β → Prop}
    (each : ∀ value ∈ values, Runs allowed holds (step value) (relates value)) :
    Runs allowed holds (values.mapM fun value => OptionT.mk (step value)).run fun found =>
      match found with
      | some results => List.Forall₂ (fun value result => relates value (some result)) values results
      | none => ∃ value ∈ values, relates value none := by
  induction values with
  | nil =>
    rw [List.mapM_nil, OptionT.run_pure]
    exact pure .nil
  | cons value values ih =>
    rw [List.mapM_cons, OptionT.run_bind]
    refine bind (each value List.mem_cons_self) fun found one => ?_
    cases found with
    | none => exact pure ⟨value, List.mem_cons_self, one⟩
    | some result =>
      rw [Option.elim_some, OptionT.run_bind]
      refine bind (ih fun other member => each other (List.mem_cons_of_mem _ member))
        fun rest others => ?_
      cases rest with
      | none =>
        obtain ⟨other, member, none⟩ := others
        exact pure ⟨other, List.mem_cons_of_mem _ member, none⟩
      | some more => exact pure (.cons one others)

end Runs

/-! ### States that go on -/

/-- From a state with a property, steps lead to a later one, where what they give has a property. -/
def Advances (later : σ → σ → Prop) (holds : σ → Prop) (steps : StateT σ (Except ε) α)
    (gives : α → σ → Prop) : Prop :=
  ∀ before value after, holds before → steps before = .ok (value, after) →
    later before after ∧ gives value after

namespace Advances

variable {later : σ → σ → Prop} [IsPreorder σ later] {holds : σ → Prop}
  {steps : StateT σ (Except ε) α} {gives : α → σ → Prop}

theorem bind {next : α → StateT σ (Except ε) β} {last : β → σ → Prop}
    (first : Advances later holds steps gives)
    (second : ∀ value, Advances later (gives value) (next value) last) :
    Advances later holds (steps >>= next) last := by
  intro before value after start done
  obtain ⟨⟨middle, state⟩, one, two⟩ := bind_eq_ok_iff.1 done
  obtain ⟨up, between⟩ := first _ _ _ start one
  obtain ⟨further, given⟩ := second middle _ _ _ between two
  exact ⟨IsTrans.trans _ _ _ up further, given⟩

theorem pure {value : α} (given : ∀ state, holds state → gives value state) :
    Advances later holds (Pure.pure value : StateT σ (Except ε) α) gives := by
  intro before result after start done
  cases pure_eq_ok_iff.1 done
  exact ⟨Std.Refl.refl before, given before start⟩

omit [IsPreorder σ later] in
theorem throw {cause : ε} :
    Advances later holds (MonadExcept.throw cause : StateT σ (Except ε) α) gives := by
  intro before value after start done
  cases done

omit [IsPreorder σ later] in
/-- The next steps begin in the state that they look at. -/
theorem bind_get {next : σ → StateT σ (Except ε) α}
    (second : ∀ state, holds state → Advances later (· = state) (next state) gives) :
    Advances later holds (MonadState.get >>= next) gives :=
  fun before value after start done => second before start before value after rfl done

omit [IsPreorder σ later] in
/-- A computation that does not look at the state. -/
theorem bind_lift {computation : Except ε β} {next : β → StateT σ (Except ε) α}
    (second : ∀ value, computation = .ok value → Advances later holds (next value) gives) :
    Advances later holds (StateT.lift computation >>= next) gives := by
  cases done : computation with
  | error cause => exact fun _ _ _ _ failed => (nomatch failed)
  | ok value => exact second value done

omit [IsPreorder σ later] in
/-- What lasts in later states is kept beside the rest. -/
theorem beside {other : σ → Prop} {more : α → σ → Prop}
    (advances : Advances later holds steps gives)
    (lasts : ∀ {early late}, later early late → other early → other late)
    (both : ∀ value state, gives value state → other state → more value state) :
    Advances later (fun state => holds state ∧ other state) steps more := by
  intro before value after start done
  obtain ⟨up, given⟩ := advances before value after start.1 done
  exact ⟨up, both value after given (lasts up start.2)⟩

theorem foldlM (good : β → σ → Prop) {step : β → α → StateT σ (Except ε) β} {values : List α}
    (each : ∀ value ∈ values, ∀ best, Advances later (good best) (step best value) good) {start : β}
    (first : ∀ state, holds state → good start state) :
    Advances later holds (values.foldlM step start) good := by
  induction values generalizing start holds with
  | nil => exact pure first
  | cons value values ih =>
    rw [List.foldlM_cons]
    have one : Advances later holds (step start value) good := fun before best after begin =>
      each value List.mem_cons_self start before best after (first before begin)
    refine bind one fun best => ?_
    exact ih (fun other member => each other (List.mem_cons_of_mem _ member)) fun _ found => found

/-- A value for each of some others, or none for all. What lasts in later states is kept. -/
theorem mapM_option {step : α → StateT σ (Except ε) (Option β)} {values : List α}
    {relates : α → β → σ → Prop}
    (lasts : ∀ {value result early late}, later early late → relates value result early →
      relates value result late)
    (each : ∀ value ∈ values, Advances later holds (step value) fun found state =>
      holds state ∧ ∀ result, found = some result → relates value result state) :
    Advances later holds (values.mapM fun value => OptionT.mk (step value)).run fun found state =>
      holds state ∧ ∀ results, found = some results →
        List.Forall₂ (fun value result => relates value result state) values results := by
  induction values with
  | nil =>
    rw [List.mapM_nil, OptionT.run_pure]
    refine pure fun state start => ⟨start, fun results given => ?_⟩
    cases given
    exact .nil
  | cons value values ih =>
    have others := ih fun other member => each other (List.mem_cons_of_mem _ member)
    rw [List.mapM_cons, OptionT.run_bind]
    refine bind (each value List.mem_cons_self) fun found => ?_
    cases found with
    | none => exact pure fun state start => ⟨start.1, fun results given => nomatch given⟩
    | some result =>
      rw [Option.elim_some, OptionT.run_bind]
      intro before rest after start done
      obtain ⟨⟨more, state⟩, one, two⟩ := bind_eq_ok_iff.1 done
      obtain ⟨up, kept, related⟩ := others _ _ _ start.1 one
      cases more with
      | none =>
        cases pure_eq_ok_iff.1 two
        exact ⟨up, kept, fun results given => nomatch given⟩
      | some more =>
        cases pure_eq_ok_iff.1 two
        refine ⟨up, kept, fun results given => ?_⟩
        cases given
        exact .cons (lasts up (start.2 result rfl)) (related more rfl)

end Advances

/-! ### Outcomes that the state does not matter for -/

/-- Steps that carry a property of the state along end as other steps end from any state, and these
leave it alone. -/
def Mirrors (holds : σ → Prop) (steps plain : StateT σ (Except ε) α) : Prop :=
  ∀ before, holds before →
    (∃ value after, steps before = .ok (value, after) ∧ holds after ∧
      ∀ state, plain state = .ok (value, state)) ∨
    ∃ cause, steps before = .error cause ∧ ∀ state, plain state = .error cause

namespace Mirrors

variable {holds : σ → Prop} {steps plain : StateT σ (Except ε) α}

theorem bind {next onward : α → StateT σ (Except ε) β} (first : Mirrors holds steps plain)
    (second : ∀ value, Mirrors holds (next value) (onward value)) :
    Mirrors holds (steps >>= next) (plain >>= onward) := by
  intro before start
  rcases first before start with ⟨value, middle, one, between, plainOne⟩ | ⟨cause, one, plainOne⟩
  · rcases second value middle between with ⟨result, last, two, kept, plainTwo⟩ | ⟨cause, two, plainTwo⟩
    · exact Or.inl ⟨result, last, (bind_of_ok one).trans two, kept,
        fun state => (bind_of_ok (plainOne state)).trans (plainTwo state)⟩
    · exact Or.inr ⟨cause, (bind_of_ok one).trans two,
        fun state => (bind_of_ok (plainOne state)).trans (plainTwo state)⟩
  · exact Or.inr ⟨cause, bind_of_error one, fun state => bind_of_error (plainOne state)⟩

theorem pure {value : α} :
    Mirrors holds (Pure.pure value : StateT σ (Except ε) α) (Pure.pure value) :=
  fun before start => Or.inl ⟨value, before, rfl, start, fun _ => rfl⟩

theorem throw {cause : ε} :
    Mirrors holds (MonadExcept.throw cause : StateT σ (Except ε) α) (MonadExcept.throw cause) :=
  fun _ _ => Or.inr ⟨cause, rfl, fun _ => rfl⟩

/-- A computation that does not look at the state. -/
theorem bind_lift {computation : Except ε α} {next onward : α → StateT σ (Except ε) β}
    (each : ∀ value, computation = .ok value → Mirrors holds (next value) (onward value)) :
    Mirrors holds (StateT.lift computation >>= next) (StateT.lift computation >>= onward) := by
  cases done : computation with
  | error cause => exact fun _ _ => Or.inr ⟨cause, rfl, fun _ => rfl⟩
  | ok value => exact each value done

theorem foldlM {step other : β → α → StateT σ (Except ε) β} {values : List α}
    (each : ∀ value ∈ values, ∀ best, Mirrors holds (step best value) (other best value)) {start : β} :
    Mirrors holds (values.foldlM step start) (values.foldlM other start) := by
  induction values generalizing start with
  | nil => exact pure
  | cons value values ih =>
    rw [List.foldlM_cons, List.foldlM_cons]
    refine bind (each value List.mem_cons_self start) fun _ => ?_
    exact ih fun next member => each next (List.mem_cons_of_mem _ member)

/-- What is given in the end is what the other steps give. -/
theorem run' (mirrors : Mirrors holds steps plain) {before : σ} (start : holds before) (state : σ) :
    steps.run' before = plain.run' state := by
  have shown : ∀ (computation : StateT σ (Except ε) α) (first : σ),
      computation.run' first = (computation first).map (·.1) := fun _ _ => rfl
  rw [shown, shown]
  rcases mirrors before start with ⟨value, after, one, _, two⟩ | ⟨cause, one, two⟩
  · rw [one, two]
    rfl
  · rw [one, two]

end Mirrors

end Cascades
