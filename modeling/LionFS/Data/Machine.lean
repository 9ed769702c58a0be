import Mathlib.Logic.Basic

/-!
# Runs of a state machine

A machine takes a state and an event to the next state, or does not take the
event there. What a machine promises under a condition on its steps is said of
the runs all of whose steps meet the condition, and is proved from what one such
step keeps.
-/
namespace LionFS.Machine
variable {σ ε : Type} (step : σ → ε → Option σ)

/-- One event after another, each of which must be taken. -/
def run : List ε → σ → Option σ
  | [], state => some state
  | event :: rest, state =>
    match step state event with
    | some next => run rest next
    | none => none

/-- Where a run ends, or where it began if an event is not taken. -/
def reach (events : List ε) (state : σ) : σ := (run step events state).getD state

/-- Every step of a run meets a condition on the state it starts from and its event. -/
def Along (allowed : σ → ε → Prop) : List ε → σ → Prop
  | [], _ => True
  | event :: rest, state =>
    allowed state event ∧
      match step state event with
      | some next => Along allowed rest next
      | none => True

instance decidableAlong (allowed : σ → ε → Prop)
    [decide : ∀ state event, Decidable (allowed state event)] :
    (events : List ε) → (state : σ) → Decidable (Along step allowed events state)
  | [], _ => .isTrue trivial
  | event :: rest, state =>
    match decide state event with
    | .isFalse not => .isFalse fun both => not both.1
    | .isTrue holds =>
      match taken : step state event with
      | none => .isTrue ⟨holds, by rw [taken]; trivial⟩
      | some next =>
        match decidableAlong allowed rest next with
        | .isTrue later => .isTrue ⟨holds, by rw [taken]; exact later⟩
        | .isFalse not => .isFalse fun both => not (by have later := both.2; rwa [taken] at later)

/-- A property holds in every state of a run. -/
def Always (holds : σ → Prop) : List ε → σ → Prop
  | [], state => holds state
  | event :: rest, state =>
    holds state ∧
      match step state event with
      | some next => Always holds rest next
      | none => True

variable {step} {events : List ε} {state : σ}

/-- A run that is not refused ends where it leads. -/
theorem run_eq_reach (taken : (run step events state).isSome = true) :
    run step events state = some (reach step events state) := by
  obtain ⟨last, ran⟩ := Option.isSome_iff_exists.mp taken
  rw [reach, ran, Option.getD_some]

variable {holds : σ → Prop}

/-- What always holds holds at the end. -/
theorem Always.last {last : σ} (always : Always step holds events state)
    (ran : run step events state = some last) : holds last := by
  induction events generalizing state with
  | nil =>
    have same : state = last := Option.some.inj ran
    rwa [← same]
  | cons event rest ih =>
    unfold Always at always
    unfold run at ran
    cases taken : step state event with
    | none =>
      rw [taken] at ran
      cases ran
    | some next =>
      rw [taken] at always ran
      exact ih always.2 ran

/-- Two conditions along a run. -/
theorem along_and {first second : σ → ε → Prop} :
    Along step (fun state event => first state event ∧ second state event) events state ↔
      Along step first events state ∧ Along step second events state := by
  induction events generalizing state with
  | nil => exact ⟨fun _ => ⟨trivial, trivial⟩, fun _ => trivial⟩
  | cons event rest ih =>
    unfold Along
    cases step state event with
    | none => exact ⟨fun both => ⟨⟨both.1.1, trivial⟩, both.1.2, trivial⟩,
        fun both => ⟨⟨both.1.1, both.2.1⟩, trivial⟩⟩
    | some next =>
      dsimp only
      rw [ih, and_and_and_comm]

/-- A condition that every event meets in every state holds along every run. -/
theorem along_of_mem {allowed : σ → ε → Prop} (all : ∀ event ∈ events, ∀ state, allowed state event)
    (state : σ) : Along step allowed events state := by
  induction events generalizing state with
  | nil => trivial
  | cons event rest ih =>
    unfold Along
    refine ⟨all event List.mem_cons_self state, ?_⟩
    cases step state event with
    | none => trivial
    | some next => exact ih (List.forall_mem_cons.mp all).2 next

/-- A condition that every step meets holds along every run. -/
theorem along_of_forall {allowed : σ → ε → Prop} (all : ∀ state event, allowed state event)
    (events : List ε) (state : σ) : Along step allowed events state :=
  along_of_mem (fun event _ state => all state event) state

section Keeping
variable {allowed : σ → ε → Prop} {invariant holds : σ → Prop}
    (keeps : ∀ state event next, invariant state → allowed state event →
      step state event = some next → invariant next)
include keeps

/-- An invariant may strengthen the condition on steps. -/
theorem along_of_along {assured : σ → ε → Prop}
    (implies : ∀ state event, invariant state → allowed state event → assured state event)
    {events : List ε} {state : σ} (start : invariant state)
    (along : Along step allowed events state) : Along step assured events state := by
  induction events generalizing state with
  | nil => trivial
  | cons event rest ih =>
    unfold Along at along ⊢
    refine ⟨implies state event start along.1, ?_⟩
    cases taken : step state event with
    | none => trivial
    | some next =>
      rw [taken] at along
      exact ih (keeps state event next start along.1 taken) along.2

/-- What an invariant implies always holds. -/
theorem always_of_along (implies : ∀ state, invariant state → holds state)
    {events : List ε} {state : σ} (start : invariant state)
    (along : Along step allowed events state) : Always step holds events state := by
  induction events generalizing state with
  | nil => exact implies state start
  | cons event rest ih =>
    unfold Along at along
    unfold Always
    refine ⟨implies state start, ?_⟩
    cases taken : step state event with
    | none => trivial
    | some next =>
      rw [taken] at along
      exact ih (keeps state event next start along.1 taken) along.2

/-- An invariant holds at the end of a run. -/
theorem run_keeps {events : List ε} {state last : σ} (start : invariant state)
    (along : Along step allowed events state) (ran : run step events state = some last) :
    invariant last :=
  (always_of_along keeps (fun _ kept => kept) start along).last ran

end Keeping

/-- A property that holds after a step exactly when the step is allowed holds along exactly the
runs of allowed steps, among the runs whose steps meet an assumption. The proof is carried by a
stronger property of the states. -/
theorem always_iff_along_of {allowed assumed : σ → ε → Prop} {good : σ → Prop}
    (implies : ∀ state, good state → holds state)
    (keeps : ∀ state event next, good state → assumed state event → step state event = some next →
      (allowed state event → good next) ∧ (holds next → allowed state event))
    (refused : ∀ state event, good state → step state event = none → allowed state event)
    (start : good state) (assuming : Along step assumed events state) :
    Always step holds events state ↔ Along step allowed events state := by
  induction events generalizing state with
  | nil => exact ⟨fun _ => trivial, fun _ => implies state start⟩
  | cons event rest ih =>
    unfold Along at assuming
    unfold Always Along
    cases taken : step state event with
    | none =>
      exact ⟨fun _ => ⟨refused state event start taken, trivial⟩,
        fun _ => ⟨implies state start, trivial⟩⟩
    | some next =>
      rw [taken] at assuming
      obtain ⟨kept, forced⟩ := keeps state event next start assuming.1 taken
      constructor
      · rintro ⟨-, later⟩
        have here : holds next := by
          cases rest with
          | nil => exact later
          | cons _ _ => exact later.1
        have permitted := forced here
        exact ⟨permitted, (ih (kept permitted) assuming.2).mp later⟩
      · rintro ⟨permitted, later⟩
        exact ⟨implies state start, (ih (kept permitted) assuming.2).mpr later⟩

/-- The same of all runs. -/
theorem always_iff_along {allowed : σ → ε → Prop} {good : σ → Prop}
    (implies : ∀ state, good state → holds state)
    (keeps : ∀ state event next, good state → step state event = some next →
      (allowed state event → good next) ∧ (holds next → allowed state event))
    (refused : ∀ state event, good state → step state event = none → allowed state event)
    (start : good state) : Always step holds events state ↔ Along step allowed events state := by
  exact always_iff_along_of implies (fun state event next fine _ => keeps state event next fine)
    refused start (along_of_forall (fun _ _ => trivial) events state)

end LionFS.Machine
