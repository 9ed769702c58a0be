import Mathlib.Logic.Relation

/-!
# Commands that may fail and keep what they did

A command takes a state to an outcome and a state. When it fails the state is
the one it had reached, as for a procedure that returns an error half way. The
predicate transformer `wp` says what holds when a command returns a value and
what holds when it fails; its rules follow the way commands are put together.
Total correctness is the case in which the error condition is `False`.
-/
namespace LionFS

universe u

/-- A command on a state: an outcome, or failure, and the state reached. -/
def Run (σ α : Type u) : Type u := σ → Option α × σ

namespace Run
variable {σ α β : Type u}

/-- One command after another; a failure ends both. -/
def andThen (first : Run σ α) (second : α → Run σ β) : Run σ β := fun state =>
  match first state with
  | (some value, next) => second value next
  | (none, next) => (none, next)

instance : Monad (Run σ) where
  pure value := fun state => (some value, state)
  bind := andThen

/-- Read the state. -/
def get : Run σ σ := fun state => (some state, state)

/-- Change the state. -/
def modify (change : σ → σ) : Run σ PUnit := fun state => (some ⟨⟩, change state)

/-- Fail. -/
def fail : Run σ α := fun state => (none, state)

/-- Run a command and return its outcome, failure included. -/
def attempt (command : Run σ α) : Run σ (Option α) := fun state =>
  (some (command state).1, (command state).2)

/-- Run a command on a part of the state. -/
def focus {τ : Type u} (part : σ → τ) (put : σ → τ → σ) (command : Run τ α) : Run σ α :=
  fun state => ((command (part state)).1, put state (command (part state)).2)

/-- Run a command on each element of a list, in order. -/
def each (list : List β) (command : β → Run σ PUnit) : Run σ PUnit :=
  match list with
  | [] => pure ⟨⟩
  | first :: rest => do
    command first
    each rest command

/-- Returning a value leaves the state alone. -/
@[simp] theorem pure_apply (value : α) (state : σ) :
    (pure value : Run σ α) state = (some value, state) := rfl

/-- The second command starts where the first one ended. -/
theorem bind_apply (first : Run σ α) (second : α → Run σ β) (state : σ) :
    (first >>= second) state = match first state with
      | (some value, next) => second value next
      | (none, next) => (none, next) := rfl

variable {first : Run σ α} {second : α → Run σ β}

/-- A command behind one that returns. -/
theorem bind_some {state next : σ} {value : α} (returned : first state = (some value, next)) :
    (first >>= second) state = second value next := by
  rw [bind_apply, returned]

/-- A command that fails ends the sequence. -/
theorem bind_none {state next : σ} (failed : first state = (none, next)) :
    (first >>= second) state = (none, next) := by
  rw [bind_apply, failed]

/-- Three commands, two at a time. -/
theorem bind_assoc {γ : Type u} (first : Run σ α) (second : α → Run σ β) (third : β → Run σ γ) :
    (first >>= second) >>= third = first >>= fun value => second value >>= third := by
  funext state
  rw [bind_apply, bind_apply, bind_apply]
  cases first state with
  | mk result next => cases result <;> rfl

/-- How a command ends from a state: with a value and the postcondition, or with the error
condition. -/
def wp (command : Run σ α) (post : α → σ → Prop) (error : σ → Prop) (state : σ) : Prop :=
  match command state with
  | (some value, next) => post value next
  | (none, next) => error next

/-- The error condition of a command that does not fail. -/
abbrev never : σ → Prop := fun _ => False

/-- The error condition of a command that may fail in any state. -/
abbrev anyhow : σ → Prop := fun _ => True

section Rules
variable {post : α → σ → Prop} {error : σ → Prop} {state : σ} {value : α}

@[simp] theorem wp_pure : wp (pure value) post error state ↔ post value state :=
  Iff.rfl

@[simp] theorem wp_get {post : σ → σ → Prop} : wp get post error state ↔ post state state :=
  Iff.rfl

variable {change : σ → σ}

@[simp] theorem wp_modify {post : PUnit → σ → Prop} :
    wp (modify change) post error state ↔ post ⟨⟩ (change state) :=
  Iff.rfl

/-- The second command starts where the first one ended. -/
@[simp] theorem wp_bind {post : β → σ → Prop} :
    wp (first >>= second) post error state ↔
      wp first (fun value next => wp (second value) post error next) error state := by
  unfold wp
  rw [bind_apply]
  cases outcome : first state with
  | mk result next => cases result <;> rfl

variable {command : Run σ α}

/-- The outcome of a command, failure included. -/
@[simp] theorem wp_attempt {post : Option α → σ → Prop} :
    wp (attempt command) post error state ↔
      wp command (fun value => post (some value)) (post none) state := by
  unfold wp attempt
  cases outcome : command state with
  | mk result next => cases result <;> rfl

/-- A command on a part of the state. -/
@[simp] theorem wp_focus {τ : Type u} {part : σ → τ} {put : σ → τ → σ} {command : Run τ α} :
    wp (focus part put command) post error state ↔
      wp command (fun value next => post value (put state next))
      (fun next => error (put state next)) (part state) := by
  unfold wp focus
  cases outcome : command (part state) with
  | mk result next => cases result <;> rfl

/-- A command whose outcome is known. -/
theorem wp_of_eq {next : σ} (returned : command state = (some value, next)) :
    wp command post error state ↔ post value next := by
  unfold wp
  rw [returned]

variable {post' : α → σ → Prop} {error' : σ → Prop}

/-- Consequence. -/
theorem wp_mono (holds : wp command post error state)
    (after : ∀ value next, post value next → post' value next)
    (failing : ∀ next, error next → error' next) : wp command post' error' state := by
  unfold wp at holds ⊢
  cases outcome : command state with
  | mk result next =>
    rw [outcome] at holds
    cases result with
    | none => exact failing next holds
    | some value => exact after value next holds

/-- Consequence, for the result alone. -/
theorem wp_imp (holds : wp command post error state)
    (implies : ∀ value next, post value next → post' value next) :
    wp command post' error state := wp_mono holds implies fun _ failed => failed

/-- Consequence, for a command that does not fail. -/
theorem wp_total (holds : wp command post never state)
    (implies : ∀ value next, post value next → post' value next) :
    wp command post' error state := wp_mono holds implies fun _ no => no.elim

/-- One command after another. -/
theorem wp_seq {middle : α → σ → Prop} {post : β → σ → Prop} (one : wp first middle error state)
    (two : ∀ value next, middle value next → wp (second value) post error next) :
    wp (first >>= second) post error state := wp_bind.mpr (wp_imp one two)

/-- Two postconditions at once. -/
theorem wp_and (one : wp command post error state) (two : wp command post' error' state) :
    wp command (fun value next => post value next ∧ post' value next)
      (fun next => error next ∧ error' next) state := by
  unfold wp at one two ⊢
  cases outcome : command state with
  | mk result next =>
    rw [outcome] at one two
    cases result <;> exact ⟨one, two⟩

/-- Two commands, up to a condition that the second one cannot leave: once it holds, nothing more
is said. -/
theorem wp_bind_or {bad : σ → Prop} {middle : α → σ → Prop} {post : β → σ → Prop}
    (one : wp first (fun value next => bad next ∨ middle value next) error state)
    (two : ∀ value next, middle value next →
      wp (second value) (fun value next => bad next ∨ post value next) error next)
    (absorbs : ∀ value next, bad next → wp (second value) (fun _ => bad) error next) :
    wp (first >>= second) (fun value next => bad next ∨ post value next) error state := by
  rw [wp_bind]
  refine wp_imp one fun value next either => ?_
  rcases either with gone | fine
  · exact wp_imp (absorbs value next gone) fun _ _ still => .inl still
  · exact two value next fine

/-- The outcome may be remembered. -/
theorem wp_remember (holds : wp command post error state) :
    wp command (fun value next => command state = (some value, next) ∧ post value next) error
      state := by
  unfold wp at holds ⊢
  cases outcome : command state with
  | mk result next =>
    rw [outcome] at holds
    cases result with
    | none => exact holds
    | some value => exact ⟨rfl, holds⟩

/-- A command that cannot fail returns. -/
theorem returns_of_wp (holds : wp command post never state) :
    ∃ value next, command state = (some value, next) ∧ post value next := by
  unfold wp at holds
  cases outcome : command state with
  | mk result next =>
    rw [outcome] at holds
    cases result with
    | none => exact holds.elim
    | some value => exact ⟨value, next, rfl, holds⟩

/-- A command that returns meets its postcondition. -/
theorem post_of_returns (holds : wp command post error state)
    (returned : (command state).1 = some value) : post value (command state).2 := by
  have outcome : command state = (some value, (command state).2) := by rw [← returned]
  exact (wp_of_eq outcome).mp holds

/-- A property of the state after any outcome. -/
theorem state_of_wp {after : σ → Prop} (holds : wp command (fun _ => after) after state) :
    after (command state).2 := by
  unfold wp at holds
  cases outcome : command state with
  | mk result next =>
    rw [outcome] at holds
    cases result <;> exact holds

variable {list : List β}

/-- Going through a list: what every command keeps, the whole keeps. -/
theorem wp_each {invariant : σ → Prop} {command : β → Run σ PUnit}
    (step : ∀ item ∈ list, ∀ state, invariant state →
      wp (command item) (fun _ => invariant) error state) (start : invariant state) :
    wp (each list command) (fun _ => invariant) error state := by
  induction list generalizing state with
  | nil => exact start
  | cons first rest ih =>
    unfold each
    rw [wp_bind]
    refine wp_imp (step first List.mem_cons_self state start) fun _ next kept => ?_
    exact ih (List.forall_mem_cons.mp step).2 kept

/-- A command keeps a condition on the state when it returns. -/
def Keeps (kept : σ → Prop) (command : Run σ α) : Prop :=
  ∀ state, kept state → wp command (fun _ => kept) (fun _ => True) state

section Keeps
variable {kept : σ → Prop}

theorem keeps_pure (value : α) : Keeps kept (pure value) := fun _ start => start

theorem keeps_get : Keeps kept get := fun _ start => start

theorem keeps_modify (changes : ∀ state, kept state → kept (change state)) :
    Keeps kept (modify change) := changes

theorem Keeps.bind (one : Keeps kept first) (two : ∀ value, Keeps kept (second value)) :
    Keeps kept (first >>= second) := by
  intro state start
  rw [wp_bind]
  exact wp_imp (one state start) two

theorem keeps_each {command : β → Run σ PUnit} (step : ∀ item ∈ list, Keeps kept (command item)) :
    Keeps kept (each list command) :=
  fun _ start => wp_each (step) start

end Keeps

/-- A command goes from the state it starts in by steps of a relation, whether it returns or
fails. -/
def Steps (step : σ → σ → Prop) (command : Run σ α) : Prop :=
  ∀ state, Relation.ReflTransGen step state (command state).2

section Steps
variable {step : σ → σ → Prop}

theorem steps_pure (value : α) : Steps step (pure value) := fun _ => .refl

theorem steps_fail : Steps step (fail : Run σ α) := fun _ => .refl

theorem steps_get : Steps step get := fun _ => .refl

theorem steps_modify (changes : ∀ state, Relation.ReflTransGen step state (change state)) :
    Steps step (modify change) := changes

theorem Steps.bind (one : Steps step first) (two : ∀ value, Steps step (second value)) :
    Steps step (first >>= second) := by
  intro state
  have start := one state
  rw [bind_apply]
  cases outcome : first state with
  | mk result next =>
    rw [outcome] at start
    cases result with
    | none => exact start
    | some value => exact start.trans (two value next)

/-- A command on a part that is put back by steps. -/
theorem steps_focus {τ : Type u} {part : σ → τ} {put : σ → τ → σ}
    (puts : ∀ state value, Relation.ReflTransGen step state (put state value))
    (command : Run τ α) : Steps step (focus part put command) := fun _ => puts _ _

theorem steps_each {command : β → Run σ PUnit} (one : ∀ item ∈ list, Steps step (command item)) :
    Steps step (each list command) := by
  induction list with
  | nil => exact steps_pure _
  | cons first rest ih =>
    exact (one first List.mem_cons_self).bind fun _ =>
      ih (List.forall_mem_cons.mp one).2

end Steps
end Rules
end Run
end LionFS
