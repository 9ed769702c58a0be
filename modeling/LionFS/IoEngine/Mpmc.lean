import Mathlib.Data.Nat.Log
import Mathlib.Data.Nat.ModEq

/-!
# The shard queue

`io_engine::mpmc::MpmcQueue` under calls one after the other. A slot is free for
the position that its sequence names and holds the value of the position before
it. With two slots or more these never meet, and the queue is a bounded FIFO;
with one slot a full queue looks free, and a push overwrites the value in it.
-/
namespace LionFS.IoEngine
open Function (update update_self update_of_ne)
variable {α : Type}

/-- `Slot`. -/
structure Slot (α : Type) where
  sequence : Nat
  value : Option α

/-- `MpmcQueue`. -/
structure MpmcQueue (α : Type) where
  buffer : Nat → Slot α
  mask : Nat
  head : Nat
  tail : Nat

/-- A call. -/
inductive QueueCall (α : Type) where
  | push (value : α)
  | pop

/-- What a call returns. -/
inductive QueueAnswer (α : Type) where
  | pushed (accepted : Bool)
  | popped (value : Option α)
  deriving DecidableEq

namespace MpmcQueue

/-- `next_power_of_two` of the hint. -/
def capacityFor (hint : Nat) : Nat := 2 ^ Nat.clog 2 hint

/-- `with_capacity_hint`. -/
def withCapacityHint (hint : Nat) : MpmcQueue α :=
  ⟨fun index => ⟨index, none⟩, capacityFor hint - 1, 0, 0⟩

/-- `push`. No other call moves `tail`, so a turn of the loop that does not return repeats. -/
def push (queue : MpmcQueue α) (value : α) : Option (Bool × MpmcQueue α) :=
  let pos := queue.tail
  let slot := queue.buffer (pos &&& queue.mask)
  if slot.sequence = pos then
    some (true, { queue with
      tail := pos + 1
      buffer := update queue.buffer (pos &&& queue.mask) ⟨pos + 1, some value⟩ })
  else if slot.sequence < pos ∧ pos - queue.head = queue.mask + 1 then some (false, queue)
  else none

/-- `pop`. No other call moves `head`, so a turn of the loop that does not return repeats. -/
def pop (queue : MpmcQueue α) : Option (Option α × MpmcQueue α) :=
  let pos := queue.head
  let slot := queue.buffer (pos &&& queue.mask)
  if slot.sequence = pos + 1 then
    some (slot.value, { queue with
      head := pos + 1
      buffer := update queue.buffer (pos &&& queue.mask) ⟨pos + (queue.mask + 1), none⟩ })
  else if slot.sequence < pos + 1 then some (none, queue)
  else none

/-- The answers to some calls, if all return. -/
def answers : MpmcQueue α → List (QueueCall α) → Option (List (QueueAnswer α))
  | _, [] => some []
  | queue, .push value :: rest => do
    let (accepted, next) ← queue.push value
    let later ← next.answers rest
    pure (.pushed accepted :: later)
  | queue, .pop :: rest => do
    let (value, next) ← queue.pop
    let later ← next.answers rest
    pure (.popped value :: later)

/-- The answers of a FIFO that holds some values. -/
def fifo (capacity : Nat) : List α → List (QueueCall α) → List (QueueAnswer α)
  | _, [] => []
  | held, .push value :: rest =>
    if held.length = capacity then .pushed false :: fifo capacity held rest
    else .pushed true :: fifo capacity (held ++ [value]) rest
  | [], .pop :: rest => .popped none :: fifo capacity [] rest
  | first :: held, .pop :: rest => .popped (some first) :: fifo capacity held rest

/-- The slots from the head on: those of the values, then the free ones. -/
structure Holds (queue : MpmcQueue α) (capacity : Nat) (held : List α) : Prop where
  index : ∀ pos, pos &&& queue.mask = pos % capacity
  mask : queue.mask + 1 = capacity
  tail : queue.tail = queue.head + held.length
  room : held.length ≤ capacity
  slots : ∀ offset < capacity, queue.buffer ((queue.head + offset) % capacity) =
    ⟨queue.head + offset + if offset < held.length then 1 else 0, held[offset]?⟩

variable {queue : MpmcQueue α} {capacity : Nat} {held : List α}

/-- Two positions of one turn around the slots differ. -/
theorem mod_ne_of_lt {first second : Nat} (apart : first ≠ second) (low : first < capacity)
    (high : second < capacity) (base : Nat) :
    (base + first) % capacity ≠ (base + second) % capacity := by
  intro same
  have equal := Nat.ModEq.add_left_cancel' base same
  rw [Nat.ModEq, Nat.mod_eq_of_lt low, Nat.mod_eq_of_lt high] at equal
  exact apart equal

variable (two : 2 ≤ capacity)
include two

theorem Holds.push_full (holds : queue.Holds capacity held) (full : held.length = capacity)
    (value : α) : queue.push value = some (false, queue) := by
  have first := holds.slots 0 (by omega)
  rw [Nat.add_zero, if_pos (by omega)] at first
  unfold MpmcQueue.push
  dsimp only
  rw [holds.index, holds.mask, holds.tail, full, Nat.add_mod_right, first,
    if_neg (by dsimp only; omega), if_pos ⟨by dsimp only; omega, by omega⟩]

omit two in
theorem Holds.push_room (holds : queue.Holds capacity held) (room : held.length < capacity)
    (value : α) : ∃ next, queue.push value = some (true, next) ∧
      next.Holds capacity (held ++ [value]) := by
  have free := holds.slots held.length room
  rw [if_neg (lt_irrefl _), Nat.add_zero, ← holds.tail] at free
  unfold MpmcQueue.push
  dsimp only
  rw [holds.index, free, if_pos rfl]
  refine ⟨_, rfl, holds.index, holds.mask, ?_, ?_, fun offset inside => ?_⟩
  · rw [holds.tail, List.length_append, List.length_singleton, Nat.add_assoc]
  · rw [List.length_append, List.length_singleton]
    exact room
  · dsimp only
    rw [holds.tail]
    by_cases here : offset = held.length
    · subst here
      simp
    · rw [update_of_ne (mod_ne_of_lt here inside room _), holds.slots offset inside]
      grind

theorem Holds.pop_nil (holds : queue.Holds capacity []) : queue.pop = some (none, queue) := by
  have first := holds.slots 0 (by omega)
  rw [Nat.add_zero] at first
  unfold MpmcQueue.pop
  dsimp only
  rw [holds.index, first]
  simp

theorem Holds.pop_cons {value : α} (holds : queue.Holds capacity (value :: held)) :
    ∃ next, queue.pop = some (some value, next) ∧ next.Holds capacity held := by
  have first := holds.slots 0 (by omega)
  have tail := holds.tail
  have room := holds.room
  rw [List.length_cons] at tail room
  rw [Nat.add_zero, List.length_cons, if_pos (Nat.succ_pos _)] at first
  unfold MpmcQueue.pop
  dsimp only
  rw [holds.index, first, if_pos rfl]
  refine ⟨_, rfl, holds.index, holds.mask, by dsimp only; omega, by omega, fun offset inside => ?_⟩
  dsimp only
  rw [Nat.add_assoc, Nat.add_comm 1]
  by_cases last : offset + 1 = capacity
  · rw [last, Nat.add_mod_right, update_self, List.getElem?_eq_none (by omega),
      if_neg (by omega), holds.mask, Nat.add_zero]
  · have other : (queue.head + (offset + 1)) % capacity ≠ queue.head % capacity :=
      mod_ne_of_lt (Nat.succ_ne_zero offset) (by omega) (by omega) queue.head
    rw [update_of_ne other, holds.slots (offset + 1) (by omega)]
    simp

/-- A queue that holds some values answers as the FIFO of them. -/
theorem Holds.answers (holds : queue.Holds capacity held) (calls : List (QueueCall α)) :
    queue.answers calls = some (fifo capacity held calls) := by
  induction calls generalizing queue held with
  | nil => rfl
  | cons call rest ih =>
    cases call with
    | push value =>
      unfold MpmcQueue.answers fifo
      by_cases full : held.length = capacity
      · rw [holds.push_full two full, if_pos full]
        simp [ih holds]
      · obtain ⟨next, pushed, later⟩ := holds.push_room (holds.room.lt_of_ne full) value
        rw [pushed, if_neg full]
        simp [ih later]
    | pop =>
      unfold MpmcQueue.answers
      cases held with
      | nil =>
        rw [holds.pop_nil two]
        simp [ih holds, fifo]
      | cons value held =>
        obtain ⟨next, popped, later⟩ := holds.pop_cons two
        rw [popped]
        simp [ih later, fifo]

omit two

/-- A queue answers every list of calls as a bounded FIFO if and only if the hint is not one. -/
theorem answers_fifo_iff (value : α) {hint : Nat} (some_hint : 1 ≤ hint) :
    (∀ calls : List (QueueCall α),
      (withCapacityHint hint).answers calls = some (fifo (capacityFor hint) [] calls)) ↔
        hint ≠ 1 := by
  constructor
  · rintro always rfl
    have twice := always [.push value, .push value]
    simp [MpmcQueue.answers, withCapacityHint, MpmcQueue.push, fifo, capacityFor] at twice
  · intro more calls
    have two : 2 ≤ capacityFor hint :=
      (show 2 ≤ hint by omega).trans (Nat.le_pow_clog (by omega) hint)
    have start : (withCapacityHint hint : MpmcQueue α).Holds (capacityFor hint) [] :=
      ⟨fun pos => Nat.and_two_pow_sub_one_eq_mod pos _, Nat.sub_add_cancel (by omega), rfl,
        Nat.zero_le _, fun offset inside => by simp [withCapacityHint, Nat.mod_eq_of_lt inside]⟩
    exact start.answers two calls

/-- Three values pass through a queue of two slots. -/
theorem answers_fifo_two : (withCapacityHint 2 : MpmcQueue Nat).answers
    [.push 1, .push 2, .push 3, .pop, .push 3, .pop, .pop, .pop] =
      some (fifo 2 [] [.push 1, .push 2, .push 3, .pop, .push 3, .pop, .pop, .pop]) :=
  (answers_fifo_iff 0 (by decide)).mpr (by decide) _

/-- In a queue of one slot the second value takes the place of the first. -/
theorem single_slot_overwritten :
    (withCapacityHint 1 : MpmcQueue Nat).answers [.push 1, .push 2, .pop, .pop] =
      none ∧ fifo (capacityFor 1) [] [QueueCall.push 1, .push 2, .pop, .pop] =
        [.pushed true, .pushed false, .popped (some 1), .popped none] := by
  decide

end MpmcQueue
end LionFS.IoEngine
