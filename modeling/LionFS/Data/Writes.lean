import Mathlib.Data.List.Infix

/-!
# Sequences of writes to a store

A store maps addresses to contents. A list of writes is applied in order, so the
content of an address afterwards is that of the last write to it, or the old
content when no write names it (`apply_eq`). Every law below is read off that
closed form: what a list leaves alone, what a second application changes, and
what a store holds after some of the writes were lost.
-/
namespace LionFS.Writes
open Option
variable {α β : Type*} [DecidableEq α]

/-- The store after the writes, in order. -/
def apply (writes : List (α × β)) (store : α → β) : α → β :=
  writes.foldl (fun current write => Function.update current write.1 write.2) store

/-- The content the last write to an address leaves there, if any write names it. -/
def last? (address : α) : List (α × β) → Option β
  | [] => none
  | write :: rest => (last? address rest).or (if write.1 = address then some write.2 else none)

@[simp] theorem apply_nil (store : α → β) : apply [] store = store := rfl

@[simp] theorem apply_cons (write : α × β) (writes : List (α × β)) (store : α → β) :
    apply (write :: writes) store = apply writes (Function.update store write.1 write.2) := rfl

/-- Writes in two parts. -/
theorem apply_append (first second : List (α × β)) (store : α → β) :
    apply (first ++ second) store = apply second (apply first store) :=
  List.foldl_append

/-- The last write is that of the second part, if there is one. -/
theorem last?_append (address : α) (first second : List (α × β)) :
    last? address (first ++ second) = (last? address second).or (last? address first) := by
  induction first with
  | nil => simp [last?]
  | cons write rest ih => simp [last?, ih, Option.or_assoc]

/-- An address holds its last write, or its old content. -/
theorem apply_eq (writes : List (α × β)) (store : α → β) (address : α) :
    apply writes store address = (last? address writes).getD (store address) := by
  induction writes generalizing store with
  | nil => rfl
  | cons write rest ih =>
    rw [apply_cons, ih, last?]
    cases last? address rest with
    | some content => rfl
    | none =>
      by_cases same : write.1 = address
      · subst same
        simp
      · simp [same, Function.update_of_ne (Ne.symm same)]

variable {writes : List (α × β)} {address : α}

/-- The last write is one of the writes. -/
theorem mem_of_last? {content : β} (found : last? address writes = some content) :
    (address, content) ∈ writes := by
  induction writes with
  | nil => simp [last?] at found
  | cons write rest ih =>
    rw [last?] at found
    cases tail : last? address rest with
    | some later =>
      rw [tail, some_or] at found
      exact List.mem_cons_of_mem _ (ih (by rw [tail, found]))
    | none =>
      rw [tail, none_or] at found
      split at found
      · rename_i same
        cases found
        subst same
        exact List.mem_cons_self
      · contradiction

/-- An address without a write. -/
theorem last?_eq_none : last? address writes = none ↔ ∀ write ∈ writes, write.1 ≠ address := by
  induction writes with
  | nil => simp [last?]
  | cons write rest ih =>
    by_cases same : write.1 = address <;> simp [last?, ih, same]

/-- An address that no write names keeps its content. -/
theorem apply_of_not_mem (absent : ∀ write ∈ writes, write.1 ≠ address) (store : α → β) :
    apply writes store address = store address := by
  rw [apply_eq, last?_eq_none.mpr absent]
  rfl

/-- Writes do not depend on other addresses. -/
theorem apply_congr {first second : α → β} (same : first address = second address) :
    apply writes first address = apply writes second address := by
  rw [apply_eq, apply_eq, same]

/-- A store already holds the outcome of the writes. -/
def Settled (writes : List (α × β)) (store : α → β) : Prop :=
  ∀ address content, last? address writes = some content → store address = content

variable {store : α → β}

/-- Settled writes change nothing. -/
theorem Settled.apply_eq (settled : Settled writes store) : apply writes store = store := by
  funext address
  rw [Writes.apply_eq]
  cases found : last? address writes with
  | none => rfl
  | some content => exact (settled address content found).symm

/-- The last of settled writes are settled. -/
theorem Settled.suffix {tail : List (α × β)} (settled : Settled writes store)
    (part : tail <:+ writes) : Settled tail store := by
  obtain ⟨front, rfl⟩ := part
  intro address content found
  exact settled address content (by rw [last?_append, found, some_or])

/-- Writes that are made are settled. -/
theorem Settled.append (settled : Settled writes store) (more : List (α × β)) :
    Settled (writes ++ more) (apply more store) := by
  intro address content found
  rw [last?_append] at found
  rw [Writes.apply_eq]
  cases latest : last? address more with
  | some newest =>
    rw [latest, some_or] at found
    exact some.inj found
  | none =>
    rw [latest, none_or] at found
    exact settled address content found

/-- Only the written addresses matter. -/
theorem Settled.frame {other : α → β} (settled : Settled writes store)
    (same : ∀ write ∈ writes, other write.1 = store write.1) : Settled writes other := by
  intro address content found
  rw [same _ (mem_of_last? found)]
  exact settled address content found

end LionFS.Writes
