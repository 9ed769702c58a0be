import Mathlib.Data.List.Basic

/-!
# Finite tables

A finite map as a list of bindings in no particular order, of which the first
for a key counts. Binding a key drops the bindings it had, and a table can be cut
down to the keys that pass a test. A map without an enumeration of its keys is a
function to options.
-/
namespace LionFS.Table
variable {κ α : Type*} [DecidableEq κ]

/-- The value bound to a key. -/
def find (key : κ) : List (κ × α) → Option α
  | [] => none
  | binding :: rest => if binding.1 = key then some binding.2 else find key rest

/-- The bindings of the keys that pass a test. -/
def keep (test : κ → Bool) : List (κ × α) → List (κ × α)
  | [] => []
  | binding :: rest => if test binding.1 then binding :: keep test rest else keep test rest

/-- Bind a key. -/
def insert (key : κ) (value : α) (table : List (κ × α)) : List (κ × α) :=
  (key, value) :: keep (fun other => decide (other ≠ key)) table

/-- What is found among the keys that are kept. -/
theorem find_keep (test : κ → Bool) (key : κ) (table : List (κ × α)) :
    find key (keep test table) = if test key then find key table else none := by
  induction table with
  | nil => exact (ite_self none).symm
  | cons binding rest ih =>
    by_cases same : binding.1 = key
    · by_cases passes : test key <;> simp [keep, find, same, passes, ih]
    · by_cases passes : test binding.1 <;> simp [keep, find, same, passes, ih]

@[simp] theorem find_insert_self (key : κ) (value : α) (table : List (κ × α)) :
    find key (insert key value table) = some value := if_pos rfl

theorem find_insert_of_ne {key other : κ} (ne : other ≠ key) (value : α)
    (table : List (κ × α)) : find other (insert key value table) = find other table := by
  have skip : find other (insert key value table) =
      find other (keep (fun other => decide (other ≠ key)) table) := if_neg (Ne.symm ne)
  rw [skip, find_keep, if_pos (decide_eq_true ne)]

/-- What a changed map has. -/
theorem update_eq_some {map : κ → Option α} {key other : κ} {value found : α}
    (known : Function.update map key (some value) other = some found) :
    other = key ∧ found = value ∨ other ≠ key ∧ map other = some found := by
  by_cases same : other = key
  · rw [same, Function.update_self] at known
    exact .inl ⟨same, (Option.some.inj known).symm⟩
  · rw [Function.update_of_ne same] at known
    exact .inr ⟨same, known⟩

variable {map : κ → Option α} {key : κ} {value : α}

/-- What holds of the entries of a map and of a new entry holds of all entries after it. -/
theorem forall_update {holds : κ → α → Prop} (new : holds key value)
    (old : ∀ other found, map other = some found → holds other found) :
    ∀ other found, Function.update map key (some value) other = some found →
      holds other found := by
  intro other found known
  rcases update_eq_some known with ⟨same, equal⟩ | before
  · rw [same, equal]
    exact new
  · exact old other found before.2

/-- An entry that agrees with a map only adds to it. -/
theorem update_grows (agrees : ∀ found, map key = some found → found = value) (other : κ)
    (found : α) (known : map other = some found) :
    Function.update map key (some value) other = some found := by
  by_cases same : other = key
  · rw [same] at known ⊢
    rw [Function.update_self, agrees found known]
  · rw [Function.update_of_ne same, known]

end LionFS.Table
