import Mathlib.Data.List.Basic
import Mathlib.Data.List.Pairwise
import Mathlib.Order.Lattice

/-!
# Ordered association lists

A finite map over a linear order, as the list of its bindings in strictly
ascending key order. Lookup, insertion and removal walk the list; `Ordered` is
what they keep. Two ordered lists with the same lookups are the same list
(`Ordered.ext`), so a map law is proved by comparing lookups.
-/
namespace LionFS.Assoc
open List Option Assoc Prod
variable {κ α : Type*} [LinearOrder κ]

/-- Bindings in strictly ascending key order. -/
def Ordered (bindings : List (κ × α)) : Prop := bindings.Pairwise fun a b => a.1 < b.1

/-- The value bound to a key. -/
def find (key : κ) : List (κ × α) → Option α
  | [] => none
  | binding :: rest => if binding.1 = key then some binding.2 else find key rest

/-- Bind a key, replacing the binding it has. -/
def insert (key : κ) (value : α) : List (κ × α) → List (κ × α)
  | [] => [(key, value)]
  | binding :: rest =>
    if key < binding.1 then (key, value) :: binding :: rest
    else if binding.1 = key then (key, value) :: rest
    else binding :: insert key value rest

/-- Remove the binding of a key. -/
def erase (key : κ) : List (κ × α) → List (κ × α)
  | [] => []
  | binding :: rest => if binding.1 = key then rest else binding :: erase key rest

/-- Bind a key that has no binding, keeping the one it has. -/
def orInsert (key : κ) (value : α) (bindings : List (κ × α)) : List (κ × α) :=
  if (find key bindings).isSome then bindings else insert key value bindings

/-- The binding with the greatest key that is not above a key. -/
def floor (key : κ) : List (κ × α) → Option (κ × α)
  | [] => none
  | binding :: rest => if binding.1 ≤ key then (floor key rest).or (some binding) else none

variable {bindings : List (κ × α)} {key : κ}

/-- Only a key without a binding is not found. -/
theorem find_eq_none : find key bindings = none ↔ ∀ binding ∈ bindings, binding.1 ≠ key := by
  induction bindings with
  | nil => simp [find]
  | cons binding rest ih => by_cases same : binding.1 = key <;> simp [find, same, ih]

variable {value : α}

/-- What is found is a binding. -/
theorem mem_of_find (found : find key bindings = some value) : (key, value) ∈ bindings := by
  induction bindings with
  | nil => simp [find] at found
  | cons binding rest ih =>
    by_cases same : binding.1 = key
    · simp only [find, same, ↓reduceIte, some.injEq] at found
      subst same found
      exact mem_cons_self
    · simp only [find, same, ↓reduceIte] at found
      exact mem_cons_of_mem _ (ih found)

/-- Keys of an ordered list are distinct. -/
theorem Ordered.nodup (ordered : Ordered bindings) : (bindings.map fst).Nodup :=
  pairwise_map.mpr (ordered.imp ne_of_lt)

/-- No binding is listed twice. -/
theorem Ordered.nodup_bindings (ordered : Ordered bindings) : bindings.Nodup :=
  List.Pairwise.imp (fun less same => less.ne (congrArg fst same)) ordered

/-- A binding is found if keys are distinct. -/
theorem find_of_mem (distinct : (bindings.map fst).Nodup) (mem : (key, value) ∈ bindings) :
    find key bindings = some value := by
  induction bindings with
  | nil => simp at mem
  | cons binding rest ih =>
    rw [map_cons, nodup_cons] at distinct
    rcases mem_cons.mp mem with same | later
    · subst same
      simp [find]
    · have differs : binding.1 ≠ key := fun same =>
        distinct.1 (same ▸ mem_map.mpr ⟨(key, value), later, rfl⟩)
      simp [find, differs, ih distinct.2 later]

/-- A list is searched before the one behind it. -/
theorem find_append (key : κ) (first second : List (κ × α)) :
    find key (first ++ second) = (find key first).or (find key second) := by
  induction first with
  | nil => simp [find]
  | cons binding rest ih => by_cases same : binding.1 = key <;> simp [find, same, ih]

/-- The order does not matter if keys are distinct. -/
theorem find_perm {first second : List (κ × α)} (perm : first.Perm second)
    (distinct : (first.map fst).Nodup) : find key first = find key second := by
  cases found : find key first with
  | none =>
    have absent := find_eq_none.mp found
    exact (find_eq_none.mpr fun binding mem => absent binding (perm.mem_iff.mpr mem)).symm
  | some value =>
    have distinct' := (perm.map fst).nodup_iff.mp distinct
    exact (find_of_mem distinct' (perm.mem_iff.mp (mem_of_find found))).symm

/-- Only a new key makes a table longer. -/
theorem length_insert (ordered : Ordered bindings) (key : κ) (value : α) :
    (insert key value bindings).length =
      if (find key bindings).isSome then bindings.length else bindings.length + 1 := by
  induction bindings with
  | nil => rfl
  | cons binding rest ih =>
    obtain ⟨above, rest_ordered⟩ := pairwise_cons.mp ordered
    unfold insert find
    by_cases before : key < binding.1
    · have absent : find key rest = none :=
        find_eq_none.mpr fun other mem => (before.trans (above other mem)).ne'
      simp [before, before.ne', absent]
    · by_cases same : binding.1 = key
      · simp [same]
      · simp only [before, same, ↓reduceIte, length_cons, ih rest_ordered]
        split <;> rfl

/-- A key above all others goes to the end. -/
theorem insert_eq_append (value : α) (above : ∀ binding ∈ bindings, binding.1 < key) :
    insert key value bindings = bindings ++ [(key, value)] := by
  induction bindings with
  | nil => rfl
  | cons binding rest ih =>
    have first := above binding mem_cons_self
    unfold insert
    rw [if_neg first.not_gt, if_neg first.ne, ih (forall_mem_cons.mp above).2, cons_append]

/-- What is found after an insertion. -/
theorem find_insert (key other : κ) (value : α) (bindings : List (κ × α)) :
    find other (insert key value bindings) =
      if other = key then some value else find other bindings := by
  induction bindings with
  | nil => simp [insert, find, eq_comm]
  | cons binding rest ih =>
    by_cases before : key < binding.1
    · simp [insert, find, before, eq_comm]
    · by_cases same : binding.1 = key
      · by_cases own : other = key
        · simp [insert, find, same, own]
        · simp [insert, find, same, own, Ne.symm own]
      · by_cases here : binding.1 = other
        · have differs : other ≠ key := fun own => same (here.trans own)
          subst here
          simp [insert, find, before, differs]
        · simp [insert, find, before, same, here, ih]

variable {binding : κ × α}

/-- An insertion adds one binding. -/
theorem mem_insert (mem : binding ∈ insert key value bindings) :
    binding = (key, value) ∨ binding ∈ bindings := by
  induction bindings with
  | nil => simpa [insert] using mem
  | cons first rest ih =>
    simp only [insert] at mem
    split_ifs at mem with before same
    · simpa using mem
    · exact (mem_cons.mp mem).imp_right (mem_cons_of_mem _)
    · rcases mem_cons.mp mem with own | later
      · exact Or.inr (own ▸ mem_cons_self)
      · exact (ih later).imp_right (mem_cons_of_mem _)

/-- An insertion keeps the order. -/
theorem Ordered.insert (ordered : Ordered bindings) (key : κ) (value : α) :
    Ordered (insert key value bindings) := by
  induction bindings with
  | nil => exact pairwise_singleton _ _
  | cons first rest ih =>
    obtain ⟨least, tail⟩ := pairwise_cons.mp ordered
    simp only [Assoc.insert]
    split_ifs with before same
    · refine pairwise_cons.mpr ⟨forall_mem_cons.mpr ⟨before, fun other later => ?_⟩, ordered⟩
      exact before.trans (least other later)
    · exact pairwise_cons.mpr ⟨fun other mem => same ▸ least other mem, tail⟩
    · refine pairwise_cons.mpr ⟨fun other mem => ?_, ih tail⟩
      rcases mem_insert mem with own | later
      · exact own ▸ lt_of_le_of_ne (not_lt.mp before) same
      · exact least other later

/-- A key without a binding has none to remove. -/
theorem erase_eq_self (absent : find key bindings = none) : erase key bindings = bindings := by
  induction bindings with
  | nil => rfl
  | cons binding rest ih =>
    have others := find_eq_none.mp absent
    have first := others binding mem_cons_self
    rw [erase, if_neg first, ih (find_eq_none.mpr (forall_mem_cons.mp others).2)]

/-- Erasing only removes bindings. -/
theorem erase_sublist (key : κ) (bindings : List (κ × α)) :
    (erase key bindings).Sublist bindings := by
  induction bindings with
  | nil => exact List.Sublist.refl _
  | cons first rest ih =>
    simp only [erase]
    split_ifs
    · exact sublist_cons_self _ _
    · exact ih.cons_cons _

/-- Erasing keeps the order. -/
theorem Ordered.erase (ordered : Ordered bindings) (key : κ) : Ordered (erase key bindings) :=
  List.Pairwise.sublist (erase_sublist key bindings) ordered

/-- What is found after a key is erased. -/
theorem find_erase (ordered : Ordered bindings) (key other : κ) :
    find other (erase key bindings) = if other = key then none else find other bindings := by
  induction bindings with
  | nil => simp [erase, find]
  | cons first rest ih =>
    obtain ⟨least, tail⟩ := pairwise_cons.mp ordered
    simp only [erase]
    split_ifs with same own own
    · exact find_eq_none.mpr fun binding mem => own ▸ same ▸ (least binding mem).ne'
    · have differs : first.1 ≠ other := fun here => own (here.symm.trans same)
      simp [find, differs]
    · subst own
      simp [find, ih tail, same]
    · by_cases here : first.1 = other <;> simp [find, here, ih tail, own]

/-- Tables in which the same is found are the same. -/
theorem Ordered.ext {first second : List (κ × α)} (left : Ordered first)
    (right : Ordered second) (same : ∀ key, find key first = find key second) : first = second := by
  have sub {one two : List (κ × α)} (ordered : Ordered one)
      (agree : ∀ key, find key one = find key two) : one ⊆ two := by
    intro binding mem
    have found := find_of_mem ordered.nodup mem
    rw [agree] at found
    exact mem_of_find found
  have perm : first.Perm second := (perm_ext_iff_of_nodup left.nodup_bindings
    right.nodup_bindings).mpr fun binding =>
      ⟨fun mem => sub left same mem, fun mem => sub right (fun key => (same key).symm) mem⟩
  exact perm.eq_of_pairwise (fun a b _ _ ab ba => absurd (ab.trans ba) (lt_irrefl _)) left right

/-- Erasing removes the binding that is found. -/
theorem erase_perm (found : find key bindings = some value) :
    bindings.Perm ((key, value) :: erase key bindings) := by
  induction bindings with
  | nil => cases found
  | cons first rest ih =>
    by_cases same : first.1 = key
    · simp only [find, same, ↓reduceIte, some.injEq] at found
      subst same found
      simp [erase]
    · simp only [find, same, ↓reduceIte] at found
      rw [erase, if_neg same]
      exact ((ih found).cons first).trans (List.Perm.swap _ _ _)

/-- An insertion replaces the binding of its key. -/
theorem insert_perm (ordered : Ordered bindings) (key : κ) (value : α) :
    (insert key value bindings).Perm ((key, value) :: erase key bindings) := by
  have bound : find key (insert key value bindings) = some value := by
    rw [find_insert, if_pos rfl]
  have rest : erase key (insert key value bindings) = erase key bindings := by
    refine Ordered.ext ((ordered.insert key value).erase key) (ordered.erase key) fun other => ?_
    rw [find_erase (ordered.insert key value), find_erase ordered, find_insert]
    split_ifs <;> rfl
  rw [← rest]
  exact erase_perm bound

/-- Whether bindings are ordered depends on their keys. -/
theorem Ordered.of_keys {β : Type*} {first : List (κ × α)} {second : List (κ × β)}
    (ordered : Ordered first) (same : second.map fst = first.map fst) : Ordered second := by
  have keys : (first.map fst).Pairwise (· < ·) := pairwise_map.mpr ordered
  rw [← same] at keys
  exact pairwise_map.mp keys

/-- Removing a key and binding it again changes its value. -/
theorem insert_erase {old : α} {before behind : List (κ × α)}
    (ordered : Ordered (before ++ (key, old) :: behind)) :
    insert key value (erase key (before ++ (key, old) :: behind)) =
      before ++ (key, value) :: behind := by
  induction before with
  | nil =>
    have above := (pairwise_cons.mp ordered).1
    rw [nil_append, erase, if_pos rfl]
    cases behind with
    | nil => rfl
    | cons next rest => rw [insert, if_pos (above next mem_cons_self), nil_append]
  | cons first rest ih =>
    obtain ⟨least, tail⟩ := pairwise_cons.mp ordered
    have below := least (key, old) (mem_append_right _ mem_cons_self)
    rw [cons_append, erase, if_neg below.ne, insert, if_neg below.asymm, if_neg below.ne,
      ih tail, cons_append]

/-- A key that is bound stays bound as it was. -/
theorem find_orInsert (key other : κ) (value : α) (bindings : List (κ × α)) :
    find other (orInsert key value bindings) =
      (find other bindings).or (if other = key then some value else none) := by
  unfold orInsert
  split_ifs with bound own own
  · subst own
    obtain ⟨old, found⟩ := isSome_iff_exists.mp bound
    simp [found]
  · simp
  · subst own
    rw [not_isSome_iff_eq_none] at bound
    simp [find_insert, bound]
  · simp [find_insert, own]

/-- Inserting a missing key keeps the order. -/
theorem Ordered.orInsert (ordered : Ordered bindings) (key : κ) (value : α) :
    Ordered (orInsert key value bindings) := by
  unfold Assoc.orInsert
  split_ifs
  · exact ordered
  · exact ordered.insert key value

variable {table : List (κ × α)}

/-- Folding a list of bindings into a table keeps the order, and every key has its value in
the table, or else its first value in the list. -/
theorem foldl_orInsert (ordered : Ordered table) (list : List (κ × α)) :
    Ordered (list.foldl (fun table binding => orInsert binding.1 binding.2 table) table) ∧
      ∀ key, find key (list.foldl (fun table binding => orInsert binding.1 binding.2 table) table) =
        (find key table).or (find key list) := by
  induction list generalizing table with
  | nil => exact ⟨ordered, fun key => by simp [find]⟩
  | cons binding rest ih =>
    obtain ⟨kept, lookup⟩ := ih (ordered.orInsert binding.1 binding.2)
    refine ⟨kept, fun key => ?_⟩
    rw [foldl_cons, lookup, find_orInsert, Option.or_assoc, find]
    by_cases same : binding.1 = key
    · simp [same]
    · simp [same, Ne.symm same]

/-- Binding several keys to one value gives those keys the value and leaves the others. -/
theorem find_foldl_insert (table : List (κ × α)) (keys : List κ) (value : α) (key : κ) :
    find key (keys.foldl (fun table key => insert key value table) table) =
      if key ∈ keys then some value else find key table := by
  induction keys generalizing table with
  | nil => simp
  | cons first rest ih =>
    rw [foldl_cons, ih, find_insert]
    by_cases same : key = first
    · simp [same]
    · simp [same]

/-- Insertions keep the order. -/
theorem Ordered.foldl_insert (ordered : Ordered table) (keys : List κ) (value : α) :
    Ordered (keys.foldl (fun table key => Assoc.insert key value table) table) := by
  induction keys generalizing table with
  | nil => exact ordered
  | cons first rest ih => exact ih (ordered.insert first value)

/-- The bindings after several keys are bound to one value. -/
theorem mem_foldl_insert (ordered : Ordered table) {keys : List κ}
    (mem : binding ∈ keys.foldl (fun table key => insert key value table) table) :
    binding.1 ∈ keys ∧ binding.2 = value ∨ binding ∈ table ∧ binding.1 ∉ keys := by
  have found := find_of_mem (ordered.foldl_insert keys value).nodup mem
  rw [find_foldl_insert] at found
  by_cases inside : binding.1 ∈ keys
  · rw [if_pos inside] at found
    exact Or.inl ⟨inside, (some.inj found).symm⟩
  · rw [if_neg inside] at found
    exact Or.inr ⟨mem_of_find found, inside⟩

/-- A floor is a binding at or below the key. -/
theorem mem_of_floor (found : floor key bindings = some binding) :
    binding ∈ bindings ∧ binding.1 ≤ key := by
  induction bindings with
  | nil => simp [floor] at found
  | cons first rest ih =>
    unfold floor at found
    split_ifs at found with below
    cases later : floor key rest with
    | none =>
      rw [later, none_or, some.injEq] at found
      subst found
      exact ⟨mem_cons_self, below⟩
    | some last =>
      rw [later, some_or, some.injEq] at found
      subst found
      exact ⟨mem_cons_of_mem _ (ih later).1, (ih later).2⟩

/-- No binding at or below the key is above the floor. -/
theorem le_floor (ordered : Ordered bindings) {other : κ × α} (mem : other ∈ bindings)
    (below : other.1 ≤ key) :
    ∃ binding, floor key bindings = some binding ∧ other.1 ≤ binding.1 := by
  induction bindings with
  | nil => cases mem
  | cons first rest ih =>
    have apart := pairwise_cons.mp ordered
    have first_below : first.1 ≤ key := by
      cases mem with
      | head => exact below
      | tail _ inside => exact (apart.1 other inside).le.trans below
    unfold floor
    rw [if_pos first_below]
    cases mem with
    | head =>
      cases later : floor key rest with
      | none => exact ⟨other, rfl, le_rfl⟩
      | some last => exact ⟨last, rfl, (apart.1 last (mem_of_floor later).1).le⟩
    | tail _ inside =>
      obtain ⟨binding, found, above⟩ := ih apart.2 inside
      exact ⟨binding, by rw [found, some_or], above⟩

end LionFS.Assoc
