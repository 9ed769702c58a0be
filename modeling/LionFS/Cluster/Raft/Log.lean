import LionFS.Cluster.Raft.Server
import LionFS.Data.Ballots

/-!
# Logs of a Raft server

An indexed log holds the indices from one on. On such logs the searches of the
source are lookups by position, and the loop of a follower over a batch has one
outcome: the follower keeps its log if the leader's log begins it, and takes over
the leader's log otherwise (`foldl_takeEntry`).
-/
namespace LionFS.Cluster.Raft
open List Option

/-- Indices of a log are those from one on. -/
def Indexed (log : List LogEntry) : Prop :=
  ∀ (position : Nat) entry, log[position]? = some entry → entry.index = position + 1

theorem indexed_nil : Indexed [] := by
  intro spot entry found
  simp at found

theorem Indexed.of_initial {log start : List LogEntry} (indexed : Indexed log)
    (begins : start <+: log) : Indexed start := fun spot entry found =>
  indexed spot entry (getElem?_of_initial begins found)

variable {log : List LogEntry}

theorem Indexed.lastIndexOf (indexed : Indexed log) : lastIndexOf log = log.length := by
  unfold Raft.lastIndexOf
  rw [getLast?_eq_getElem?]
  cases found : log[log.length - 1]? with
  | none =>
    rw [getElem?_eq_none_iff] at found
    simp only [map_none, getD_none]
    omega
  | some entry =>
    have mem := (List.getElem?_eq_some_iff.mp found).1
    have index := indexed _ _ found
    simp only [map_some, getD_some]
    omega

theorem Indexed.append {entry : LogEntry} (indexed : Indexed log)
    (next : entry.index = log.length + 1) : Indexed (log ++ [entry]) := by
  intro spot held found
  by_cases before : spot < log.length
  · rw [getElem?_append_left before] at found
    exact indexed spot held found
  · have mem := (List.getElem?_eq_some_iff.mp found).1
    rw [length_append, length_singleton] at mem
    have here : spot = log.length := by omega
    subst here
    rw [getElem?_concat_length] at found
    rw [← some.inj found, next]

theorem findIdx?_shifted {shift : Nat}
    (indexed : ∀ (spot : Nat) entry, log[spot]? = some entry →
      entry.index = shift + spot + 1) (spot : Nat) :
    (log.findIdx? fun held => held.index == shift + spot + 1) =
      if spot < log.length then some spot else none := by
  induction log generalizing shift spot with
  | nil => rfl
  | cons first rest ih =>
    have head := indexed 0 first rfl
    have tail : ∀ (at' : Nat) entry, rest[at']? = some entry →
        entry.index = shift + 1 + at' + 1 := fun at' entry found => by
      rw [indexed (at' + 1) entry (by simpa using found)]
      omega
    rw [findIdx?_cons, head]
    cases spot with
    | zero => simp
    | succ before =>
      have apart : (shift + 1 == shift + (before + 1) + 1) = false := by
        rw [beq_eq_false_iff_ne]
        omega
      have same : shift + (before + 1) + 1 = shift + 1 + before + 1 := by omega
      rw [apart, same, ih tail before]
      by_cases mem : before < rest.length <;> simp [mem]

theorem Indexed.findIdx? (indexed : Indexed log) (spot : Nat) :
    (log.findIdx? fun held => held.index == spot + 1) =
      if spot < log.length then some spot else none := by
  have shifted := @findIdx?_shifted log 0
    (fun at' entry found => by rw [indexed at' entry found, Nat.zero_add]) spot
  simpa using shifted

theorem Indexed.getElem?_of_mem (indexed : Indexed log) {entry : LogEntry} (mem : entry ∈ log) :
    0 < entry.index ∧ log[entry.index - 1]? = some entry := by
  obtain ⟨spot, found⟩ := mem_iff_getElem?.mp mem
  rw [indexed spot entry found]
  exact ⟨Nat.succ_pos _, found⟩

theorem Indexed.entryAt (indexed : Indexed log) (spot : Nat) :
    entryAt log (spot + 1) = log[spot]? := by
  unfold Raft.entryAt
  cases found : log[spot]? with
  | some entry =>
    obtain ⟨mem, here⟩ := List.getElem?_eq_some_iff.mp found
    refine find?_eq_some_iff_getElem.mpr ⟨?_, spot, mem, here, ?_⟩
    · rw [beq_iff_eq, indexed spot entry found]
    · intro before less
      have index := indexed before _ (getElem?_eq_getElem (less.trans mem))
      have apart : (before + 1 == spot + 1) = false := beq_eq_false_iff_ne.mpr (by omega)
      rw [index, apart]
      rfl
  | none =>
    refine find?_eq_none.mpr fun entry mem same => ?_
    have there := (indexed.getElem?_of_mem mem).2
    rw [beq_iff_eq.mp same, Nat.add_sub_cancel, found] at there
    cases there

theorem Indexed.entryAt_zero (indexed : Indexed log) : Raft.entryAt log 0 = none := by
  refine find?_eq_none.mpr fun entry mem same => ?_
  have pos := (indexed.getElem?_of_mem mem).1
  rw [beq_iff_eq.mp same] at pos
  exact absurd pos (Nat.lt_irrefl 0)

theorem filter_shifted {shift : Nat}
    (indexed : ∀ (spot : Nat) entry, log[spot]? = some entry →
      entry.index = shift + spot + 1) (next : Nat) :
    (log.filter fun entry => next ≤ entry.index) = log.drop (next - 1 - shift) := by
  induction log generalizing shift with
  | nil => simp
  | cons first rest ih =>
    have head := indexed 0 first rfl
    have tail : ∀ (at' : Nat) entry, rest[at']? = some entry →
        entry.index = shift + 1 + at' + 1 := fun at' entry found => by
      rw [indexed (at' + 1) entry (by simpa using found)]
      omega
    rw [filter_cons, ih tail, head]
    by_cases before : next ≤ shift + 1
    · have none : next - 1 - shift = 0 := by omega
      have less : next - 1 - (shift + 1) = 0 := by omega
      simp [before, none, less]
    · have more : next - 1 - shift = next - 1 - (shift + 1) + 1 := by omega
      simp [before, more]

/-- Logs that have entries of one term at an index are the same up to it. -/
def Matching (log other : List LogEntry) : Prop :=
  ∀ (position : Nat) held entry, log[position]? = some held → other[position]? = some entry →
    held.term = entry.term → log.take (position + 1) = other.take (position + 1)

/-- A follower that holds none of the entries to come takes each of them. -/
theorem foldl_takeEntry_take {full : List LogEntry} (indexed : Indexed full) (count : Nat) :
    (full.drop count).foldl Server.takeEntry (full.take count) = full := by
  induction missing : full.length - count generalizing count with
  | zero =>
    rw [drop_of_length_le (by omega), take_of_length_le (by omega)]
    rfl
  | succ less ih =>
    have mem : count < full.length := by omega
    have next := indexed count _ (getElem?_eq_getElem mem)
    have start := indexed.of_initial (List.take_prefix count full)
    have long : (full.take count).length = count := by
      rw [length_take]
      omega
    have appended : Server.takeEntry (full.take count) full[count] = full.take (count + 1) := by
      unfold Server.takeEntry
      rw [next, start.findIdx?, if_neg (by omega), start.lastIndexOf, long]
      simp
    rw [drop_eq_getElem_cons mem, foldl_cons, appended]
    exact ih (count + 1) (by omega)

/-- A follower that holds the entry before a batch keeps its log if the leader's log begins it and
takes over the leader's log otherwise. -/
theorem foldl_takeEntry {full : List LogEntry} (own : Indexed log) (indexed : Indexed full)
    (matching : Matching log full) {count : Nat} (reaches : count ≤ log.length)
    (same : log.take count = full.take count) :
    (full <+: log ∧ (full.drop count).foldl Server.takeEntry log = log) ∨
      (¬ full <+: log ∧ (full.drop count).foldl Server.takeEntry log = full) := by
  induction missing : full.length - count generalizing count with
  | zero =>
    rw [drop_of_length_le (by omega)]
    rw [take_of_length_le (l := full) (by omega)] at same
    exact Or.inl ⟨same ▸ take_prefix _ _, rfl⟩
  | succ less ih =>
    have mem : count < full.length := by omega
    have found := getElem?_eq_getElem mem
    have next := indexed count _ found
    rw [drop_eq_getElem_cons mem, foldl_cons]
    by_cases held : count < log.length
    · have there := getElem?_eq_getElem held
      by_cases level : log[count].term = full[count].term
      · have skipped : Server.takeEntry log full[count] = log := by
          unfold Server.takeEntry
          rw [next, own.findIdx?, if_pos held]
          simp [there, level]
        rw [skipped]
        exact ih held (matching count _ _ there found level) (by omega)
      · have cut : Server.takeEntry log full[count] = full.take (count + 1) := by
          unfold Server.takeEntry
          rw [next, own.findIdx?, if_pos held]
          simp only [there, map_some, some.injEq, level, ↓reduceIte, same]
          simp
        refine Or.inr ⟨fun begins => level ?_, ?_⟩
        · have both := getElem?_of_initial begins found
          rw [there] at both
          rw [some.inj both]
        · rw [cut]
          exact foldl_takeEntry_take indexed (count + 1)
    · have ends : log = full.take count := by
        rw [← same, take_of_length_le (by omega)]
      have long : log.length = count := by omega
      refine Or.inr ⟨fun begins => ?_, ?_⟩
      · have short := begins.length_le
        omega
      · have whole := foldl_takeEntry_take indexed count
        rw [drop_eq_getElem_cons mem, foldl_cons, ← ends] at whole
        exact whole

end LionFS.Cluster.Raft
