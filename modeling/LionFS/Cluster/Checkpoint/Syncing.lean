import LionFS.Cluster.Checkpoint.Files
import LionFS.Data.Machine

/-!
# What readers see of a file device

A read lays the overlay over the file in the order of arrival, and `sync` writes
the overlay to the file in the order of the offsets. The two orders agree unless
a write ends inside a pending write that starts behind it: such a write is newer
and yet goes to the file first, so `sync` brings old bytes back.
-/
namespace LionFS.Cluster.Checkpoint
open LionFS Extents Machine List FileDevice

/-- The byte that the latest of some writes leaves at a position, given the latest write first. -/
def latest : List (Nat × Bytes) → Nat → UInt8
  | [], _ => 0
  | write :: earlier, position =>
    if write.1 ≤ position ∧ position < write.1 + write.2.length then
      write.2.getD (position - write.1) 0
    else latest earlier position

/-- A device and the writes that it took, the latest first. -/
structure History where
  device : FileDevice
  writes : List (Nat × Bytes)

/-- The calls that change a device. -/
inductive Call where
  | write (offset : Nat) (data : Bytes)
  | sync

namespace History

/-- `FileDevice::create`. -/
def create (capacity : Nat) : History where
  device := { file := { cell := fun _ => 0, len := capacity }, overlay := [] }
  writes := []

/-- A call. A write past the capacity is refused. -/
def step (history : History) : Call → Option History
  | .write offset data =>
    match write offset data history.device with
    | (some _, device) => some { device := device, writes := (offset, data) :: history.writes }
    | (none, device) => some { history with device := device }
  | .sync => some { history with device := history.device.sync }

/-- Reads return the latest bytes, and these are in the file once nothing is pending. -/
structure Faithful (history : History) : Prop where
  reads : ∀ offset length, offset + length ≤ history.device.file.len →
    history.device.read offset length =
      some ((range length).map fun index => latest history.writes (offset + index))
  durable : history.device.overlay = [] → ∀ position,
    history.device.file.cell position = latest history.writes position

/-- A write does not end inside a pending write that starts behind it. -/
def Clear (history : History) : Call → Prop
  | .write offset data => ∀ entry ∈ history.device.overlay,
      ¬ (offset < entry.1 ∧ entry.1 < offset + data.length ∧
        offset + data.length < entry.1 + entry.2.length)
  | .sync => True

end History

section Orders
variable {writes : List (Nat × Bytes)} {file : Device}

/-- What a byte becomes depends on what it was. -/
theorem cell_flush_congr {other : Device} {spot : Nat} (same : file.cell spot = other.cell spot) :
    (flush writes file).cell spot = (flush writes other).cell spot := by
  induction writes generalizing file other with
  | nil => exact same
  | cons write rest ih =>
    apply ih
    simp only [Device.write, same]

theorem len_flush (mem : ∀ write ∈ writes, write.1 + write.2.length ≤ file.len) :
    (flush writes file).len = file.len := by
  induction writes generalizing file with
  | nil => rfl
  | cons write rest ih =>
    have here : (file.write write.1 write.2).len = file.len :=
      Nat.max_eq_left (mem write mem_cons_self)
    have later := forall_mem_of_forall_mem_cons mem
    rw [← here] at later
    exact (ih later).trans here

/-- Entries that a write covers do not show beside it. -/
theorem cell_flush_uncovered {offset length spot : Nat}
    (beside : ¬ (offset ≤ spot ∧ spot < offset + length)) :
    (flush (writes.filter fun entry =>
        ¬ (offset ≤ entry.1 ∧ entry.1 + entry.2.length ≤ offset + length)) file).cell spot =
      (flush writes file).cell spot := by
  induction writes generalizing file with
  | nil => rfl
  | cons entry rest ih =>
    by_cases covered : offset ≤ entry.1 ∧ entry.1 + entry.2.length ≤ offset + length
    · rw [filter_cons_of_neg (by simpa using covered), ih, flush_cons]
      have outside : ¬ (entry.1 ≤ spot ∧ spot < entry.1 + entry.2.length) := by omega
      apply cell_flush_congr
      simp only [Device.write, outside, if_false]
    · rw [filter_cons_of_pos (by exact decide_eq_true covered), flush_cons, flush_cons, ih]

/-- Writes that do not meet may change places. -/
theorem write_comm {first second : Nat × Bytes} (apart : second.1 + second.2.length ≤ first.1) :
    (file.write first.1 first.2).write second.1 second.2 =
      (file.write second.1 second.2).write first.1 first.2 := by
  have cells : ∀ spot, ((file.write first.1 first.2).write second.1 second.2).cell spot =
      ((file.write second.1 second.2).write first.1 first.2).cell spot := by
    intro spot
    simp only [Device.write]
    split_ifs <;> first | rfl | omega
  have lens : max (max file.len (first.1 + first.2.length)) (second.1 + second.2.length) =
      max (max file.len (second.1 + second.2.length)) (first.1 + first.2.length) := by omega
  unfold Device.write at cells ⊢
  exact congrArg₂ Device.mk (funext cells) lens

/-- A write sorts behind later writes only if they do not meet it. -/
def InOrder (earlier later : Nat × Bytes) : Prop :=
  earlier.1 ≤ later.1 ∨ later.1 + later.2.length ≤ earlier.1

theorem flush_orderedInsert {write : Nat × Bytes} (order : ∀ later ∈ writes, InOrder write later) :
    flush (writes.orderedInsert (fun first second => first.1 ≤ second.1) write) file =
      flush (write :: writes) file := by
  induction writes generalizing file with
  | nil => rfl
  | cons next rest ih =>
    rw [orderedInsert_cons]
    split_ifs with before
    · rfl
    · have apart := (order next mem_cons_self).resolve_left before
      have later := forall_mem_of_forall_mem_cons order
      rw [flush_cons, ih later, flush_cons, flush_cons, flush_cons, write_comm apart]

/-- Sorting does not change what the writes leave. -/
theorem flush_insertionSort (order : writes.Pairwise InOrder) :
    flush (writes.insertionSort fun first second => first.1 ≤ second.1) file =
      flush writes file := by
  induction writes generalizing file with
  | nil => rfl
  | cons write rest ih =>
    have sorted := perm_insertionSort (fun first second => first.1 ≤ second.1) rest
    rw [insertionSort_cons, flush_orderedInsert, flush_cons, flush_cons,
      ih (pairwise_cons.mp order).2]
    intro later mem
    exact (pairwise_cons.mp order).1 later (sorted.mem_iff.mp mem)

end Orders

namespace History

/-- The overlay over the file shows the latest bytes, and sorts without a change. -/
structure Sound (history : History) : Prop where
  view : ∀ position, (flush history.device.overlay history.device.file).cell position =
    latest history.writes position
  inside : ∀ entry ∈ history.device.overlay,
    entry.1 + entry.2.length ≤ history.device.file.len
  order : history.device.overlay.Pairwise InOrder

variable {history next : History}

theorem Sound.faithful (sound : history.Sound) : history.Faithful where
  reads := by
    intro offset length fits
    have len := len_flush sound.inside
    unfold FileDevice.read Device.read
    rw [if_neg (by omega)]
    simp only [sound.view]
  durable := by
    intro empty spot
    have view := sound.view spot
    rw [empty] at view
    exact view

theorem Sound.write {offset : Nat} {data : Bytes} (sound : history.Sound)
    (clear : history.Clear (.write offset data))
    (fits : offset + data.length ≤ history.device.file.len) :
    Sound
      { device := (write offset data history.device).2
        writes := (offset, data) :: history.writes } := by
  unfold FileDevice.write
  rw [if_neg (by omega)]
  refine ⟨fun spot => ?_, forall_mem_append.mpr ⟨fun entry old => ?_, ?_⟩, ?_⟩
  · unfold latest
    dsimp only
    rw [flush, foldl_append]
    by_cases covers : offset ≤ spot ∧ spot < offset + data.length
    · simp only [foldl, Device.write, covers, and_self, if_true]
    · simp only [foldl, Device.write, covers, if_false]
      exact (cell_flush_uncovered covers).trans (sound.view spot)
  · exact sound.inside entry (mem_filter.mp old).1
  · exact forall_mem_singleton.mpr fits
  · refine pairwise_append.mpr ⟨sound.order.filter _, pairwise_singleton _ _, ?_⟩
    intro entry mem new added
    obtain ⟨pending, uncovered⟩ := mem_filter.mp mem
    have ends := clear entry pending
    rw [mem_singleton.mp added]
    simp only [decide_eq_true_eq] at uncovered
    unfold InOrder
    dsimp only
    omega

theorem Sound.step {call : Call} (sound : history.Sound) (clear : history.Clear call)
    (taken : history.step call = some next) : next.Sound := by
  cases call with
  | write offset data =>
    have written := sound.write clear
    unfold FileDevice.write at written
    by_cases past : history.device.file.len < offset + data.length
    · simp only [History.step, FileDevice.write, past, if_true] at taken
      cases taken
      exact sound
    · simp only [History.step, FileDevice.write, past, if_false] at taken written
      cases taken
      exact written (Nat.le_of_not_lt past)
  | sync =>
    cases taken
    refine ⟨fun spot => ?_, forall_mem_nil _, .nil⟩
    change (flush history.device.syncOrder history.device.file).cell spot = _
    rw [syncOrder, flush_insertionSort sound.order]
    exact sound.view spot

end History

/-- As long as no write ends inside a pending write that starts behind it, every read returns the
latest bytes, before and after every `sync`, and `sync` makes them durable. -/
theorem reads_latest (capacity : Nat) (calls : List Call)
    (clear : Along History.step History.Clear calls (.create capacity)) :
    Always History.step History.Faithful calls (.create capacity) := by
  have start : (History.create capacity).Sound :=
    ⟨fun _ => rfl, forall_mem_nil _, .nil⟩
  exact always_of_along (fun _ _ _ sound here => sound.step here) (fun _ sound => sound.faithful)
    start clear

/-- A write that starts inside a pending one is read back after `sync`. -/
theorem reads_latest_inside :
    Always History.step History.Faithful [.write 0 [1, 1], .write 1 [2, 2], .sync] (.create 4) :=
  reads_latest 4 _ (by simp [Along, History.step, History.Clear, History.create, write])

/-- A write that ends inside a pending one is lost to `sync`. -/
theorem sync_restores_old_byte :
    ¬ Always History.step History.Faithful [.write 1 [1, 1], .write 0 [2, 2], .sync]
      (.create 4) := by
  intro always
  have last := always.2.2.2
  have stale := last.durable rfl 1
  exact absurd stale (by decide)

end LionFS.Cluster.Checkpoint
