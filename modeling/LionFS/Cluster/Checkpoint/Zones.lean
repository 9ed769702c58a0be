import LionFS.Cluster.Checkpoint.Atomic
import LionFS.Cluster.Checkpoint.Syncing

/-!
# Checkpoints beside file data

A checkpoint of the engine writes its blob, of whatever size, at the start of the
checkpoint area, and the data zones begin where the area ends. Nothing compares
the two: a blob whose frame ends before the first extent leaves every extent, and
one that reaches an extent, when it is loaded again, has replaced bytes of it.
-/
namespace LionFS.Cluster.Checkpoint
open Run List FileDevice LionFS Extents Machine
variable {Hash : Type} {codec : Codec Hash} {store : Store Hash} {root : Hash} {blob : Bytes}

/-- The byte that a read of the device returns. -/
def shown (device : FileDevice) (address : Nat) : UInt8 :=
  (flush device.overlay device.file).cell address

/-- A checkpoint fails and the previous one is still loaded, or it succeeds, leaves the bytes of
the extents and is loaded. An extent is given by its address and its length. -/
def Spared (codec : Codec Hash) (extents : List (Nat × Nat)) (store : Store Hash) (root : Hash)
    (blob : Bytes) : Prop :=
  match checkpoint codec root blob store with
  | (none, next) => loadCheckpoint codec next = loadCheckpoint codec store
  | (some _, next) => loadCheckpoint codec next = (root, blob) ∧
    ∀ extent ∈ extents, ∀ address, extent.1 ≤ address → address < extent.1 + extent.2 →
      shown next.device address = shown store.device address

section
variable (lawful : codec.Lawful) (sound : Sound codec store) (root : Hash)
  (room : checkpointOffset + (framed codec blob).length ≤ store.device.file.len)
include lawful sound room

/-- A checkpoint that the device has room for writes the copies, the blob and the extents. -/
theorem Sound.checkpoint_eq : checkpoint codec root blob store = (some ⟨⟩,
    { staged store root (refTo codec blob) [] with
      device :=
        { file := flush (inOrder (uncovered codec store blob))
            ((flush (copyWrites codec (nextSuperblock store root (refTo codec blob)))
              store.device.file).write checkpointOffset (framed codec blob))
          overlay := [] } }) := by
  have slot := checkpointOffset_eq
  have far : ∀ entry ∈ uncovered codec store blob, dataStart ≤ entry.1 := fun entry mem =>
    sound.pending entry (mem_of_mem_filter mem)
  have behind : ∀ entry ∈ uncovered codec store blob ++ [(checkpointOffset, framed codec blob)],
      3 * 4096 ≤ entry.1 := fun entry mem => by
    have far := uncovered_behind sound.pending blob entry mem
    omega
  unfold checkpoint
  rw [bind_some (stageCheckpoint_eq sound.pending lawful sound.long root room)]
  unfold syncDevice Run.modify FileDevice.sync
  dsimp only
  rw [syncOrder_copies rfl behind, sort_blob far, flush, foldl_append]
  rfl

/-- A checkpoint whose frame ends before the extents spares them. -/
theorem Sound.spared (order : store.device.overlay.Pairwise InOrder) {extents : List (Nat × Nat)}
    (pending : ∀ entry ∈ store.device.overlay, (entry.1, entry.2.length) ∈ extents)
    (short : blob.length < 2 ^ 32)
    (far : ∀ extent ∈ extents, checkpointOffset + (8 + blob.length) ≤ extent.1) :
    Spared codec extents store root blob := by
  have size := @length_framed _ codec blob
  have fits := lawful.superblock_fits (nextSuperblock store root (refTo codec blob))
  have slot := checkpointOffset_eq
  have behind : ∀ entry ∈ inOrder (uncovered codec store blob),
      checkpointOffset + (8 + blob.length) ≤ entry.1 := fun entry mem =>
    far _ (pending entry (mem_of_mem_filter (mem_inOrder.mp mem)))
  unfold Spared
  rw [sound.checkpoint_eq lawful root room]
  refine ⟨congrArg (Prod.mk root) (blobIn_written short behind), fun extent mem address low _ => ?_⟩
  have past := far extent mem
  -- The copies and the blob end before the extent, and the pending ones sort without a change.
  have before : ((flush (copyWrites codec (nextSuperblock store root (refTo codec blob)))
      store.device.file).write checkpointOffset (framed codec blob)).cell address =
        store.device.file.cell address := by
    simp only [flush, copyWrites, foldl, Device.write, length_sbFrame, size]
    rw [if_neg (by omega), if_neg (by omega), if_neg (by omega), if_neg (by omega)]
  calc (flush (inOrder (uncovered codec store blob)) _).cell address
      = (flush (inOrder (uncovered codec store blob)) store.device.file).cell address :=
        cell_flush_congr before
    _ = (flush (uncovered codec store blob) store.device.file).cell address :=
        congrArg (Device.cell · address) (flush_insertionSort (order.filter _))
    _ = (flush store.device.overlay store.device.file).cell address :=
        cell_flush_uncovered (by omega)

omit room in
/-- A blob that reaches an extent is not loaded or replaces bytes of it, and one of four
gibibytes is not loaded. -/
theorem Sound.not_spared {extents : List (Nat × Nat)} (size address : Nat)
    (room : checkpointOffset + (8 + size) ≤ store.device.file.len)
    (reaches : 2 ^ 32 ≤ size ∨ checkpointOffset + 8 ≤ address ∧
      address < checkpointOffset + (8 + size) ∧
      ∃ extent ∈ extents, extent.1 ≤ address ∧ address < extent.1 + extent.2) :
    ¬ Spared codec extents store root (replicate size (shown store.device address + 1)) := by
  set blob := replicate size (shown store.device address + 1) with filled
  have whole : checkpointOffset + (framed codec blob).length ≤ store.device.file.len := by
    rw [length_framed, filled, length_replicate]
    exact room
  have done := sound.checkpoint_eq lawful root whole
  generalize flush (inOrder (uncovered codec store blob)) _ = file at done
  intro spared
  unfold Spared at spared
  rw [done] at spared
  obtain ⟨loaded, kept⟩ := spared
  have found : blobIn codec file (refTo codec blob) = blob := (Prod.mk.inj loaded).2
  have read := read_of_blobIn (found.trans_ne (by rw [filled]; simp; omega))
  rw [found] at read
  unfold Device.read at read
  split_ifs at read
  obtain ⟨length, bytes⟩ := eq_replicate_iff.mp (Option.some.inj read)
  rw [length_map, length_range] at length
  have narrowed : (refTo codec blob).len = size % 2 ^ 32 := by
    rw [refTo, filled, length_replicate]
    rfl
  rcases reaches with long | ⟨low, high, extent, mem, first, last⟩
  · have cut := Nat.mod_lt size (show 0 < 2 ^ 32 by decide)
    omega
  · have byte := bytes _ (mem_map.mpr
      ⟨address - (checkpointOffset + 8), mem_range.mpr (by omega), rfl⟩)
    have same : file.cell address = _ := kept extent mem address first last
    rw [show (refTo codec blob).offset + 8 + (address - (checkpointOffset + 8)) = address by
      change checkpointOffset + 8 + _ = _; omega, same] at byte
    exact absurd byte (by simp)

end

/-- In every store reached from a formatted one whose pending extents sort without a change, the
checkpoints with blobs of some size spare the extents if and only if the frame ends before every
extent and its length is a word, or the device has no room for it. -/
theorem checkpoint_spares_iff (lawful : codec.Lawful) {geo : Geometry}
    (narrow : NarrowGeometry geo) {capacity : Nat} (start : Store Hash)
    (formatted : format codec geo capacity = (some ⟨⟩, start)) (events : List (Event Hash))
    (store : Store Hash) (ran : run (step codec) events start = some store)
    (order : store.device.overlay.Pairwise InOrder) (extents : List (Nat × Nat))
    (zones : ∀ extent ∈ extents, dataStart ≤ extent.1 ∧ 0 < extent.2)
    (pending : ∀ entry ∈ store.device.overlay, (entry.1, entry.2.length) ∈ extents) (size : Nat) :
    (∀ root blob, blob.length = size → Spared codec extents store root blob) ↔
      (size < 2 ^ 32 ∧ ∀ extent ∈ extents, checkpointOffset + (8 + size) ≤ extent.1) ∨
        store.device.file.len < checkpointOffset + (8 + size) := by
  have sound := sound_reached lawful narrow formatted ran
  have last : dataStart = checkpointOffset + checkpointAreaSize := rfl
  have area : checkpointAreaSize = 8 * 1024 * 1024 := rfl
  constructor
  · intro spared
    by_contra neither
    obtain ⟨reached, room⟩ := not_or.mp neither
    by_cases long : 2 ^ 32 ≤ size
    · exact sound.not_spared lawful store.root size 0 (by omega) (.inl long)
        (spared store.root _ (length_replicate ..))
    · obtain ⟨extent, mem, inside⟩ : ∃ extent ∈ extents,
          extent.1 < checkpointOffset + (8 + size) := by
        by_contra none
        simp only [not_exists, not_and, Nat.not_lt] at none
        exact reached ⟨by omega, none⟩
      obtain ⟨zone, some⟩ := zones extent mem
      exact sound.not_spared lawful store.root size extent.1 (by omega)
        (.inr ⟨by omega, inside, extent, mem, Nat.le_refl _, by omega⟩)
        (spared store.root _ (length_replicate ..))
  · rintro either root blob rfl
    have length := @length_framed _ codec blob
    by_cases full : store.device.file.len < checkpointOffset + (8 + blob.length)
    · unfold Spared checkpoint
      rw [bind_none (stageCheckpoint_full root (by omega))]
    · obtain ⟨short, far⟩ := either.resolve_right full
      exact sound.spared lawful root (by omega) order pending short far

/-- A store with an extent of one byte at the start of the first zone. -/
def occupied : Store UInt8 := (onDevice dataStart [5] formatted).2

/-- It is reached by one write. -/
theorem occupied_eq : run (step fixed) [.extent dataStart [5]] formatted = some occupied := by
  rfl

/-- A checkpoint of three bytes beside the extent. -/
theorem checkpoint_spares_small : Spared fixed [(dataStart, 1)] occupied 1 [1, 2, 3] :=
  (checkpoint_spares_iff fixed_lawful single_narrow formatted formatted_eq
    [.extent dataStart [5]] occupied occupied_eq (List.pairwise_singleton _ _) [(dataStart, 1)]
    (by decide) (by decide) 3).mpr (.inl (by decide)) 1 [1, 2, 3] rfl

/-- A blob of the size of the area is eight bytes too long, and the extent is lost. -/
theorem large_checkpoint_not_spared :
    ¬ ∀ root blob, Spared fixed [(dataStart, 1)] occupied root blob := by
  intro spared
  have sound := sound_reached fixed_lawful single_narrow formatted_eq occupied_eq
  obtain ⟨size, room, reaches⟩ : ∃ size,
      checkpointOffset + (8 + size) ≤ occupied.device.file.len ∧
        dataStart < checkpointOffset + (8 + size) :=
    ⟨checkpointAreaSize, by decide +kernel, by decide⟩
  exact sound.not_spared fixed_lawful 1 size dataStart room
    (.inr ⟨by decide, reaches, (dataStart, 1), mem_singleton_self _, Nat.le_refl _,
      Nat.lt_succ_self _⟩) (spared 1 _)

end LionFS.Cluster.Checkpoint
