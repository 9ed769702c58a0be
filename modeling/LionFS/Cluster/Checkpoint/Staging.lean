import LionFS.Cluster.Checkpoint.Files

/-!
# Staged checkpoints and power cuts

Before its `sync` a checkpoint has its blob and three superblock copies in the
overlay, and `sync` writes the copies first. A power cut leaves some of the
copies, and behind the third the blob and the extents in order.
-/
namespace LionFS.Cluster.Checkpoint
open Run List Nat FileDevice LionFS Extents Ranges
variable {Hash : Type} {codec : Codec Hash} {kept : List (Nat × Bytes)} {sb : Superblock Hash}
section Staging
variable {store : Store Hash}

/-- A write that fits goes to the overlay. -/
theorem onDevice_eq {offset : Nat} {data : Bytes}
    (room : offset + data.length ≤ store.device.file.len)
    (apart : ∀ entry ∈ store.device.overlay, entry.1 < offset ∨
      offset + data.length < entry.1 + entry.2.length) :
    onDevice offset data store =
      (some ⟨⟩,
        { store with
          device :=
            { store.device with overlay := store.device.overlay ++ [(offset, data)] } }) := by
  have kept : (store.device.overlay.filter fun entry =>
      ¬ (offset ≤ entry.1 ∧ entry.1 + entry.2.length ≤ offset + data.length)) =
        store.device.overlay := by
    refine filter_eq_self.mpr fun entry mem => ?_
    have here := apart entry mem
    simp only [decide_eq_true_eq]
    omega
  unfold onDevice Run.focus write
  rw [if_neg (by omega)]
  dsimp only
  rw [kept]

/-- The store when a superblock is staged, with what is pending. -/
def staged (store : Store Hash) (root : Hash) (ref : CheckpointRef)
    (overlay : List (Nat × Bytes)) : Store Hash :=
  { store with
    epoch := store.epoch + 1
    root := root
    checkpoint := ref
    device := { store.device with overlay := overlay } }

/-- The superblock of the next epoch. -/
def nextSuperblock (store : Store Hash) (root : Hash) (ref : CheckpointRef) :
    Superblock Hash where
  magic := sbMagic
  version := 1
  epoch := store.epoch + 1
  root := root
  checkpoint := ref

/-- It is in its widths as long as the epoch does not overflow. -/
theorem nextSuperblock_narrow (counter : store.epoch + 1 < 2 ^ 64) (root : Hash)
    {ref : CheckpointRef} (narrow : ref.Narrow) : (nextSuperblock store root ref).Narrow where
  magic := (by decide : sbMagic < 2 ^ 32)
  version := (by decide : 1 < 2 ^ 32)
  epoch := counter
  checkpoint := narrow

/-- The three copies of a superblock. -/
def copyWrites (codec : Codec Hash) (sb : Superblock Hash) : List (Nat × Bytes) :=
  [(0, sbFrame codec sb), (4096, sbFrame codec sb), (8192, sbFrame codec sb)]

/-- Staging a superblock behind writes that lie behind the copies. -/
theorem stageSuperblock_eq (lawful : codec.Lawful) (long : dataStart ≤ store.device.file.len)
    (behind : ∀ entry ∈ store.device.overlay, 3 * 4096 < entry.1 + entry.2.length) (root : Hash)
    (ref : CheckpointRef) :
    stageSuperblock codec root ref store =
      (some ⟨⟩, staged store root ref
        (store.device.overlay ++ copyWrites codec (nextSuperblock store root ref))) := by
  set sb := nextSuperblock store root ref
  have fits := lawful.superblock_fits sb
  have size := @length_sbFrame _ codec sb
  have start := dataStart_eq
  have copies (number : Nat) (within : number < 3) (written : List (Nat × Bytes))
      (before : ∀ entry ∈ written, entry.1 < number * 4096) :
      writeSbCopy codec number sb (staged store root ref (store.device.overlay ++ written)) =
        (some ⟨⟩, staged store root ref
          (store.device.overlay ++ written ++ [(number * 4096, sbFrame codec sb)])) := by
    refine onDevice_eq (by dsimp only [staged]; omega) fun entry mem => ?_
    rcases mem_append.mp mem with old | new
    · have far := behind entry old
      exact .inr (by omega)
    · exact .inl (before entry new)
  have first := copies 0 (by omega) [] (by simp)
  have second := copies 1 (by omega) [(0 * 4096, sbFrame codec sb)] (by simp)
  have third := copies 2 (by omega) [(0 * 4096, sbFrame codec sb), (1 * 4096, sbFrame codec sb)]
    (by simp)
  rw [append_nil] at first
  rw [append_assoc, singleton_append] at second
  rw [append_assoc] at third
  change (writeSbCopy codec 0 sb >>= fun _ => writeSbCopy codec 1 sb >>= fun _ =>
    writeSbCopy codec 2 sb >>= fun _ => (pure ⟨⟩ : Run (Store Hash) PUnit))
      (staged store root ref store.device.overlay) = _
  rw [bind_some first, bind_some second, bind_some third]
  rfl

/-- Writes in the order of their offsets. -/
def inOrder (writes : List (Nat × Bytes)) : List (Nat × Bytes) :=
  writes.insertionSort fun first second => first.1 ≤ second.1

theorem mem_inOrder {write : Nat × Bytes} : write ∈ inOrder kept ↔ write ∈ kept :=
  mem_insertionSort _

theorem syncOrder_copies {device : FileDevice}
    (overlay : device.overlay = kept ++ copyWrites codec sb)
    (behind : ∀ entry ∈ kept, 3 * 4096 ≤ entry.1) : device.syncOrder =
      copyWrites codec sb ++ inOrder kept := by
  unfold syncOrder inOrder
  rw [overlay]
  clear overlay
  induction kept with
  | nil => rfl
  | cons entry rest ih =>
    have here := behind entry mem_cons_self
    rw [cons_append, insertionSort_cons, ih (forall_mem_cons.mp behind).2, insertionSort_cons]
    unfold copyWrites
    simp only [cons_append, nil_append]
    rw [orderedInsert, if_neg (by dsimp only; omega), orderedInsert,
      if_neg (by dsimp only; omega), orderedInsert, if_neg (by dsimp only; omega)]

/-- The entries of the overlay that the blob does not cover. -/
def uncovered (codec : Codec Hash) (store : Store Hash) (blob : Bytes) : List (Nat × Bytes) :=
  store.device.overlay.filter fun entry =>
    ¬ (checkpointOffset ≤ entry.1 ∧
      entry.1 + entry.2.length ≤ checkpointOffset + (framed codec blob).length)

/-- The reference to a blob. -/
def refTo (codec : Codec Hash) (blob : Bytes) : CheckpointRef where
  offset := checkpointOffset
  len := u32 blob.length
  crc := codec.crc blob

theorem refTo_narrow (blob : Bytes) : (refTo codec blob).Narrow :=
  ⟨by change 3 * 4096 + 4096 < 2 ^ 64; decide, mod_lt _ (by decide)⟩

section
variable (pending : ∀ entry ∈ store.device.overlay, dataStart ≤ entry.1)
include pending

/-- What is pending behind the superblock copies lies behind the zone map. -/
theorem uncovered_behind (blob : Bytes) :
    ∀ entry ∈ uncovered codec store blob ++ [(checkpointOffset, framed codec blob)],
      checkpointOffset ≤ entry.1 := by
  have start : dataStart = checkpointOffset + 8 * 1024 * 1024 := rfl
  refine forall_mem_append.mpr ⟨fun entry old => ?_, forall_mem_singleton.mpr le_rfl⟩
  have far := pending entry (mem_of_mem_filter old)
  omega

/-- Staging a checkpoint whose blob the device can hold. -/
theorem stageCheckpoint_eq (lawful : codec.Lawful) (long : dataStart ≤ store.device.file.len)
    (root : Hash) {blob : Bytes}
    (room : checkpointOffset + (framed codec blob).length ≤ store.device.file.len) :
    stageCheckpoint codec root blob store =
      (some ⟨⟩, staged store root (refTo codec blob)
        ((uncovered codec store blob ++ [(checkpointOffset, framed codec blob)]) ++
          copyWrites codec (nextSuperblock store root (refTo codec blob)))) := by
  have slot := checkpointOffset_eq
  have written : writeCheckpointBlob codec blob store =
      (some (refTo codec blob),
        { store with
          device :=
            { store.device with
              overlay := uncovered codec store blob ++
                [(checkpointOffset, framed codec blob)] } }) := by
    unfold writeCheckpointBlob onDevice
    rw [bind_apply]
    unfold Run.focus write
    rw [if_neg (by omega)]
    rfl
  unfold stageCheckpoint
  rw [bind_some written]
  refine stageSuperblock_eq lawful ?_ (fun entry mem => ?_) root (refTo codec blob)
  · exact long
  have far := uncovered_behind pending blob entry mem
  omega

end

/-- The blob is written before the extents. -/
theorem sort_blob {frame : Bytes} (pending : ∀ entry ∈ kept, dataStart ≤ entry.1) :
    inOrder (kept ++ [(checkpointOffset, frame)]) = (checkpointOffset, frame) :: inOrder kept := by
  unfold inOrder
  have start := dataStart_eq
  have slot := checkpointOffset_eq
  induction kept with
  | nil => rfl
  | cons entry rest ih =>
    have here := pending entry mem_cons_self
    rw [cons_append, insertionSort_cons, ih (forall_mem_cons.mp pending).2, insertionSort_cons,
      orderedInsert, if_neg (by dsimp only; omega)]

end Staging

variable {file : Device}
section Cuts

theorem openStore_eq (file : Device) :
    openStore codec { file := file, overlay := [] } =
      (newestIn codec file).bind fun sb => (geometryIn codec file).map fun geo =>
        { device := { file := file, overlay := [] }
          geo := geo
          epoch := sb.epoch
          root := sb.root
          checkpoint := sb.checkpoint } := by
  have same : newest ((range 3).filterMap
      (readSbCopy codec { file := file, overlay := [] })) = newestIn codec file := rfl
  rw [openStore, same]
  cases newestIn codec file <;> rfl

/-- What a reference finds in a file. -/
def blobIn (codec : Codec Hash) (file : Device) (ref : CheckpointRef) : Bytes :=
  if 0 < ref.len then
    ((file.read (ref.offset + 8) ref.len).filter fun blob => codec.crc blob = ref.crc).getD []
  else []

theorem blobIn_congr {other : Device} {ref : CheckpointRef}
    (same : file.read (ref.offset + 8) ref.len = other.read (ref.offset + 8) ref.len) :
    blobIn codec file ref = blobIn codec other ref := by
  unfold blobIn
  rw [same]

/-- A reference finds its blob where it is. -/
theorem blobIn_of_read {blob : Bytes} (small : blob.length < 2 ^ 32)
    (read : file.read (checkpointOffset + 8) blob.length = some blob) :
    blobIn codec file (refTo codec blob) = blob := by
  have length : u32 blob.length = blob.length := mod_eq_of_lt small
  unfold blobIn refTo
  dsimp only
  rw [length, read, Option.filter_some_pos (by simp)]
  split_ifs with some
  · rfl
  · exact (length_eq_zero_iff.mp (by omega)).symm

/-- What a reference finds is what is read. -/
theorem read_of_blobIn {ref : CheckpointRef} (found : blobIn codec file ref ≠ []) :
    file.read (ref.offset + 8) ref.len = some (blobIn codec file ref) := by
  unfold blobIn at found ⊢
  split_ifs at found ⊢ with some
  · cases read : file.read (ref.offset + 8) ref.len with
    | none => simp [read] at found
    | some bytes =>
      rw [read] at found
      rw [Option.filter_some] at found ⊢
      split_ifs at found ⊢
      · rfl
      · exact absurd rfl found
  · exact absurd rfl found

/-- A blob is found behind writes that begin where its frame ends. -/
theorem blobIn_written {blob : Bytes} (short : blob.length < 2 ^ 32)
    (far : ∀ entry ∈ kept, checkpointOffset + (8 + blob.length) ≤ entry.1) :
    blobIn codec (flush kept (file.write checkpointOffset (framed codec blob))) (refTo codec blob) =
      blob := by
  have size := @length_framed _ codec blob
  have whole := @Device.read_write_same file checkpointOffset (framed codec blob)
  rw [size] at whole
  refine blobIn_of_read short ?_
  rw [read_flush (fun write mem => by have here := far write mem; omega)
    (le_trans (by omega) (le_max_right _ _)), read_tail whole, framed, framedWith,
    drop_left' (by simp)]

theorem reload_eq {geo : Geometry} (best : newestIn codec file = some sb)
    (geometry : geometryIn codec file = some geo) : reload codec { file := file, overlay := [] } =
      some (sb.root, blobIn codec file sb.checkpoint) := by
  unfold reload
  rw [openStore_eq, best, Option.bind_some, geometry]
  rfl

/-- What writing the copies one after the other leads to. -/
theorem copies_induction {motive : Nat → Device → Prop} (start : motive 0 file)
    (next : ∀ number < 3, ∀ now, file.len ≤ now.len → motive number now →
      motive (number + 1) (now.write (number * 4096) (sbFrame codec sb))) (count : Nat) :
    motive (min count 3) (flush ((copyWrites codec sb).take count) file) := by
  have first := next 0 (by omega) file le_rfl start
  have second := next 1 (by omega) _ (le_max_left _ _) first
  have third := next 2 (by omega) _ ((le_max_left _ _).trans (le_max_left _ _)) second
  match count with
  | 0 => exact start
  | 1 => exact first
  | 2 => exact second
  | count + 3 =>
    rw [take_of_length_le (le_add_left 3 count), min_eq_right (le_add_left 3 count)]
    exact third

theorem copyIn_copies (lawful : codec.Lawful) (narrow : sb.Narrow) (magic : sb.magic = sbMagic)
    (long : dataStart ≤ file.len) {index : Nat} (mem : index < 3) (count : Nat) :
    copyIn codec (flush ((copyWrites codec sb).take count) file) index =
      if index < count then some sb else copyIn codec file index := by
  refine (copies_induction (motive := fun number now => copyIn codec now index =
    if index < number then some sb else copyIn codec file index) rfl ?_ count).trans ?_
  · intro number small now longer before
    rw [copyIn_write lawful narrow magic (long.trans longer) mem, before]
    split_ifs <;> first | rfl | omega
  · split_ifs <;> first | rfl | omega

/-- Writes of a new superblock leave what is behind the copies. -/
theorem read_copies (lawful : codec.Lawful) (sb : Superblock Hash) {offset length : Nat}
    (behind : 3 * 4096 ≤ offset) (inside : offset + length ≤ file.len) (count : Nat) :
    (flush ((copyWrites codec sb).take count) file).read offset length =
      file.read offset length := by
  have fits := lawful.superblock_fits sb
  have size := @length_sbFrame _ codec sb
  refine copies_induction (motive := fun _ now => now.read offset length =
    file.read offset length) rfl (fun number small now longer before => ?_) count
  rw [Device.read_write_apart _ (inside.trans longer), before]
  exact .inr (.inl (by dsimp only; omega))

/-- What is known of a store: the file opens to it, and the writes since the last `sync` are
extents. -/
structure Sound (codec : Codec Hash) (store : Store Hash) : Prop where
  /-- The superblock of the store is in its widths. -/
  narrow : (superblock store).Narrow
  long : dataStart ≤ store.device.file.len
  pending : ∀ entry ∈ store.device.overlay, dataStart ≤ entry.1
  best : newestIn codec store.device.file = some (superblock store)
  geometry : geometryIn codec store.device.file =
    if store.geo.zoneCount ≠ 0 ∧ store.geo.zoneSize ≠ 0 then some store.geo else none

variable {store : Store Hash}

/-- What a power cut leaves when a superblock was staged: the copies written so far, and then what
was pending before. -/
theorem cut_copies {device : FileDevice} (overlay : device.overlay = kept ++ copyWrites codec sb)
    (behind : ∀ entry ∈ kept, checkpointOffset ≤ entry.1) (count : Nat) : device.cut count =
      { file := flush ((inOrder kept).take (count - 3))
          (flush ((copyWrites codec sb).take count) device.file)
        overlay := [] } := by
  unfold cut
  have slot := checkpointOffset_eq
  rw [syncOrder_copies overlay fun entry mem => by have far := behind entry mem; omega, take_append]
  unfold flush
  rw [foldl_append]
  rfl

/-- After a power cut the geometry is there, and the newest superblock is the new one unless
nothing was written. -/
theorem Sound.cut (lawful : codec.Lawful) (sound : Sound codec store) (narrow : sb.Narrow)
    (magic : sb.magic = sbMagic) (later : sb.epoch = store.epoch + 1)
    (behind : ∀ entry ∈ kept, checkpointOffset ≤ entry.1) (count pending : Nat) :
    newestIn codec (flush ((inOrder kept).take pending)
        (flush ((copyWrites codec sb).take count) store.device.file)) =
      (if count = 0 then some (superblock store) else some sb) ∧
    geometryIn codec (flush ((inOrder kept).take pending)
        (flush ((copyWrites codec sb).take count) store.device.file)) =
      geometryIn codec store.device.file := by
  have far : ∀ write ∈ (inOrder kept).take pending, checkpointOffset ≤ write.1 :=
    fun write mem => behind write (mem_inOrder.mp (mem_of_mem_take mem))
  have long : dataStart ≤ (flush ((copyWrites codec sb).take count) store.device.file).len :=
    sound.long.trans (len_le_flush _ _)
  have copies : ∀ index < 3, copyIn codec (flush ((inOrder kept).take pending)
      (flush ((copyWrites codec sb).take count) store.device.file)) index =
        if index < count then some sb else copyIn codec store.device.file index := by
    intro index inside
    have slot := checkpointOffset_eq
    rw [copyIn_flush long (fun write mem => by have here := far write mem; omega) inside,
      copyIn_copies lawful narrow magic sound.long inside]
  constructor
  · by_cases none : count = 0
    · rw [if_pos none, ← sound.best]
      unfold newestIn
      congr 1
      refine filterMap_congr fun index mem => ?_
      rw [copies index (mem_range.mp mem), if_neg (by omega)]
    · rw [if_neg none]
      refine newestIn_eq ⟨0, by omega, ?_⟩ fun index inside other found => ?_
      · rw [copies 0 (by omega), if_pos (by omega)]
      · rw [copies index inside] at found
        split_ifs at found with new
        · exact .inl (Option.some.inj found).symm
        · have bound : other.epoch ≤ store.epoch := ((newest_spec _).2 _ sound.best).2 other
            (mem_filterMap.mpr ⟨index, mem_range.mpr inside, found⟩)
          exact .inr (by omega)
  · rw [geometryIn_flush long far]
    unfold geometryIn
    have start := dataStart_eq
    rw [read_copies lawful sb le_rfl (by have := sound.long; omega)]

end Cuts
end LionFS.Cluster.Checkpoint
