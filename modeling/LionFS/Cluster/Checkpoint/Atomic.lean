import LionFS.Cluster.Checkpoint.Staging
import LionFS.Data.Machine

/-!
# Atomicity of checkpoints

Every call and every power cut leaves a file that opens to the store. A power cut
behind the first superblock copy leaves the new root over the old blob, so a
checkpoint is atomic only if the slot already gives the new blob or the store had
what the new root finds there.
-/
namespace LionFS.Cluster.Checkpoint
open Run List Nat Words FileDevice LionFS Extents Machine
variable {Hash : Type} {codec : Codec Hash} {blob : Bytes}
section Soundness
variable {store next : Store Hash}

/-- A `sync` is a power cut after all its writes. -/
theorem sync_eq_cut (device : FileDevice) : device.sync = device.cut device.syncOrder.length := by
  unfold sync cut
  rw [take_length]

variable {geo : Geometry}

theorem sound_of_opened {file : Device} (long : dataStart ≤ file.len) {sb : Superblock Hash}
    (narrow : sb.Narrow) (magic : sb.magic = sbMagic) (version : sb.version = 1)
    (best : newestIn codec file = some sb) (geometry : geometryIn codec file =
      if geo.zoneCount ≠ 0 ∧ geo.zoneSize ≠ 0 then some geo else none)
    (opened : openStore codec { file := file, overlay := [] } = some next) : Sound codec next := by
  rw [openStore_eq, best, Option.bind_some, geometry] at opened
  by_cases valid : geo.zoneCount ≠ 0 ∧ geo.zoneSize ≠ 0
  swap
  · rw [if_neg valid] at opened
    cases opened
  rw [if_pos valid, Option.map_some] at opened
  cases opened
  have same : sb =
      { magic := sbMagic
        version := 1
        epoch := sb.epoch
        root := sb.root
        checkpoint := sb.checkpoint } := by
    rw [← magic, ← version]
  rw [same] at narrow best
  exact ⟨narrow, long, forall_mem_nil _, best, geometry⟩

theorem Sound.sync (lawful : codec.Lawful) (sound : Sound codec store)
    {kept : List (Nat × Bytes)} (behind : ∀ entry ∈ kept, checkpointOffset ≤ entry.1)
    (file : next.device.file = store.device.file)
    (overlay : next.device.overlay = kept ++ copyWrites codec (superblock next))
    (narrow : (superblock next).Narrow) (epoch : next.epoch = store.epoch + 1)
    (geo : next.geo = store.geo) :
    Sound codec { next with device := next.device.sync } := by
  have slot := checkpointOffset_eq
  have some : next.device.syncOrder.length ≠ 0 := by
    rw [syncOrder_copies overlay fun entry mem => by have far := behind entry mem; omega]
    simp [copyWrites]
  obtain ⟨best, geometry⟩ := sound.cut lawful narrow rfl epoch behind next.device.syncOrder.length
    (next.device.syncOrder.length - 3)
  rw [sync_eq_cut, cut_copies overlay behind, file]
  refine ⟨narrow, ?_, forall_mem_nil _, ?_, ?_⟩
  · exact (sound.long.trans (len_le_flush _ _)).trans (len_le_flush _ _)
  · rw [best, if_neg some]
    rfl
  · rw [geometry, sound.geometry, geo]

/-- A failed write leaves the store. -/
theorem stageCheckpoint_full (root : Hash)
    (full : store.device.file.len < checkpointOffset + (framed codec blob).length) :
    stageCheckpoint codec root blob store = (none, store) := by
  unfold stageCheckpoint
  refine bind_none (bind_none ?_)
  unfold onDevice Run.focus write
  rw [if_pos full]

variable (lawful : codec.Lawful)
include lawful

/-- What a power cut in the `sync` of a checkpoint leaves. -/
theorem Sound.checkpoint_cut (sound : Sound codec store) (root : Hash)
    (room : checkpointOffset + (framed codec blob).length ≤ store.device.file.len) (count : Nat) :
    (stageCheckpoint codec root blob store).2.device.cut count =
      { file := flush
          ((inOrder (uncovered codec store blob ++ [(checkpointOffset, framed codec blob)])).take
            (count - 3))
          (flush ((copyWrites codec (nextSuperblock store root (refTo codec blob))).take count)
            store.device.file)
        overlay := [] } := by
  rw [stageCheckpoint_eq sound.pending lawful sound.long root room]
  exact cut_copies rfl (uncovered_behind sound.pending blob) count

theorem Sound.step (sound : Sound codec store) {event : Event Hash}
    (taken : step codec store event = some next) : Sound codec next := by
  have start := dataStart_eq
  have slot := checkpointOffset_eq
  unfold Checkpoint.step at taken
  cases event with
  | extent offset data =>
    dsimp only at taken
    split_ifs at taken with zone
    cases taken
    unfold onDevice Run.focus write
    split_ifs with full
    · exact sound
    · refine { sound with
        pending := forall_mem_append.mpr ⟨fun entry old => ?_, forall_mem_singleton.mpr zone⟩ }
      exact sound.pending entry (mem_of_mem_filter old)
  | checkpoint root blob =>
    dsimp only at taken
    split_ifs at taken with counter
    cases taken
    unfold checkpoint
    by_cases room : checkpointOffset + (framed codec blob).length ≤ store.device.file.len
    · rw [bind_some (stageCheckpoint_eq sound.pending lawful sound.long root room)]
      exact sound.sync lawful (uncovered_behind sound.pending blob) rfl rfl
        (nextSuperblock_narrow counter root (refTo_narrow blob)) rfl rfl
    · rw [bind_none (stageCheckpoint_full root (by omega))]
      exact sound
  | noop root =>
    dsimp only at taken
    split_ifs at taken with counter
    cases taken
    have staged := stageSuperblock_eq lawful sound.long
      (fun entry mem => by have far := sound.pending entry mem; omega) root store.checkpoint
    change Sound codec (writeSuperblock codec root store.checkpoint store).2
    unfold writeSuperblock
    rw [bind_some staged]
    refine sound.sync lawful (fun entry mem => ?_) rfl rfl
      (nextSuperblock_narrow counter root sound.narrow.checkpoint) rfl rfl
    have far := sound.pending entry mem
    omega
  | crash root blob count =>
    dsimp only at taken
    split_ifs at taken with counter
    have narrow := nextSuperblock_narrow counter root (@refTo_narrow _ codec blob)
    by_cases room : checkpointOffset + (framed codec blob).length ≤ store.device.file.len
    · rw [sound.checkpoint_cut lawful root room] at taken
      obtain ⟨best, geometry⟩ := sound.cut lawful narrow rfl rfl
        (uncovered_behind sound.pending blob) count (count - 3)
      have long {first second : List (Nat × Bytes)} :
          dataStart ≤ (flush second (flush first store.device.file)).len :=
        (sound.long.trans (len_le_flush _ _)).trans (len_le_flush _ _)
      split_ifs at best
      · exact sound_of_opened long sound.narrow rfl rfl best (geometry.trans sound.geometry) taken
      · exact sound_of_opened long narrow rfl rfl best (geometry.trans sound.geometry) taken
    · rw [stageCheckpoint_full root (by omega)] at taken
      have behind : ∀ entry ∈ store.device.overlay, checkpointOffset ≤ entry.1 := by
        intro entry mem
        have far := sound.pending entry mem
        omega
      obtain ⟨best, geometry⟩ := sound.cut lawful narrow rfl rfl behind 0 count
      rw [if_pos rfl] at best
      exact sound_of_opened (sound.long.trans (len_le_flush _ _)) sound.narrow rfl rfl best
        (geometry.trans sound.geometry) taken

/-- A store that is being formatted, with what is written so far. -/
def formatting (codec : Codec Hash) (geo : Geometry) (capacity : Nat)
    (overlay : List (Nat × Bytes)) : Store Hash where
  device := { file := { cell := fun _ => 0, len := capacity }, overlay := overlay }
  geo := geo
  epoch := 0
  root := codec.zero
  checkpoint := noCheckpoint

/-- The write of the zone map. -/
def mapWrite (codec : Codec Hash) (geo : Geometry) : Nat × Bytes :=
  (3 * 4096, framed codec (codec.serializeGeometry geo))

/-- The superblock of a formatted store. -/
def firstSuperblock (codec : Codec Hash) : Superblock Hash where
  magic := sbMagic
  version := 1
  epoch := 1
  root := codec.zero
  checkpoint := noCheckpoint

/-- The store that `format` syncs, on a device that can hold the geometry. -/
theorem format_eq {capacity : Nat} (room : geo.totalSize ≤ capacity) : format codec geo capacity =
      (some ⟨⟩,
        { geo := geo
          epoch := 1
          root := codec.zero
          checkpoint := noCheckpoint
          device := sync
            { file := { cell := fun _ => 0, len := capacity }
              overlay := [(geo.totalSize - 1, [0]), mapWrite codec geo] ++
                copyWrites codec (firstSuperblock codec) } }) := by
  have first := dataStart_eq
  have total : dataStart ≤ geo.totalSize := le_add_right _ _
  have fits := lawful.geometry_fits geo
  have size := @length_framed _ codec (codec.serializeGeometry geo)
  have grown := @onDevice_eq _ (formatting codec geo capacity []) (geo.totalSize - 1) [0]
    (by dsimp only [formatting, length_singleton]; omega)
    (forall_mem_nil _)
  have mapped := @onDevice_eq _ (formatting codec geo capacity [(geo.totalSize - 1, [0])])
    (3 * 4096) (framed codec (codec.serializeGeometry geo))
    (by dsimp only [formatting]; omega) (fun entry mem => by
      rw [mem_singleton.mp mem]
      dsimp only [length_singleton]
      omega)
  have staged := @stageSuperblock_eq _ codec
    (formatting codec geo capacity [(geo.totalSize - 1, [0]), mapWrite codec geo]) lawful
    (total.trans room) (fun entry mem => by
      simp only [formatting, mapWrite, mem_cons, not_mem_nil, or_false] at mem
      rcases mem with same | same <;> rw [same] <;> dsimp only [length_singleton] <;>
        omega) codec.zero noCheckpoint
  unfold format
  refine (bind_some grown).trans ?_
  refine (bind_some mapped).trans ?_
  exact bind_some staged

theorem fresh_file {file : Device} (long : dataStart ≤ file.len) {sb : Superblock Hash}
    (narrow : sb.Narrow) (magic : sb.magic = sbMagic) {writes : List (Nat × Bytes)}
    (behind : ∀ write ∈ writes, checkpointOffset ≤ write.1) (narrowGeo : NarrowGeometry geo) :
    newestIn codec (flush (mapWrite codec geo :: writes)
        (flush (copyWrites codec sb) file)) = some sb ∧
      geometryIn codec (flush (mapWrite codec geo :: writes)
        (flush (copyWrites codec sb) file)) =
          if geo.zoneCount ≠ 0 ∧ geo.zoneSize ≠ 0 then some geo else none := by
  have first := dataStart_eq
  have slot := checkpointOffset_eq
  have fits := lawful.geometry_fits geo
  have size := @length_framed _ codec (codec.serializeGeometry geo)
  have reaches : dataStart ≤ (flush (copyWrites codec sb) file).len :=
    long.trans (len_le_flush _ _)
  have far : ∀ write ∈ mapWrite codec geo :: writes, 3 * 4096 ≤ write.1 := by
    refine forall_mem_cons.mpr ⟨le_rfl, fun write other => ?_⟩
    have here := behind write other
    omega
  constructor
  · have copies : ∀ index < 3, copyIn codec
        (flush (mapWrite codec geo :: writes)
          (flush (copyWrites codec sb) file)) index = some sb := by
      intro index inside
      have written := copyIn_copies lawful narrow magic long inside 3
      rw [if_pos inside] at written
      rw [copyIn_flush reaches far inside]
      exact written
    refine newestIn_eq ⟨0, by omega, copies 0 (by omega)⟩ fun index inside other found => ?_
    rw [copies index inside] at found
    exact .inl (Option.some.inj found).symm
  · obtain ⟨more, read, -⟩ := @read_write_front (flush (copyWrites codec sb) file) (3 * 4096) 4096
      (framed codec (codec.serializeGeometry geo)) (by omega) (by omega)
    rw [flush_cons, geometryIn_flush (reaches.trans (le_max_left _ _)) behind, geometryIn, mapWrite,
      read, Option.bind_some, parseGeometry_framed lawful narrowGeo]

theorem sound_format (narrowGeo : NarrowGeometry geo) {capacity : Nat}
    (formatted : format codec geo capacity = (some ⟨⟩, store)) : Sound codec store := by
  have first := dataStart_eq
  have total : dataStart ≤ geo.totalSize := le_add_right _ _
  have fits := lawful.geometry_fits geo
  have size := @length_framed _ codec (codec.serializeGeometry geo)
  have room : geo.totalSize ≤ capacity := by
    by_contra short
    unfold format onDevice at formatted
    dsimp only at formatted
    rw [bind_apply] at formatted
    unfold Run.focus write at formatted
    rw [if_pos (by dsimp only [length_singleton]; omega)] at formatted
    cases formatted
  rw [format_eq lawful room] at formatted
  rw [← (Prod.mk.inj formatted).2]
  have behind : ∀ entry ∈ [(geo.totalSize - 1, [(0 : UInt8)]), mapWrite codec geo],
      3 * 4096 ≤ entry.1 := by
    intro entry mem
    simp only [mem_cons, not_mem_nil, or_false] at mem
    rcases mem with same | same
    · rw [same]
      dsimp only
      omega
    · rw [same, mapWrite]
  have sorted : inOrder [(geo.totalSize - 1, [0]), mapWrite codec geo] =
      [mapWrite codec geo, (geo.totalSize - 1, [0])] := by
    rw [inOrder, insertionSort_cons, insertionSort_cons, insertionSort_nil, orderedInsert_nil,
      orderedInsert, if_neg (by dsimp only [mapWrite]; omega), orderedInsert_nil]
  have far : ∀ write ∈ [(geo.totalSize - 1, [(0 : UInt8)])], checkpointOffset ≤ write.1 := by
    intro write mem
    rw [mem_singleton.mp mem]
    change 16384 ≤ geo.totalSize - 1
    omega
  have long : dataStart ≤ ({ cell := fun _ => 0, len := capacity } : Device).len := total.trans room
  have narrow : (firstSuperblock codec).Narrow :=
    ⟨(by decide : sbMagic < 2 ^ 32), (by decide : 1 < 2 ^ 32), (by decide : 1 < 2 ^ 64),
      (by decide : 0 < 2 ^ 64), (by decide : 0 < 2 ^ 32)⟩
  obtain ⟨best, geometry⟩ := fresh_file lawful long narrow rfl far narrowGeo
  unfold sync
  rw [syncOrder_copies rfl behind, sorted]
  unfold flush at best geometry ⊢
  rw [foldl_append]
  refine ⟨narrow, ?_, forall_mem_nil _, best, geometry⟩
  exact (long.trans (len_le_flush _ _)).trans (len_le_flush _ _)

theorem sound_reached (narrow : NarrowGeometry geo) {capacity : Nat} {start : Store Hash}
    (formatted : format codec geo capacity = (some ⟨⟩, start)) {events : List (Event Hash)}
    (ran : run (Checkpoint.step codec) events start = some store) : Sound codec store :=
  run_keeps (fun _ _ _ kept _ taken => kept.step lawful taken)
    (sound_format lawful narrow formatted)
    (@along_of_forall _ _ _ (fun _ _ => True) (fun _ _ => trivial) events start) ran

end Soundness

section Atomicity
variable {store : Store Hash}

/-- What the slot gives for the reference to a blob that is not written yet. -/
def stale (codec : Codec Hash) (store : Store Hash) (blob : Bytes) : Bytes :=
  blobIn codec store.device.file (refTo codec blob)

/-- What the slot holds of the length of a blob. -/
def held (store : Store Hash) (blob : Bytes) : Option Bytes :=
  store.device.file.read (checkpointOffset + 8) blob.length

/-- The slot gives the blob before it is written if the blob is empty or the slot holds it. -/
theorem stale_eq_iff (small : blob.length < 2 ^ 32) :
    stale codec store blob = blob ↔ blob = [] ∨ held store blob = some blob := by
  have length : u32 blob.length = blob.length := mod_eq_of_lt small
  have read : store.device.file.read (checkpointOffset + 8) (u32 blob.length) =
      held store blob := by rw [length, held]
  constructor
  · intro same
    refine (eq_or_ne blob []).imp_right fun some => ?_
    have found := read_of_blobIn (same.trans_ne some)
    exact read.symm.trans (found.trans (congrArg Option.some same))
  · rintro (rfl | there)
    · rfl
    · exact blobIn_of_read small there

/-- After a power cut in the `sync` of a checkpoint whose blob fits in the slot: before the first
write the store has what it had, before the fourth the new root with what the slot gives, and from
then on the new root and the new blob. -/
theorem Sound.reload_cut (lawful : codec.Lawful) (sound : Sound codec store)
    (counter : store.epoch + 1 < 2 ^ 64) (valid : store.geo.zoneCount ≠ 0 ∧ store.geo.zoneSize ≠ 0)
    (root : Hash) (fits : 8 + blob.length ≤ checkpointAreaSize) (count : Nat) :
    reload codec ((stageCheckpoint codec root blob store).2.device.cut count) =
      if count = 0 then reload codec (store.device.cut 0)
      else if count ≤ 3 then some (root, stale codec store blob)
      else some (root, blob) := by
  have start := dataStart_eq
  have slot := checkpointOffset_eq
  have area : checkpointAreaSize = 8 * 1024 * 1024 := rfl
  have size := @length_framed _ codec blob
  have long := sound.long
  have small : u32 blob.length = blob.length := mod_eq_of_lt (by omega)
  have geometry := sound.geometry
  rw [if_pos valid] at geometry
  obtain ⟨best, same⟩ := sound.cut lawful
    (nextSuperblock_narrow counter root (@refTo_narrow _ codec blob)) rfl rfl
    (uncovered_behind sound.pending blob) count (count - 3)
  rw [sound.checkpoint_cut lawful root (by omega)]
  by_cases nothing : count = 0
  · rw [if_pos nothing, nothing]
    rfl
  · rw [if_neg nothing] at best ⊢
    rw [reload_eq best (same.trans geometry)]
    by_cases early : count ≤ 3
    · rw [if_pos early, Nat.sub_eq_zero_of_le early, take_zero]
      congr 2
      apply blobIn_congr
      refine read_copies lawful _ ?_ ?_ count
      · change 3 * 4096 ≤ checkpointOffset + 8
        omega
      · change checkpointOffset + 8 + u32 blob.length ≤ _
        omega
    · obtain ⟨more, succ⟩ : ∃ more, count - 3 = more + 1 := ⟨count - 4, by omega⟩
      have far : ∀ entry ∈ uncovered codec store blob, dataStart ≤ entry.1 :=
        fun entry mem => sound.pending entry (mem_of_mem_filter mem)
      rw [if_neg early, succ, sort_blob far, take_succ_cons, flush_cons]
      congr 2
      have last : dataStart = checkpointOffset + checkpointAreaSize := rfl
      have area : checkpointAreaSize = 8 * 1024 * 1024 := rfl
      exact blobIn_written (by omega) fun entry mem => by
        have zone := far entry (mem_inOrder.mp (mem_of_mem_take mem))
        omega

/-- In every store reached from a formatted one by extents, checkpoints and power cuts, a
checkpoint whose blob fits in the slot is atomic if and only if the geometry can be opened and
before it is written the slot already gives the blob (it is empty, or the slot holds it), or the
new root with what the slot gives is what the store had. -/
theorem atomic_iff (lawful : codec.Lawful) {geo : Geometry} (narrow : NarrowGeometry geo)
    {capacity : Nat} (start : Store Hash) (formatted : format codec geo capacity = (some ⟨⟩, start))
    (events : List (Event Hash)) (store : Store Hash)
    (ran : run (step codec) events start = some store) (counter : store.epoch + 1 < 2 ^ 64)
    (root : Hash) (blob : Bytes)
    (fits : 8 + blob.length ≤ checkpointAreaSize) :
    Atomic codec store root blob ↔
      (store.geo.zoneCount ≠ 0 ∧ store.geo.zoneSize ≠ 0) ∧
        (blob = [] ∨ held store blob = some blob ∨
          reload codec (store.device.cut 0) = some (root, stale codec store blob)) := by
  have sound := sound_reached lawful narrow formatted ran
  have area : checkpointAreaSize = 8 * 1024 * 1024 := rfl
  have opens : reload codec (store.device.cut 0) =
      reload codec { file := store.device.file, overlay := [] } := rfl
  constructor
  · rintro ⟨previous, before, cuts⟩
    have valid : store.geo.zoneCount ≠ 0 ∧ store.geo.zoneSize ≠ 0 := by
      by_contra invalid
      have geometry := sound.geometry
      rw [if_neg invalid] at geometry
      rw [opens, reload, openStore_eq, sound.best, geometry] at before
      cases before
    have returned : (stageCheckpoint codec root blob store).1.isSome := by
      have size := @length_framed _ codec blob
      have long := sound.long
      have last : dataStart = checkpointOffset + checkpointAreaSize := rfl
      rw [stageCheckpoint_eq sound.pending lawful sound.long root (by omega)]
      rfl
    have one := cuts returned 1
    rw [sound.reload_cut lawful counter valid root fits 1, if_neg (by omega),
      if_pos (by omega)] at one
    refine ⟨valid, ?_⟩
    rcases one with same | same
    · exact .inr (.inr (before.trans same.symm))
    · rcases (stale_eq_iff (by omega)).mp (Prod.mk.inj (Option.some.inj same)).2 with empty | there
      · exact .inl empty
      · exact .inr (.inl there)
  · rintro ⟨valid, condition⟩
    have geometry := sound.geometry
    rw [if_pos valid] at geometry
    refine ⟨_, reload_eq sound.best geometry, fun _ count => ?_⟩
    rw [sound.reload_cut lawful counter valid root fits count]
    split_ifs with nothing early
    · exact .inl (reload_eq sound.best geometry)
    · rcases condition with empty | there | same
      · rw [(stale_eq_iff (by omega)).mpr (.inl empty)]
        exact .inr rfl
      · rw [(stale_eq_iff (by omega)).mpr (.inr there)]
        exact .inr rfl
      · exact .inl (same.symm.trans (reload_eq sound.best geometry))
    · exact .inr rfl

end Atomicity

section Examples

/-- Hashes of one byte; fields one after the other, each in its width. -/
def fixed : Codec UInt8 where
  serialize sb := encode 4 sb.magic ++ (encode 4 sb.version ++
    (encode 8 sb.epoch ++ (sb.root :: (encode 8 sb.checkpoint.offset ++
      (encode 4 sb.checkpoint.len ++ encode 4 sb.checkpoint.crc.toNat)))))
  deserialize bytes :=
    let (magic, bytes) := Words.take 4 bytes
    let (version, bytes) := Words.take 4 bytes
    let (epoch, bytes) := Words.take 8 bytes
    match bytes with
    | [] => none
    | root :: bytes =>
      let (offset, bytes) := Words.take 8 bytes
      let (len, bytes) := Words.take 4 bytes
      some
        { magic := magic
          version := version
          epoch := epoch
          root := root
          checkpoint :=
            { offset := offset
              len := len
              crc := UInt32.ofNat (Words.take 4 bytes).1 } }
  serializeGeometry geo := encode 4 geo.zoneCount ++ (encode 8 geo.zoneSize ++
    encode 4 geo.segmentSize)
  deserializeGeometry bytes :=
    let (zoneCount, bytes) := Words.take 4 bytes
    let (zoneSize, bytes) := Words.take 8 bytes
    let (segmentSize, _) := Words.take 4 bytes
    if positive : 0 < segmentSize then
      some
        { zoneCount := zoneCount
          zoneSize := zoneSize
          segmentSize := segmentSize
          segment_pos := positive }
    else none
  crc bytes := bytes.foldl (fun sum byte => 31 * sum + byte.toUInt32) 7
  zero := 0

/-- What was written in fixed widths is read back. -/
theorem fixed_lawful : fixed.Lawful where
  superblock := by
    intro sb narrow
    have crc := sb.checkpoint.crc.toNat_lt
    have last := take_encode 4 sb.checkpoint.crc.toNat []
    rw [append_nil] at last
    have short : 256 ^ 4 = 2 ^ 32 := by decide
    have wide : 256 ^ 8 = 2 ^ 64 := by decide
    simp only [fixed, Words.take_encode, last]
    rw [short, wide, mod_eq_of_lt narrow.magic, mod_eq_of_lt narrow.version,
      mod_eq_of_lt narrow.epoch, mod_eq_of_lt narrow.checkpoint.1,
      mod_eq_of_lt narrow.checkpoint.2, mod_eq_of_lt crc, UInt32.ofNat_toNat]
  superblock_fits := by
    intro sb
    simp [fixed]
  geometry := by
    intro geo narrow
    have last := take_encode 4 geo.segmentSize []
    rw [append_nil] at last
    simp only [fixed, Words.take_encode, last]
    have zones : geo.zoneCount % 256 ^ 4 = geo.zoneCount := mod_eq_of_lt narrow.zoneCount
    have size : geo.zoneSize % 256 ^ 8 = geo.zoneSize := mod_eq_of_lt narrow.zoneSize
    have segments : geo.segmentSize % 256 ^ 4 = geo.segmentSize :=
      mod_eq_of_lt narrow.segmentSize
    rw [dif_pos (by rw [segments]; exact geo.segment_pos)]
    simp only [zones, size, segments]
  geometry_fits := by
    intro geo
    simp [fixed]

theorem single_segment : 0 < 64 := by decide

/-- One zone of one segment. -/
def single : Geometry where
  zoneCount := 1
  zoneSize := 64
  segmentSize := 64
  segment_pos := single_segment

theorem single_narrow : NarrowGeometry single := ⟨by decide, by decide, by decide⟩

/-- A formatted store. -/
def formatted : Store UInt8 := (format fixed single (dataStart + 64)).2

theorem formatted_eq : format fixed single (dataStart + 64) = (some ⟨⟩, formatted) := rfl

/-- A checkpoint is made. -/
def checkpointing : List (Event UInt8) := [.checkpoint 1 [1, 2, 3]]

/-- The store after it. -/
def checkpointed : Store UInt8 := reach (step fixed) checkpointing formatted

/-- After a power cut behind the first superblock copy the store has the new root and no blob. -/
theorem checkpoint_torn :
    ¬ ∀ (codec : Codec UInt8) (geo : Geometry) (capacity : Nat) (start : Store UInt8)
      (events : List (Event UInt8)) (store : Store UInt8) (root : UInt8) (blob : Bytes),
      codec.Lawful → NarrowGeometry geo → format codec geo capacity = (some ⟨⟩, start) →
      run (step codec) events start = some store → store.epoch + 1 < 2 ^ 64 →
      Atomic codec store root blob := by
  intro all
  have ran : run (step fixed) checkpointing formatted = some checkpointed :=
    run_eq_reach (by decide +kernel)
  obtain ⟨previous, before, cuts⟩ := all fixed single (dataStart + 64) formatted checkpointing
    checkpointed 2 [4, 5] fixed_lawful single_narrow formatted_eq ran (by decide +kernel)
  have had : reload fixed (checkpointed.device.cut 0) = some (1, [1, 2, 3]) := by decide +kernel
  have torn : reload fixed ((stageCheckpoint fixed 2 [4, 5] checkpointed).2.device.cut 1) =
      some (2, []) := by decide +kernel
  rw [had] at before
  have one := cuts (by decide +kernel) 1
  rw [torn, ← before] at one
  revert one
  decide

/-- A checkpoint of the blob that the slot holds, under another root. -/
theorem atomic_repeated : Atomic fixed checkpointed 2 [1, 2, 3] := by
  have ran : run (step fixed) checkpointing formatted = some checkpointed :=
    run_eq_reach (by decide +kernel)
  exact (atomic_iff fixed_lawful single_narrow formatted formatted_eq checkpointing checkpointed ran
    (by decide +kernel) 2 [1, 2, 3] (by decide)).mpr
    ⟨by decide +kernel, .inr (.inl (by decide +kernel))⟩

end Examples
end LionFS.Cluster.Checkpoint
