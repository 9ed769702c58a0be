import LionFS.Cluster.Extents.Store
import LionFS.Data.Words

/-!
# Checkpoints on a file device

The superblock copies, the checkpoint slot and the file device of `store.rs`. A
write goes to the overlay of the device, and `sync` writes the overlay to the file
in order of the offsets. A checkpoint puts its blob in the one slot, behind the
three superblock copies, so a power cut in `sync` leaves the new superblock over
the old blob.
-/
namespace LionFS.Cluster.Checkpoint
open LionFS Extents Words

/-- `FileDevice`: the bytes of the file, which is as long as the capacity, and the writes since
the last `sync`. -/
structure FileDevice where
  file : Device
  overlay : List (Nat × Bytes)

/-- Writes in order. -/
def flush (writes : List (Nat × Bytes)) (file : Device) : Device :=
  writes.foldl (fun file write => file.write write.1 write.2) file

/-- `FileDevice::write`: entries that the write covers go. -/
def FileDevice.write (offset : Nat) (data : Bytes) : Run FileDevice PUnit := fun device =>
  if device.file.len < offset + data.length then (none, device)
  else
    (some ⟨⟩,
      { device with
        overlay := (device.overlay.filter fun entry =>
          ¬ (offset ≤ entry.1 ∧ entry.1 + entry.2.length ≤ offset + data.length)) ++
            [(offset, data)] })

/-- `FileDevice::read`. -/
def FileDevice.read (device : FileDevice) (offset length : Nat) : Option Bytes :=
  (flush device.overlay device.file).read offset length

/-- The order in which `sync` writes: by offset. -/
def FileDevice.syncOrder (device : FileDevice) : List (Nat × Bytes) :=
  device.overlay.insertionSort fun first second => first.1 ≤ second.1

/-- `FileDevice::sync`. -/
def FileDevice.sync (device : FileDevice) : FileDevice where
  file := flush device.syncOrder device.file
  overlay := []

/-- A power cut after some writes of `sync`. -/
def FileDevice.cut (device : FileDevice) (count : Nat) : FileDevice where
  file := flush (device.syncOrder.take count) device.file
  overlay := []

/-- `CheckpointRef`. -/
structure CheckpointRef where
  offset : Nat
  len : Nat
  crc : UInt32
  deriving DecidableEq

/-- `Superblock`. -/
structure Superblock (Hash : Type) where
  magic : Nat
  version : Nat
  epoch : Nat
  root : Hash
  checkpoint : CheckpointRef
  deriving DecidableEq

/-- The fields of a reference are in their widths. -/
def CheckpointRef.Narrow (ref : CheckpointRef) : Prop := ref.offset < 2 ^ 64 ∧ ref.len < 2 ^ 32

/-- The fields of a superblock are in their widths. -/
structure Superblock.Narrow {Hash : Type} (sb : Superblock Hash) : Prop where
  magic : sb.magic < 2 ^ 32
  version : sb.version < 2 ^ 32
  epoch : sb.epoch < 2 ^ 64
  checkpoint : sb.checkpoint.Narrow

/-- The fields of a geometry are in their widths. -/
structure NarrowGeometry (geo : Geometry) : Prop where
  zoneCount : geo.zoneCount < 2 ^ 32
  zoneSize : geo.zoneSize < 2 ^ 64
  segmentSize : geo.segmentSize < 2 ^ 32

/-- `SB_MAGIC`. -/
def sbMagic : Nat := 0x48465331

/-- What the checkpoint path takes from `bincode`, `crc32fast` and the hash. -/
structure Codec (Hash : Type) where
  /-- `bincode::serialize` of a superblock. -/
  serialize : Superblock Hash → Bytes
  /-- `bincode::deserialize` of a superblock. -/
  deserialize : Bytes → Option (Superblock Hash)
  /-- `bincode::serialize` of a geometry. -/
  serializeGeometry : Geometry → Bytes
  /-- `bincode::deserialize` of a geometry. -/
  deserializeGeometry : Bytes → Option Geometry
  /-- `crc32fast::hash`. -/
  crc : Bytes → UInt32
  zero : Hash

/-- What was serialized is read back, and fits in its block behind the header. -/
structure Codec.Lawful {Hash : Type} (codec : Codec Hash) : Prop where
  superblock : ∀ sb, sb.Narrow → codec.deserialize (codec.serialize sb) = some sb
  superblock_fits : ∀ sb, (codec.serialize sb).length ≤ 4096 - 16
  geometry : ∀ geo, NarrowGeometry geo →
    codec.deserializeGeometry (codec.serializeGeometry geo) = some geo
  geometry_fits : ∀ geo, (codec.serializeGeometry geo).length ≤ 4096 - 8

/-- The fields of `Store` that checkpoints read and write. -/
structure Store (Hash : Type) where
  device : FileDevice
  geo : Geometry
  epoch : Nat
  root : Hash
  checkpoint : CheckpointRef

/-- `StoreGeometry::checkpoint_offset`. -/
def checkpointOffset : Nat := 3 * 4096 + 4096

/-- `StoreGeometry::checkpoint_area_size`. -/
def checkpointAreaSize : Nat := 8 * 1024 * 1024

/-- A body behind its length and its checksum. -/
def framedWith (crc : Bytes → UInt32) (body : Bytes) : Bytes :=
  encodeBig 4 body.length ++ encodeBig 4 (crc body).toNat ++ body

variable {Hash : Type} (codec : Codec Hash)
section Writing

/-- A body in a frame, with the checksum of the store. -/
def framed (body : Bytes) : Bytes := framedWith codec.crc body

/-- The bytes of a superblock copy: length, checksum, epoch, body. -/
def sbFrame (sb : Superblock Hash) : Bytes :=
  encodeBig 4 (codec.serialize sb).length ++
    encodeBig 4 (codec.crc (codec.serialize sb)).toNat ++ encodeBig 8 sb.epoch ++
      codec.serialize sb

/-- A write to the device of a store. -/
def onDevice (offset : Nat) (data : Bytes) : Run (Store Hash) PUnit :=
  Run.focus Store.device (fun store device => { store with device := device })
    (FileDevice.write offset data)

/-- `write_geometry`. -/
def writeGeometry : Run (Store Hash) PUnit := do
  let store ← Run.get
  onDevice (3 * 4096) (framed codec (codec.serializeGeometry store.geo))

/-- `write_sb_copy`. -/
def writeSbCopy (index : Nat) (sb : Superblock Hash) : Run (Store Hash) PUnit :=
  onDevice (index * 4096) (sbFrame codec sb)

/-- The superblock that a store writes. -/
def superblock (store : Store Hash) : Superblock Hash where
  magic := sbMagic
  version := 1
  epoch := store.epoch
  root := store.root
  checkpoint := store.checkpoint

variable (root : Hash)

/-- `write_superblock` up to its `sync`. -/
def stageSuperblock (ref : CheckpointRef) : Run (Store Hash) PUnit := do
  Run.modify fun store =>
    { store with
      epoch := store.epoch + 1
      root := root
      checkpoint := ref }
  let store ← Run.get
  Run.each [0, 1, 2] fun index => writeSbCopy codec index (superblock store)

/-- `Store::sync` of the device. -/
def syncDevice : Run (Store Hash) PUnit :=
  Run.modify fun store => { store with device := store.device.sync }

/-- `write_superblock`. -/
def writeSuperblock (ref : CheckpointRef) : Run (Store Hash) PUnit := do
  stageSuperblock codec root ref
  syncDevice

/-- `write_checkpoint_blob`. -/
def writeCheckpointBlob (blob : Bytes) : Run (Store Hash) CheckpointRef := do
  onDevice checkpointOffset (framed codec blob)
  pure
    { offset := checkpointOffset
      len := u32 blob.length
      crc := codec.crc blob }

/-- `checkpoint` up to its `sync`. -/
def stageCheckpoint (blob : Bytes) : Run (Store Hash) PUnit := do
  let ref ← writeCheckpointBlob codec blob
  stageSuperblock codec root ref

/-- `checkpoint`. -/
def checkpoint (blob : Bytes) : Run (Store Hash) PUnit := do
  stageCheckpoint codec root blob
  syncDevice

/-- `checkpoint_noop`. -/
def checkpointNoop : Run (Store Hash) PUnit := do
  let store ← Run.get
  writeSuperblock codec root store.checkpoint

/-- `CheckpointRef::default`. -/
def noCheckpoint : CheckpointRef where
  offset := 0
  len := 0
  crc := 0

/-- `FileDevice::create` and `Store::format`: the device is grown to the geometry. -/
def format (geo : Geometry) (capacity : Nat) : Option PUnit × Store Hash :=
  let blank : Store Hash :=
    { device := { file := { cell := fun _ => 0, len := capacity }, overlay := [] }
      geo := geo
      epoch := 0
      root := codec.zero
      checkpoint := noCheckpoint }
  (do
    onDevice (geo.totalSize - 1) [0]
    writeGeometry codec
    writeSuperblock codec codec.zero noCheckpoint : Run (Store Hash) PUnit) blank

end Writing

section Reading

/-- What `read_sb_copy` makes of the bytes of a copy. -/
def parseSbCopy (raw : Bytes) : Option (Superblock Hash) :=
  if raw.length < 16 then none
  else
    let len := decodeBig (raw.take 4)
    let crc := decodeBig ((raw.drop 4).take 4)
    let body := (raw.drop 16).take len
    if raw.length < 16 + len then none
    else if (codec.crc body).toNat ≠ crc then none
    else (codec.deserialize body).filter fun sb => sb.magic = sbMagic

variable (device : FileDevice)

/-- `read_sb_copy`. -/
def readSbCopy (index : Nat) : Option (Superblock Hash) :=
  (device.read (index * 4096) 4096).bind (parseSbCopy codec)

/-- What `read_geometry` makes of the bytes of the zone map. A segment size of zero is not a
geometry here. -/
def parseGeometry (raw : Bytes) : Option Geometry :=
  if raw.length < 8 then none
  else
    let len := decodeBig (raw.take 4)
    let crc := decodeBig ((raw.drop 4).take 4)
    let body := (raw.drop 8).take len
    if raw.length < 8 + len then none
    else if (codec.crc body).toNat ≠ crc then none
    else (codec.deserializeGeometry body).filter fun geo => geo.zoneCount ≠ 0 ∧ geo.zoneSize ≠ 0

/-- `read_geometry`. -/
def readGeometry : Option Geometry :=
  (device.read (3 * 4096) 4096).bind (parseGeometry codec)

/-- `max_by_key` of the epoch: the last of the greatest. -/
def newest (copies : List (Superblock Hash)) : Option (Superblock Hash) :=
  copies.foldl (fun best sb =>
    match best with
    | none => some sb
    | some before => if before.epoch ≤ sb.epoch then some sb else some before) none

/-- `Store::open`. -/
def openStore : Option (Store Hash) :=
  match newest ((List.range 3).filterMap (readSbCopy codec device)) with
  | none => none
  | some sb => (readGeometry codec device).map fun geo =>
      { device := device
        geo := geo
        epoch := sb.epoch
        root := sb.root
        checkpoint := sb.checkpoint }

/-- `load_checkpoint`. -/
def loadCheckpoint (store : Store Hash) : Hash × Bytes :=
  (store.root,
    if 0 < store.checkpoint.len then
      ((store.device.read (store.checkpoint.offset + 8) store.checkpoint.len).filter fun blob =>
        codec.crc blob = store.checkpoint.crc).getD []
    else [])

/-- `Store::open` followed by `load_checkpoint`. -/
def reload : Option (Hash × Bytes) :=
  (openStore codec device).map (loadCheckpoint codec)

end Reading

section Machine

/-- What happens to a store. -/
inductive Event (Hash : Type) where
  /-- An extent is written to a data zone. -/
  | extent (offset : Nat) (data : Bytes)
  /-- `checkpoint` to its end. -/
  | checkpoint (root : Hash) (blob : Bytes)
  /-- `checkpoint_noop` to its end. -/
  | noop (root : Hash)
  /-- A power cut after some writes of the `sync` of `checkpoint`, and `open`. -/
  | crash (root : Hash) (blob : Bytes) (count : Nat)

/-- The machine of a store: every call, whether it returns or fails. The epoch does not
overflow. -/
def step (store : Store Hash) : Event Hash → Option (Store Hash)
  | .extent offset data => if dataStart ≤ offset then some (onDevice offset data store).2 else none
  | .checkpoint root blob =>
    if store.epoch + 1 < 2 ^ 64 then some (checkpoint codec root blob store).2 else none
  | .noop root =>
    if store.epoch + 1 < 2 ^ 64 then some (checkpointNoop codec root store).2 else none
  | .crash root blob count =>
    if store.epoch + 1 < 2 ^ 64 then
      openStore codec ((stageCheckpoint codec root blob store).2.device.cut count)
    else none

/-- A checkpoint is atomic: whatever writes of its `sync` a power cut leaves, the store is opened
with the root and the blob it had, or with the new ones. -/
def Atomic (store : Store Hash) (root : Hash) (blob : Bytes) : Prop :=
  ∃ previous, reload codec (store.device.cut 0) = some previous ∧
    ((stageCheckpoint codec root blob store).1.isSome → ∀ count,
      reload codec ((stageCheckpoint codec root blob store).2.device.cut count) = some previous ∨
        reload codec ((stageCheckpoint codec root blob store).2.device.cut count) =
          some (root, blob))

end Machine
end LionFS.Cluster.Checkpoint
