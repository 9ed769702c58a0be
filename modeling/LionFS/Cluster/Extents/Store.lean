import LionFS.Data.Ranges
import LionFS.Data.Run
import Mathlib.Algebra.GroupWithZero.Nat

/-!
# The extent store

The zoned store of `store.rs`: extents are written into ranges on the free
lists first and at the zone cursors otherwise, and are recorded in the open
segment of their zone, which is closed when the next extent falls in another
segment. The cleaner rewrites the live extents of one closed segment and puts
what no recorded live extent covers of the segment on the free list.

Offsets and lengths are numbers; where the code casts to `u32` or computes in
it, the model reduces modulo `2 ^ 32`. The compressor is a parameter.
-/
namespace LionFS.Cluster.Extents
open Function (update)
open LionFS

/-- A string of bytes. -/
abbrev Bytes := List UInt8

/-- The cast `as u32`. -/
def u32 (number : Nat) : Nat := number % 2 ^ 32

/-- The outside compressor, `zstd::encode_all` and `zstd::decode_all`. -/
structure Zstd where
  /-- Compress, or fail. -/
  encode : Bytes → Option Bytes
  /-- Decompress, or fail. -/
  decode : Bytes → Option Bytes

/-- Decompressing gives back what was compressed. -/
def Zstd.Inverts (zstd : Zstd) : Prop :=
  ∀ data packed, zstd.encode data = some packed → zstd.decode packed = some data

/-- `CompressionType`. -/
inductive CompressionType where
  /-- Bytes stored as they are. -/
  | store
  /-- Bytes compressed. -/
  | zstd
  deriving DecidableEq, Repr

/-- `ExtentDescriptor`: where an extent lies and how it is stored. -/
structure ExtentDescriptor where
  zoneId : Nat
  offsetInZone : Nat
  length : Nat
  eccGroupId : Nat
  compressionType : CompressionType
  deriving DecidableEq, Repr

/-- The byte range of an extent in its zone. -/
def ExtentDescriptor.range (extent : ExtentDescriptor) : Nat × Nat :=
  (extent.offsetInZone, extent.offsetInZone + extent.length)

/-- `StoreGeometry`. A segment is not empty: the code divides by its size. -/
structure Geometry where
  zoneCount : Nat
  zoneSize : Nat
  segmentSize : Nat
  /-- The size divided by is positive. -/
  segment_pos : 0 < segmentSize

/-- `StoreGeometry::data_start`: three superblock copies, the zone map and the checkpoint area. -/
def dataStart : Nat := 3 * 4096 + 4096 + 8 * 1024 * 1024

/-- `StoreGeometry::zone_offset`. -/
def Geometry.zoneOffset (geo : Geometry) (zone : Nat) : Option Nat :=
  if geo.zoneCount ≤ zone then none else some (dataStart + zone * geo.zoneSize)

/-- `StoreGeometry::total_size`. -/
def Geometry.totalSize (geo : Geometry) : Nat := dataStart + geo.zoneCount * geo.zoneSize

/-- A byte device: what each address holds, and how long the device is. -/
structure Device where
  /-- The byte at an address. -/
  cell : Nat → UInt8
  len : Nat

/-- `InMemDevice::write`, which grows the device when needed. -/
def Device.write (device : Device) (offset : Nat) (data : Bytes) : Device where
  cell address :=
    if offset ≤ address ∧ address < offset + data.length then data.getD (address - offset) 0
    else device.cell address
  len := max device.len (offset + data.length)

/-- `FileDevice::write` inside the capacity, which stays. -/
def Device.overwrite (device : Device) (offset : Nat) (data : Bytes) : Device where
  cell := (device.write offset data).cell
  len := device.len

/-- `InMemDevice::read`. -/
def Device.read (device : Device) (offset length : Nat) : Option Bytes :=
  if device.len < offset + length then none
  else some ((List.range length).map fun index => device.cell (offset + index))

/-- `SegmentMeta`: a segment and the extents recorded in it, with their content hashes. -/
structure SegmentMeta (Hash : Type) where
  zoneId : Nat
  segmentIndex : Nat
  extents : List (ExtentDescriptor × Hash)

/-- Where a segment lies in its zone. -/
def SegmentMeta.bounds {Hash : Type} (segment : SegmentMeta Hash) (geo : Geometry) : Nat × Nat :=
  (segment.segmentIndex * geo.segmentSize, segment.segmentIndex * geo.segmentSize + geo.segmentSize)

/-- `Store`. -/
structure Store (Hash : Type) where
  device : Device
  geo : Geometry
  /-- `open_segments`, by zone. -/
  openSegments : Nat → Option (SegmentMeta Hash)
  closedSegments : List (SegmentMeta Hash)
  /-- `zone_cursors`, by zone. -/
  zoneCursors : Nat → Nat
  /-- `refcounts`; a hash that is not listed counts zero. -/
  refcounts : Hash → Nat
  /-- `free_lists`, by zone: offset and length of each range. -/
  freeLists : Nat → List (Nat × Nat)
  /-- `epoch`, which rotates the first zone tried. -/
  epoch : Nat

/-- `Store::format`, on a device at least as long as the geometry needs. -/
def format {Hash : Type} (geo : Geometry) : Store Hash where
  device := { cell := fun _ => 0, len := geo.totalSize }
  geo := geo
  openSegments := fun _ => none
  closedSegments := []
  zoneCursors := fun _ => 0
  refcounts := fun _ => 0
  freeLists := fun _ => []
  epoch := 1

/-- `fits_one_segment`, in `u32` arithmetic: the first and the last byte are in one segment. -/
def fitsOneSegment (segmentSize offset length : Nat) : Prop :=
  offset / segmentSize = u32 (offset + length + (2 ^ 32 - 1)) / segmentSize

instance (segmentSize offset length : Nat) :
    Decidable (fitsOneSegment segmentSize offset length) := by
  unfold fitsOneSegment
  infer_instance

/-- The first range of a free list that takes an extent: its offset, and the list without the
part taken. -/
def carve (segmentSize length : Nat) : List (Nat × Nat) → Option (Nat × List (Nat × Nat))
  | [] => none
  | range :: rest =>
    if length ≤ range.2 ∧ fitsOneSegment segmentSize range.1 length then
      some (range.1,
        if range.2 - length = 0 then rest
        else (u32 (range.1 + length), range.2 - length) :: rest)
    else
      match carve segmentSize length rest with
      | some (offset, left) => some (offset, range :: left)
      | none => none

/-- Where an extent goes in a zone with a cursor: at the cursor, or at the next segment when it
would straddle the boundary, if the zone has the room. -/
def place (geo : Geometry) (length cursor : Nat) : Option Nat :=
  if geo.zoneSize < cursor + length then none
  else if fitsOneSegment geo.segmentSize (u32 cursor) length then some cursor
  else if geo.zoneSize < (cursor / geo.segmentSize + 1) * geo.segmentSize + length then none
  else some ((cursor / geo.segmentSize + 1) * geo.segmentSize)

section Operations
variable {Hash : Type}
namespace Store
variable (store : Store Hash)

/-- The first free range, zone by zone, that takes an extent: the zone, the offset and the rest
of the zone's free list. -/
def takeFree (length : Nat) : Option (Nat × Nat × List (Nat × Nat)) :=
  (List.range store.geo.zoneCount).findSome? fun zone =>
    (carve store.geo.segmentSize length (store.freeLists zone)).map fun taken => (zone, taken)

/-- The first zone, from the one the epoch gives, whose cursor has room: the zone and the offset. -/
def takeFresh (length : Nat) : Option (Nat × Nat) :=
  (List.range store.geo.zoneCount).findSome? fun index =>
    let zone := (store.epoch + index) % 2 ^ 64 % store.geo.zoneCount
    (place store.geo length (store.zoneCursors zone)).map fun start => (zone, start)

/-- The allocation of `Store::write_extent`: zone and offset, and the store without that space. -/
def allocate (length : Nat) : Option (Nat × Nat × Store Hash) :=
  match store.takeFree length with
  | some (zone, offset, rest) =>
    some (zone, offset, { store with freeLists := update store.freeLists zone rest })
  | none =>
    match store.takeFresh length with
    | some (zone, start) =>
      some (zone, u32 (u32 (start + length) + 2 ^ 32 - length),
        { store with zoneCursors := update store.zoneCursors zone (start + length) })
    | none => none

/-- Track an extent in the open segment of its zone, closing the one that is open when it is
another segment. -/
def record (zone : Nat) (entry : ExtentDescriptor × Hash) : Store Hash :=
  let segmentIndex := entry.1.offsetInZone / store.geo.segmentSize
  match store.openSegments zone with
  | none =>
    { store with
      openSegments := update store.openSegments zone
        (some { zoneId := zone, segmentIndex := segmentIndex, extents := [entry] }) }
  | some segment =>
    if segmentIndex = segment.segmentIndex then
      { store with
        openSegments := update store.openSegments zone
          (some { segment with extents := segment.extents ++ [entry] }) }
    else
      { store with
        closedSegments := store.closedSegments ++ [segment]
        openSegments := update store.openSegments zone
          (some { zoneId := zone, segmentIndex := segmentIndex, extents := [entry] }) }

/-- `Store::read_extent`. -/
def readExtent (zstd : Zstd) (store : Store Hash) (extent : ExtentDescriptor) : Option Bytes :=
  match store.geo.zoneOffset extent.zoneId with
  | none => none
  | some base =>
    match store.device.read (base + extent.offsetInZone) extent.length with
    | none => none
    | some raw =>
      match extent.compressionType with
      | .store => some raw
      | .zstd => zstd.decode raw

/-- `Store::refcount`. -/
def refcount (hash : Hash) : Nat := store.refcounts hash

/-- `Store::refcount_add`: counts do not go below zero. -/
def refcountAdd [DecidableEq Hash] (store : Store Hash) (hash : Hash) (delta : Int) :
    Store Hash :=
  { store with
    refcounts := update store.refcounts hash
      (max ((store.refcounts hash : Int) + delta) 0).toNat }

end Store

/-- The bytes written for an extent and how they are stored: compressed when that is asked for
and makes them shorter. -/
def payloadOf (zstd : Zstd) (data : Bytes) (compress : Bool) : Bytes × CompressionType :=
  if compress then
    match zstd.encode data with
    | some packed => if packed.length < data.length then (packed, .zstd) else (data, .store)
    | none => (data, .store)
  else (data, .store)

/-- `Store::write_extent`. -/
def writeExtent (zstd : Zstd) (data : Bytes) (hash : Hash) (compress : Bool) :
    Run (Store Hash) ExtentDescriptor := fun store =>
  let payload := payloadOf zstd data compress
  let length := u32 payload.1.length
  match store.allocate length with
  | none => (none, store)
  | some (zone, offset, allocated) =>
    match store.geo.zoneOffset zone with
    | none => (none, allocated)
    | some base =>
      let extent : ExtentDescriptor :=
        { zoneId := zone
          offsetInZone := offset
          length := length
          eccGroupId := 0
          compressionType := payload.2 }
      (some extent,
        ({ allocated with
            device := allocated.device.write (base + offset) payload.1 }).record zone
          (extent, hash))

/-- `Vec::swap_remove`: the last element takes the place of the one removed. -/
def swapRemove {α : Type} (list : List α) (index : Nat) : List α :=
  match list.getLast? with
  | none => []
  | some last => (list.set index last).dropLast

/-- `CleanReport`. -/
structure CleanReport where
  extentsMoved : Nat
  bytesMoved : Nat
  bytesReclaimed : Nat

/-- How far the first loop of `Store::clean_segment` came. -/
structure Relocation (Hash : Type) where
  /-- The moves made. -/
  moves : List (Hash × ExtentDescriptor)
  /-- Whether it went through. -/
  complete : Bool
  /-- The store it left. -/
  store : Store Hash

/-- The first loop of `Store::clean_segment`: rewrite every live extent of a list. An extent of a
stripe, or one that cannot be read or rewritten, ends it. -/
def relocate (zstd : Zstd) : List (ExtentDescriptor × Hash) → Store Hash → Relocation Hash
  | [], store => { moves := [], complete := true, store := store }
  | entry :: rest, store =>
    if store.refcount entry.2 = 0 then relocate zstd rest store
    else if entry.1.eccGroupId ≠ 0 then { moves := [], complete := false, store := store }
    else
      match store.readExtent zstd entry.1 with
      | none => { moves := [], complete := false, store := store }
      | some data =>
        match writeExtent zstd data entry.2 false store with
        | (none, written) => { moves := [], complete := false, store := written }
        | (some moved, written) =>
          let later := relocate zstd rest written
          { later with moves := (entry.2, moved) :: later.moves }

namespace Store
variable (store : Store Hash)

/-- The segments whose live extents count as covered when one closed segment of a zone is
cleaned: the zone's open one and every other closed one. -/
def otherSegments (index zone : Nat) : List (SegmentMeta Hash) :=
  (store.openSegments zone).toList ++ store.closedSegments.eraseIdx index

/-- The parts of a segment that recorded live extents cover. -/
def liveRanges (index : Nat) (segment : SegmentMeta Hash) : List (Nat × Nat) :=
  let low := segment.segmentIndex * store.geo.segmentSize
  let high := low + store.geo.segmentSize
  ((store.otherSegments index segment.zoneId).flatMap SegmentMeta.extents).filterMap fun entry =>
    if store.refcount entry.2 = 0 then none
    else if low < entry.1.range.2 ∧ entry.1.range.1 < high then
      some (max entry.1.range.1 low, min entry.1.range.2 high)
    else none

/-- The parts of a segment that cleaning returns to the free list. -/
def deadRanges (index : Nat) (segment : SegmentMeta Hash) : List (Nat × Nat) :=
  let low := segment.segmentIndex * store.geo.segmentSize
  Ranges.complement low (low + store.geo.segmentSize) (store.liveRanges index segment)

/-- The rest of `Store::clean_segment`: free the dead ranges and drop the segment. -/
def reclaim (index : Nat) (segment : SegmentMeta Hash) : Store Hash :=
  { store with
    freeLists := update store.freeLists segment.zoneId
      (store.freeLists segment.zoneId ++
        (store.deadRanges index segment).map fun range => (u32 range.1, u32 (range.2 - range.1)))
    closedSegments := swapRemove store.closedSegments index }

end Store

/-- `Store::clean_segment`: when the rewriting fails, the moves made are not returned and nothing
is freed. -/
def cleanSegment (zstd : Zstd) (index : Nat) :
    Run (Store Hash) (CleanReport × List (Hash × ExtentDescriptor)) := fun store =>
  match store.closedSegments[index]? with
  | none => (none, store)
  | some segment =>
    let relocation := relocate zstd segment.extents store
    if relocation.complete then
      let live := segment.extents.filter fun entry => store.refcount entry.2 ≠ 0
      let dead := relocation.store.deadRanges index segment
      (some
        ({ extentsMoved := relocation.moves.length
           bytesMoved := (live.map fun entry => entry.1.length).sum
           bytesReclaimed := (dead.map fun range => range.2 - range.1).sum },
          relocation.moves),
        relocation.store.reclaim index segment)
    else (none, relocation.store)

/-- `StoreState`: what a checkpoint keeps of a store. -/
structure StoreState (Hash : Type) where
  zoneCursors : Nat → Nat
  closedSegments : List (SegmentMeta Hash)
  refcounts : Hash → Nat
  freeLists : Nat → List (Nat × Nat)

namespace Store
variable (store : Store Hash)

/-- `Store::state`. -/
def state : StoreState Hash where
  zoneCursors := store.zoneCursors
  closedSegments := store.closedSegments
  refcounts := store.refcounts
  freeLists := store.freeLists

/-- `Store::open` on the device of a store: the geometry and the epoch are read back from it. -/
def reopen : Store Hash :=
  { store with
    openSegments := fun _ => none
    closedSegments := []
    zoneCursors := fun _ => 0
    refcounts := fun _ => 0
    freeLists := fun _ => [] }

/-- `Store::restore`. -/
def restore (state : StoreState Hash) : Store Hash :=
  { store with
    zoneCursors := state.zoneCursors
    closedSegments := state.closedSegments
    refcounts := state.refcounts
    freeLists := state.freeLists }

/-- The extents recorded in the segments of a store. -/
def recorded : List (ExtentDescriptor × Hash) :=
  ((List.range store.geo.zoneCount).flatMap fun zone =>
      (store.openSegments zone).toList.flatMap SegmentMeta.extents) ++
    store.closedSegments.flatMap SegmentMeta.extents

end Store
end Operations
end LionFS.Cluster.Extents
