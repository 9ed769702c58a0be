import LionFS.Cluster.Checkpoint.Model
import LionFS.Cluster.Engine.Namespace
import LionFS.Cluster.Extents.Kept
import LionFS.Data.Table

/-!
# The cluster engine

The write, read, delete, collection, snapshot and recovery paths of `engine.rs`,
over the extent store, the dedup index, the log and the namespace. A file is
chunked, each new chunk is compressed, encrypted and staged in the store, the
list of the chunk hashes is stored the same way, and a version node with the hash
of the list is put in the namespace.

The store is carried with what is known of it, and `careful` records whether
every call so far met the conditions of the store. Commands that fail keep what
they did; indexing a missing chunk is a failure. Clock readings and the bytes of
a serialized checkpoint come with the calls.
-/
namespace LionFS.Cluster
open LionFS Extents Function Run Table
open Checkpoint (checkpointOffset framedWith)

/-- `WalMode`. -/
inductive WalMode where
  /-- Payloads are journaled. -/
  | full
  /-- Only metadata is journaled. -/
  | metadataOnly
  deriving DecidableEq, Repr

/-- The fields of `EngineConfig` that the paths modelled here read. -/
structure Config where
  walMode : WalMode
  /-- `ec.k`. -/
  dataShards : Nat
  /-- `ec.m`. -/
  parityShards : Nat
  /-- `gc_utilization_threshold`, as numerator and denominator. -/
  threshold : Nat × Nat

/-- `StoredChunk`: where a chunk is and the hash of its bytes on the device. -/
structure StoredChunk (Hash : Type) where
  desc : ExtentDescriptor
  stored : Hash
  deriving DecidableEq

/-- `EcGroup`. -/
structure EcGroup (Hash : Type) where
  shards : List Hash
  shardLen : Nat

/-- `WalRecord`, without the commit markers. -/
inductive WalRecord (Hash Name : Type) where
  | data (hash : Hash) (payload : Bytes)
  | vnode (node : VersionNode Hash)
  | dirMap (content : Hash) (children : ChildMap Hash Name)
  /-- A change of a count, with the place of the chunk. -/
  | refOp (hash : Hash) (delta : Int) (zone offset length : Nat) (stored : Hash)
  /-- A swap of the root. -/
  | headOp (root : Hash) (timestamp : Nat)
  | snapshotOp (name : Name) (root : Hash)

/-- `ClusterEngine`. -/
structure Engine (Hash Name : Type) where
  names : Namespace Hash Name
  /-- `store`, and what is known of it. -/
  store : Traced Hash
  /-- Whether every call of the store so far met its conditions. -/
  careful : Bool
  /-- The committed records of `wal`. -/
  wal : List (WalRecord Hash Name)
  /-- `dedup`: the reference counts of the index; an entry goes when its count reaches zero. -/
  dedup : Hash → Nat
  chunkMap : List (Hash × StoredChunk Hash)
  ecGroups : List (Nat × EcGroup Hash)
  nextEcGroup : Nat
  vclock : Nat

section Compression
variable {Hash Name : Type} (outside : Outside Hash Name)

/-- `zstd_compress`: a tag says whether what follows is compressed. -/
def compress (data : Bytes) : Bytes :=
  match outside.zstd.encode data with
  | some packed => if packed.length + 1 < data.length then 1 :: packed else 0 :: data
  | none => 0 :: data

/-- `zstd_decompress`. -/
def decompress : Bytes → Option Bytes
  | [] => none
  | tag :: rest =>
    if tag = 0 then some rest else if tag = 1 then outside.zstd.decode rest else none

/-- Compress and encrypt a chunk under its hash. -/
def wrap (hash : Hash) (data : Bytes) : Option Bytes :=
  outside.encrypt hash (compress outside data)

/-- `decrypt_decompress`. -/
def unwrap (hash : Hash) (payload : Bytes) : Option Bytes :=
  (outside.decrypt hash payload).bind (decompress outside)

end Compression

namespace Engine
variable {Hash Name : Type} [DecidableEq Hash] [LinearOrder Name]
  (outside : Outside Hash Name) (config : Config)

/-- `refcount` of the store. -/
def refcount (engine : Engine Hash Name) (hash : Hash) : Nat := engine.store.store.refcount hash

/-- The record of a change of a count. -/
def refRecord (hash : Hash) (delta : Int) (chunk : StoredChunk Hash) : WalRecord Hash Name :=
  .refOp hash delta chunk.desc.zoneId chunk.desc.offsetInZone chunk.desc.length chunk.stored

/-- `Store::refcount_add`. -/
def countAdd (engine : Engine Hash Name) (hash : Hash) (delta : Int) : Engine Hash Name :=
  { engine with
    store := engine.store.add hash delta
    careful := engine.careful && decide (engine.store.Careful (.add hash delta)) }

/-- Write a payload under a hash and enter it in the chunk map, in a stripe or in none. -/
def stage (group : Nat) (payload : Bytes) (hash : Hash) :
    Run (Engine Hash Name) (StoredChunk Hash) := fun engine =>
  let written : Engine Hash Name :=
    { engine with
      store := engine.store.write outside.zstd payload hash false
      careful := engine.careful &&
        decide (engine.store.Careful (.write payload hash false)) }
  match (writeExtent outside.zstd payload hash false engine.store.store).1 with
  | none => (none, written)
  | some extent =>
    let chunk : StoredChunk Hash :=
      { desc := { extent with eccGroupId := group }
        stored := outside.of payload }
    (some chunk, { written with chunkMap := insert hash chunk written.chunkMap })

/-- `DedupIndex::lookup` of an entry that is there. -/
def bump (engine : Engine Hash Name) (hash : Hash) : Engine Hash Name :=
  { engine with dedup := update engine.dedup hash (engine.dedup hash + 1) }

/-- Store a new chunk: stage it, count it, and enter it in the dedup index. -/
def storeNew (hash : Hash) (data : Bytes) :
    Run (Engine Hash Name) (List (WalRecord Hash Name)) := do
  match wrap outside hash data with
  | none => fail
  | some payload => do
    let chunk ← stage outside 0 payload hash
    modify fun engine =>
      let counted := engine.countAdd hash 1
      { counted with dedup := update counted.dedup hash 1 }
    let journaled := if config.walMode = .full then [WalRecord.data hash payload] else []
    pure (journaled ++ [refRecord hash 1 chunk])

/-- Take one more reference on a chunk that is stored. -/
def share (hash : Hash) : Run (Engine Hash Name) (List (WalRecord Hash Name)) := do
  modify fun engine => engine.countAdd hash 1
  let engine ← get
  match find hash engine.chunkMap with
  | none => fail
  | some chunk => pure [refRecord hash 1 chunk]

/-- The body of the chunk loop of `put`. -/
def putChunk (chunk : Bytes) : Run (Engine Hash Name) (List (WalRecord Hash Name)) := do
  let engine ← get
  if engine.dedup (outside.of chunk) = 0 then storeNew outside config (outside.of chunk) chunk
  else do
    modify fun engine => engine.bump (outside.of chunk)
    share (outside.of chunk)

/-- The chunk loop of `put`. -/
def putChunks : List Bytes → Run (Engine Hash Name) (List (WalRecord Hash Name))
  | [] => pure []
  | chunk :: rest => do
    let here ← putChunk outside config chunk
    let later ← putChunks rest
    pure (here ++ later)

/-- The meta chunk of `put`, which is looked up in the chunk map and not in the dedup index. -/
def putMeta (hashes : List Hash) : Run (Engine Hash Name) (List (WalRecord Hash Name)) := do
  let packed := outside.pack hashes
  let engine ← get
  match find (outside.of packed) engine.chunkMap with
  | none => storeNew outside config (outside.of packed) packed
  | some _ => do
    let records ← share (outside.of packed)
    modify fun engine =>
      if engine.dedup (outside.of packed) = 0 then engine else engine.bump (outside.of packed)
    pure records

/-- The records of the nodes made since the last drain. -/
def createdRecords (names : Namespace Hash Name) : List (WalRecord Hash Name) :=
  names.created.flatMap fun made =>
    .vnode made.1 :: (made.2.map (WalRecord.dirMap made.1.contentHash)).toList

/-- The end of `put` and of `delete`: put a version node in the namespace, swap the root, and
commit the records. A sync of the store writes a superblock. -/
def commitVersion (path : List Name) (node : VersionNode Hash)
    (records : List (WalRecord Hash Name)) (sync : Bool) : Run (Engine Hash Name) Hash := do
  modify fun engine =>
    { engine with
      vclock := engine.vclock + 1
      names := engine.names.putNode outside node }
  let root ← focus Engine.names (fun engine names => { engine with names := names })
    (Namespace.setPathAt outside path (outside.nodeHash node) node.timestamp)
  modify fun engine =>
    { engine with
      names := { engine.names with created := [] }
      store := { engine.store with
        store := { engine.store.store with
          epoch := if sync then engine.store.store.epoch + 1 else engine.store.store.epoch } }
      wal := engine.wal ++ records ++ [.vnode node] ++ createdRecords engine.names ++
        [.headOp root node.timestamp] }
  pure (outside.nodeHash node)

/-- The version node of a file that is put. -/
def fileNode (engine : Engine Hash Name) (path : List Name) (content : Hash) (timestamp : Nat) :
    VersionNode Hash where
  contentHash := content
  parents := (engine.names.resolve path).toList
  vclock := engine.vclock + 1
  timestamp := timestamp
  kind := .file

/-- `put`. -/
def put (path : List Name) (data : Bytes) (timestamp : Nat) : Run (Engine Hash Name) Hash := do
  let chunks := outside.chunk data
  let staged ← putChunks outside config chunks
  let hashes := chunks.map outside.of
  let listed ← putMeta outside config hashes
  let engine ← get
  commitVersion outside path
    (engine.fileNode path (outside.of (outside.pack hashes)) timestamp) (staged ++ listed)
    (config.walMode == .metadataOnly)

variable (engine : Engine Hash Name)

/-- `fetch_and_verify`. -/
def fetchAndVerify (chunk : StoredChunk Hash) : Option Bytes :=
  match engine.store.store.readExtent outside.zstd chunk.desc with
  | none => none
  | some payload =>
    if chunk.stored ≠ outside.zero ∧ outside.of payload ≠ chunk.stored then none
    else some payload

/-- `read_chunk`, of a chunk whose stored bytes pass their check. -/
def readChunk (hash : Hash) : Option Bytes :=
  match find hash engine.chunkMap with
  | none => none
  | some chunk =>
    match engine.fetchAndVerify outside chunk with
    | none => none
    | some payload =>
      match unwrap outside hash payload with
      | none => none
      | some plain => if outside.of plain = hash then some plain else none

/-- Read chunks one after the other. -/
def readChunks (engine : Engine Hash Name) : List Hash → Option Bytes
  | [] => some []
  | hash :: rest =>
    match engine.readChunk outside hash with
    | none => none
    | some plain => (engine.readChunks rest).map (plain ++ ·)

/-- `read_version`. -/
def readVersion (head : Hash) : Option Bytes :=
  match engine.names.repo head with
  | none => none
  | some node =>
    if node.kind = .tombstone then none
    else
      match engine.readChunk outside node.contentHash with
      | none => none
      | some packed =>
        match outside.unpack packed with
        | none => none
        | some hashes => engine.readChunks outside hashes

/-- `get`. -/
def get (path : List Name) : Option Bytes :=
  (engine.names.resolveNewest path).bind (engine.readVersion outside)

/-- Release one reference on a chunk. -/
def release (hash : Hash) : Run (Engine Hash Name) (List (WalRecord Hash Name)) := do
  modify fun engine =>
    let counted := engine.countAdd hash (-1)
    { counted with dedup := update counted.dedup hash (counted.dedup hash - 1) }
  let engine ← Run.get
  match find hash engine.chunkMap with
  | none => fail
  | some chunk => pure [refRecord hash (-1) chunk]

/-- Release references one after the other. -/
def releaseAll : List Hash → Run (Engine Hash Name) (List (WalRecord Hash Name))
  | [] => pure []
  | hash :: rest => do
    let here ← release hash
    let later ← releaseAll rest
    pure (here ++ later)

/-- The references that `delete` releases: those of a file, its chunks and then its list. -/
def releaseVersion (node : VersionNode Hash) :
    Run (Engine Hash Name) (List (WalRecord Hash Name)) := do
  if node.kind = .file then
    let engine ← Run.get
    match (engine.readChunk outside node.contentHash).bind outside.unpack with
    | none => fail
    | some hashes => releaseAll (hashes ++ [node.contentHash])
  else pure []

/-- The deletion marker over a version. -/
def tombstone (engine : Engine Hash Name) (parent : Hash) (node : VersionNode Hash)
    (timestamp : Nat) : VersionNode Hash where
  contentHash := node.contentHash
  parents := [parent]
  vclock := engine.vclock + 1
  timestamp := timestamp
  kind := .tombstone

/-- `delete`. -/
def delete (path : List Name) (timestamp : Nat) : Run (Engine Hash Name) Hash := do
  let engine ← Run.get
  match engine.names.resolve path with
  | none => Run.fail
  | some parent =>
    match engine.names.repo parent with
    | none => fail
    | some node => do
      let released ← releaseVersion outside node
      let engine ← Run.get
      commitVersion outside path (engine.tombstone parent node timestamp) released false

/-- What a checkpoint leaves that goes through: its frame, of whatever length, at the start of the
checkpoint area, a superblock of the next epoch and an empty log. It is careful to end before the
zones. -/
def checkpointed (frame : Bytes) (engine : Engine Hash Name) : Engine Hash Name :=
  { engine with
    store := { engine.store with
      store := { engine.store.store with
        device := engine.store.store.device.overwrite checkpointOffset frame
        epoch := engine.store.store.epoch + 1 } }
    careful := engine.careful && decide (checkpointOffset + frame.length ≤ dataStart)
    wal := [] }

/-- `checkpoint`, given its blob. A frame that ends past the capacity is refused. -/
def checkpoint (blob : Bytes) : Run (Engine Hash Name) PUnit := fun engine =>
  let frame := framedWith outside.crc blob
  if engine.store.store.geo.totalSize < checkpointOffset + frame.length then (none, engine)
  else (some ⟨⟩, engine.checkpointed frame)

/-- `SegmentInfo`: recorded and live bytes of a closed segment. -/
structure SegmentInfo where
  /-- `seg_idx`. -/
  index : Nat
  /-- `total_bytes`. -/
  total : Nat
  /-- `live_bytes`. -/
  live : Nat
  /-- `has_ec_extents`. -/
  striped : Bool

/-- `segment_infos`. -/
def segmentInfos (store : Store Hash) : List SegmentInfo :=
  store.closedSegments.zipIdx.map fun item =>
    { index := item.2
      total := (item.1.extents.map fun entry => entry.1.length).sum
      live := ((item.1.extents.filter fun entry => store.refcount entry.2 ≠ 0).map
        fun entry => entry.1.length).sum
      striped := item.1.extents.any fun entry => entry.1.eccGroupId ≠ 0 }

/-- The segment that `gc` cleans next: the least live one below the threshold. -/
def bestSegment (store : Store Hash) : Option SegmentInfo :=
  (segmentInfos store).foldl (fun best info =>
    if info.striped ∨ info.total = 0 ∨
        config.threshold.1 * info.total ≤ info.live * config.threshold.2 then best
    else
      match best with
      | none => some info
      | some before =>
        if info.live * before.total < before.live * info.total then some info else best) none

/-- Point the chunk map at the places chunks were moved to, keeping their stripes. -/
def relink (moves : List (Hash × ExtentDescriptor)) (chunkMap : List (Hash × StoredChunk Hash)) :
    List (Hash × StoredChunk Hash) :=
  moves.foldl (fun chunkMap move =>
    match find move.1 chunkMap with
    | none => chunkMap
    | some chunk =>
      insert move.1
        { chunk with desc := { move.2 with eccGroupId := chunk.desc.eccGroupId } } chunkMap)
    chunkMap

/-- One pass of the loop of `gc`: clean a segment and point the chunk map at the new places. -/
def cleanOne (index : Nat) : Run (Engine Hash Name) PUnit := fun engine =>
  let cleaned : Engine Hash Name :=
    { engine with
      store := engine.store.clean outside.zstd index
      careful := engine.careful &&
        decide (engine.store.Careful (.clean index)) }
  match (cleanSegment outside.zstd index engine.store.store).1 with
  | none => (none, cleaned)
  | some (_, moves) => (some ⟨⟩, { cleaned with chunkMap := relink moves cleaned.chunkMap })

/-- The loop of `gc`, given the segments it picks. It is not a run of the code when the code picks
others. A cleaning that fails ends it. -/
def cleanAll : List Nat → Engine Hash Name → Option (Option Unit × Engine Hash Name)
  | [], engine =>
    if (bestSegment config engine.store.store).isNone then some (some (), engine) else none
  | index :: rest, engine =>
    if (bestSegment config engine.store.store).map SegmentInfo.index = some index then
      match cleanOne outside index engine with
      | (some _, cleaned) => cleanAll rest cleaned
      | (none, cleaned) => if rest = [] then some (none, cleaned) else none
    else none

/-- The sweep of `gc`: chunks that count zero leave the chunk map. -/
def sweep (engine : Engine Hash Name) : Engine Hash Name :=
  { engine with
    chunkMap := keep (fun hash => decide (engine.refcount hash ≠ 0)) engine.chunkMap }

/-- `gc`, given the segments it picks and the blobs of its checkpoints. -/
def gc (picks : List Nat) (blobs : Bytes × Bytes) (engine : Engine Hash Name) :
    Option (Option PUnit × Engine Hash Name) :=
  match checkpoint outside blobs.1 engine with
  | (none, failed) => some (none, failed)
  | (some _, saved) =>
    match cleanAll outside config picks saved with
    | none => none
    | some (none, failed) => some (none, failed)
    | some (some _, cleaned) =>
      if picks = [] then some (some ⟨⟩, cleaned.sweep)
      else some (checkpoint outside blobs.2 cleaned.sweep)

/-- `snapshot`. -/
def snapshot (name : Name) (engine : Engine Hash Name) : Engine Hash Name :=
  { engine with
    names := engine.names.snapshot name
    wal := engine.wal ++ [.snapshotOp name engine.names.rootHead] }

/-- `restore`. -/
def restore (name : Name) : Run (Engine Hash Name) Hash := do
  let root ← focus Engine.names (fun engine names => { engine with names := names })
    (Namespace.restore name)
  let engine ← Run.get
  match engine.names.repo root with
  | none => fail
  | some node => do
    Run.modify fun engine => { engine with wal := engine.wal ++ [.headOp root node.timestamp] }
    pure root

/-- `Vec::resize` with zeros. -/
def resize (length : Nat) (bytes : Bytes) : Bytes :=
  bytes.take length ++ List.replicate (length - bytes.length) 0

/-- Fetch the shards of a group. -/
def fetchAll (engine : Engine Hash Name) : List Hash → Option (List Bytes)
  | [] => some []
  | hash :: rest =>
    match (find hash engine.chunkMap).bind (engine.fetchAndVerify outside) with
    | none => none
    | some payload => (engine.fetchAll rest).map (payload :: ·)

/-- Enter chunks of the chunk map in a stripe. -/
def joinGroup (group : Nat) (members : List Hash) (chunkMap : List (Hash × StoredChunk Hash)) :
    List (Hash × StoredChunk Hash) :=
  members.foldl (fun chunkMap hash =>
    match find hash chunkMap with
    | none => chunkMap
    | some chunk =>
      insert hash { chunk with desc := { chunk.desc with eccGroupId := group } } chunkMap)
    chunkMap

/-- Store the parity shards of a group, which are live data too. -/
def storeParity (group : Nat) : List Bytes → Run (Engine Hash Name) (List Hash)
  | [] => pure []
  | shard :: rest => do
    let _ ← stage outside group shard (outside.of shard)
    modify fun engine => engine.countAdd (outside.of shard) 1
    let later ← storeParity group rest
    pure (outside.of shard :: later)

/-- The body of the loop of `encode_ec_groups`. -/
def encodeGroup (members : List Hash) : Run (Engine Hash Name) PUnit := do
  let engine ← Run.get
  let lengths := members.filterMap fun hash =>
    (find hash engine.chunkMap).map fun chunk => chunk.desc.length
  let shardLen := lengths.foldl max 0
  match engine.fetchAll outside members with
  | none => Run.fail
  | some shards =>
    match outside.parity (shards.map (resize shardLen)) with
    | none => Run.fail
    | some parity => do
      let group := engine.nextEcGroup
      modify fun engine =>
        { engine with
          nextEcGroup := (group + 1) % 256
          chunkMap := joinGroup group members engine.chunkMap }
      let hashes ← storeParity outside group parity
      modify fun engine =>
        { engine with
          ecGroups := insert group { shards := members ++ hashes, shardLen := shardLen }
            engine.ecGroups }

/-- The chunks that `encode_ec_groups` may put in a group: counted, and in no group yet. -/
def candidate (hash : Hash) : Bool :=
  (find hash engine.chunkMap).isSome && engine.refcount hash ≠ 0 &&
    !(engine.ecGroups.any fun group => (group.2.shards.take config.dataShards).contains hash)

/-- `encode_ec_groups`, given the groups in the order in which the chunk map is walked. Without
parity shards there is no codec. -/
def encodeEcGroups (groups : List (List Hash)) : Run (Engine Hash Name) PUnit :=
  if config.parityShards = 0 then pure ⟨⟩ else Run.each groups (encodeGroup outside)

/-- An operation of the engine. -/
inductive Op (Hash Name : Type) where
  | put (path : List Name) (data : Bytes) (timestamp : Nat)
  | delete (path : List Name) (timestamp : Nat)
  | snapshot (name : Name)
  | restore (name : Name)
  /-- `checkpoint`, with its blob. -/
  | checkpoint (blob : Bytes)
  /-- `gc`, with the segments it picks and the blobs of its checkpoints. -/
  | gc (picks : List Nat) (blobs : Bytes × Bytes)
  /-- `encode_ec_groups`, with the groups it makes. -/
  | encode (groups : List (List Hash))

/-- The machine of the engine: every operation, whether it returns or fails. -/
def step : Op Hash Name → Option (Engine Hash Name)
  | .put path data timestamp => some (put outside config path data timestamp engine).2
  | .delete path timestamp => some (delete outside path timestamp engine).2
  | .snapshot name => some (engine.snapshot name)
  | .restore name => some (restore name engine).2
  | .checkpoint blob => some (checkpoint outside blob engine).2
  | .gc picks blobs => (gc outside config picks blobs engine).map Prod.snd
  | .encode groups =>
    if groups.flatten.Nodup ∧
        ∀ members ∈ groups, members.length = config.dataShards ∧
          ∀ hash ∈ members, engine.candidate config hash then
      some (encodeEcGroups outside config groups engine).2
    else none

/-- `ClusterEngine::create`, on a geometry. -/
def create (geo : Geometry) : Engine Hash Name where
  names := Namespace.fresh outside 1000000000
  store := Traced.start geo
  careful := true
  wal := []
  dedup := fun _ => 0
  chunkMap := []
  ecGroups := []
  nextEcGroup := 0
  vclock := 1

/-- `apply_wal_record`. -/
def applyWalRecord (record : WalRecord Hash Name) : Run (Engine Hash Name) PUnit :=
  match record with
  | .data hash payload => do
    let engine ← Run.get
    match find hash engine.chunkMap with
    | some _ => pure ⟨⟩
    | none => do
      let _ ← stage outside 0 payload hash
      pure ⟨⟩
  | .vnode node =>
    modify fun engine => { engine with names := engine.names.putNode outside node }
  | .dirMap content children =>
    modify fun engine => { engine with names := engine.names.registerDir content children }
  | .refOp hash delta zone offset length stored =>
    modify fun engine =>
      let chunkMap :=
        match find hash engine.chunkMap with
        | some _ => engine.chunkMap
        | none =>
          insert hash
            { desc :=
                { zoneId := zone
                  offsetInZone := offset
                  length := length
                  eccGroupId := 0
                  compressionType := .store }
              stored := stored } engine.chunkMap
      let counted := ({ engine with chunkMap := chunkMap }).countAdd hash delta
      { counted with
        dedup := update counted.dedup hash
          (if 0 < delta then counted.dedup hash + 1
            else if delta < 0 then counted.dedup hash - 1 else counted.dedup hash) }
  | .headOp root timestamp =>
    modify fun engine =>
      { engine with names := engine.names.setRootFromRecovery root timestamp }
  | .snapshotOp name root =>
    modify fun engine => { engine with names := engine.names.snapshotFromRecovery name root }

/-- `Store::bump_cursors_past`. -/
def bumpCursorsPast (extents : List ExtentDescriptor) (store : Store Hash) : Store Hash :=
  extents.foldl (fun store extent =>
    if extent.zoneId < store.geo.zoneCount then
      { store with
        zoneCursors := update store.zoneCursors extent.zoneId
          (max (store.zoneCursors extent.zoneId) (extent.offsetInZone + extent.length)) }
    else store) store

/-- `mount`, from the checkpoint that an engine made durable and the log it left: load the
checkpoint, replay the log, move the cursors past the chunks if anything was replayed, and
checkpoint again. -/
def remount (blob again : Bytes) : Run (Engine Hash Name) PUnit := do
  modify fun engine =>
    let durable := (engine.checkpointed (framedWith outside.crc blob)).store
    { engine with
      names := { engine.names with created := [] }
      store := { durable with store := durable.store.reopen.restore engine.store.store.state } }
  let engine ← Run.get
  Run.each engine.wal (applyWalRecord outside)
  modify fun engine =>
    if engine.wal.isEmpty then engine
    else
      { engine with
        store := { engine.store with
          store := bumpCursorsPast (engine.chunkMap.map fun binding => binding.2.desc)
            engine.store.store } }
  checkpoint outside again

end Engine
end LionFS.Cluster
