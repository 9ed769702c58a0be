import LionFS.File.Work

/-!
# Writing and reading a file

`write_file`, `write_file_runs` and `read_file` of `file::writer` for inodes that
are neither compressed nor encrypted. The data is cut at block boundaries. For
each piece the block is looked up, moved when it is pinned or belongs to a
snapshot, or found for the first time: shared with a block of equal content when
dedup is on, else allocated, for an appending call all at once. A piece shorter
than a block is merged with what the block holds on disk. `write_file` records
the checksum of each block as it goes, `write_file_runs` at its end.
-/
namespace LionFS.File
open Assoc Run Allocator
variable {τ : Type} (trees : ExtentTrees τ) (outside : Outside τ)

/-- A piece of a call's data that falls into one block. -/
structure Chunk where
  logicalBlock : Nat
  blockOffset : Nat
  dataPos : Nat
  /-- `chunk_size`. -/
  size : Nat
deriving DecidableEq

/-- The pieces of the data from `dataPos` on, which goes to `currentOffset`. -/
def chunksFrom (length : Nat) : (fuel dataPos currentOffset : Nat) → List Chunk
  | 0, _, _ => []
  | fuel + 1, dataPos, currentOffset =>
    if dataPos < length then
      let blockOffset := currentOffset % blockSize
      let size := min (blockSize - blockOffset) (length - dataPos)
      ⟨currentOffset / blockSize, blockOffset, dataPos, size⟩ ::
        chunksFrom length fuel (dataPos + size) (currentOffset + size)
    else []

/-- The pieces that the loops of `write_file` and `read_file` go through. -/
def chunks (offset length : Nat) : List Chunk := chunksFrom length length 0 offset

/-- A block of zeros. -/
def zeroPage : Page := fun _ => 0

/-- A page with a piece of data copied into it. -/
def overwrite (page : Page) (data : Slice) (chunk : Chunk) : Page := fun index =>
  if chunk.blockOffset ≤ index ∧ index < chunk.blockOffset + chunk.size then
    data.byte (chunk.dataPos + (index - chunk.blockOffset))
  else page index

/-- The checksum record of a block of the inode. -/
def Work.record (work : Work τ) (logicalBlock : Nat) : Option ChecksumTreeValue :=
  work.disk.checksums.bind (find (checksumKey work.inode.ino logicalBlock))

/-- `birth_protected`, but for the test that the block is not pinned. -/
def Work.birthProtected (work : Work τ) (logicalBlock physicalBlock : Nat) : Bool :=
  let barrier := trees.cowBarrier work.disk.spill
  decide (0 < barrier) &&
    match work.record logicalBlock with
    | some value => decide (value.physicalBlock = physicalBlock ∧ value.generation ≤ barrier)
    | none => false

/-- The block may not be written in place. -/
def Work.redirects (work : Work τ) (logicalBlock physicalBlock : Nat) : Bool :=
  decide (physicalBlock ≠ 0) &&
    (work.disk.pinned physicalBlock || work.birthProtected trees logicalBlock physicalBlock)

/-- Write a block. -/
def writeBlock (block : Nat) (page : Page) : Run (Work τ) PUnit := modify fun work =>
  { work with disk := { work.disk with blocks := Function.update work.disk.blocks block page } }

/-- `add_extent` on the inode of the call. -/
def mapExtent (added : Extent) : Run (Work τ) PUnit := do
  growTrees allocateExtentsMeta
  let work ← get
  let inode ← onTrees (addExtent trees work.inode added)
  modify fun work => { work with inode := inode }

/-- The redirection of a block that may not be written in place: a fresh block gets its content
and its mapping. -/
def redirect (logicalBlock physicalBlock : Nat) : Run (Work τ) Nat := do
  let work ← get
  if work.redirects trees logicalBlock physicalBlock then do
    let newBlock ← onBits (allocateExtents 1)
    writeBlock newBlock (work.disk.blocks physicalBlock)
    growTrees allocateExtents
    let inode ← onTrees (remapBlock trees work.inode logicalBlock newBlock)
    modify fun work => { work with inode := inode }
    pure newBlock
  else pure physicalBlock

/-- `increment_ref` of the dedup index. -/
def incrementRef (hash : Nat) (record : DedupeRecord) : Run (Work τ) PUnit := do
  growTrees allocateExtentsMeta
  modify fun work => { work with disk := { work.disk with
    dedupe := work.disk.dedupe.map
      (insert hash { record with refCount := record.refCount + 1 }) } }

/-- Pin a block that is shared, unless it is pinned already. -/
def pinShared (block : Nat) : Run (Work τ) PUnit := do
  let work ← get
  match work.disk.coverage with
  | none => pure ⟨⟩
  | some runs =>
    if Integrity.coverageAt runs block = 0 then do
      growTrees allocateExtentsMeta
      modify fun work => { work with disk := { work.disk with
        coverage := some (Integrity.pinRange runs block 1) } }
    else pure ⟨⟩

/-- The record of the dedup index that a hole may share for a piece of data: a whole block is
written and the block of the record still has the hash. -/
def Work.shareable (work : Work τ) (data : Slice) (chunk : Chunk) : Option DedupeRecord :=
  if chunk.blockOffset = 0 ∧ chunk.size = blockSize then
    let hash := outside.hash (overwrite zeroPage data chunk)
    (work.disk.dedupe.bind (find hash)).filter fun record =>
      decide (outside.hash (work.disk.blocks record.physicalBlock) = hash)
  else none

/-- The dedup probe: map a hole to a block of equal content. It returns the block and what it
holds. -/
def share (data : Slice) (chunk : Chunk) : Run (Work τ) (Option (Nat × Page)) := do
  let work ← get
  match work.shareable outside data chunk with
  | none => pure none
  | some record => do
    mapExtent trees ⟨chunk.logicalBlock, record.physicalBlock, 1⟩
    incrementRef (outside.hash (overwrite zeroPage data chunk)) record
    pinShared record.physicalBlock
    pure (some (record.physicalBlock, work.disk.blocks record.physicalBlock))

/-- `size_for_request` of whole blocks that look sequential. -/
def sizeForRequest (blocks : Nat) : Nat := blocks + max (blocks / 4) 1

/-- The allocation for a hole. An appending call takes all blocks up to its last one. It returns
the block and the next `locality_hint`. -/
def fillHole (lastBlock : Option Nat) (localityHint : Option Nat) (logicalBlock : Nat) :
    Run (Work τ) (Nat × Option Nat) :=
  match lastBlock with
  | some lastBlock => do
    let mark := lastBlock - logicalBlock + 1
    let block ← onBits (allocateExtentsReserved (max (sizeForRequest mark) mark) mark
      localityHint)
    mapExtent trees ⟨logicalBlock, block, mark⟩
    pure (block, some (block + mark))
  | none => do
    let block ← onBits <|
      match localityHint with
      | some hint => allocateExtentsHinted 1 hint
      | none => allocateExtents 1
    mapExtent trees ⟨logicalBlock, block, 1⟩
    pure (block, some (block + 1))

/-- A whole block that was written enters the dedup index, when its content is new there. -/
def indexBlock (chunk : Chunk) (block : Nat) (page : Page) : Run (Work τ) PUnit := do
  let work ← get
  match work.disk.dedupe with
  | none => pure ⟨⟩
  | some index =>
    if chunk.size = blockSize ∧ chunk.blockOffset = 0 ∧
        find (outside.hash page) index = none then do
      growTrees allocateExtentsMeta
      modify fun work => { work with disk := { work.disk with
        dedupe := some (insert (outside.hash page) ⟨block, 1⟩ index) } }
    else pure ⟨⟩

/-- What a block holds when a piece of data is written to it. -/
def Work.merged (work : Work τ) (data : Slice) (chunk : Chunk) (block : Nat) : Page :=
  overwrite (if chunk.size < blockSize then work.disk.blocks block else zeroPage) data chunk

/-- Write a piece of data to its block. It returns what the block then holds. -/
def writeChunk (data : Slice) (chunk : Chunk) (block : Nat) : Run (Work τ) Page := do
  let work ← get
  let page := work.merged data chunk block
  writeBlock block page
  indexBlock outside chunk block page
  pure page

/-- Where a piece of data went. -/
structure Placed where
  /-- The physical block. -/
  block : Nat
  /-- What it holds. -/
  page : Page
  /-- The next `locality_hint`. -/
  localityHint : Option Nat

/-- `get_physical_block(..).unwrap_or(0)`. -/
def lookupBlock (logicalBlock : Nat) : Run (Work τ) Nat := do
  let work ← get
  let found ← attempt (onTrees (getPhysicalBlock trees work.inode logicalBlock))
  pure (found.getD 0)

/-- The loop body of `write_file` and `write_file_runs` behind the lookup, up to the checksum. -/
def placeFound (lastBlock : Option Nat) (data : Slice) (localityHint : Option Nat)
    (chunk : Chunk) (found : Nat) : Run (Work τ) Placed := do
  let block ← redirect trees chunk.logicalBlock found
  if block = 0 then do
    let shared ← share trees outside data chunk
    match shared with
    | some (block, probe) => pure ⟨block, probe, localityHint⟩
    | none => do
      let (block, localityHint) ← fillHole trees lastBlock localityHint chunk.logicalBlock
      let page ← writeChunk outside data chunk block
      pure ⟨block, page, localityHint⟩
  else do
    let page ← writeChunk outside data chunk block
    pure ⟨block, page, localityHint⟩

/-- The loop body of `write_file` and `write_file_runs`, up to the checksum. -/
def placeChunk (lastBlock : Option Nat) (data : Slice) (localityHint : Option Nat)
    (chunk : Chunk) : Run (Work τ) Placed := do
  let found ← lookupBlock trees chunk.logicalBlock
  placeFound trees outside lastBlock data localityHint chunk found

/-- `store_block_checksum`. -/
def storeBlockChecksum (logicalBlock block : Nat) (page : Page) : Run (Work τ) PUnit := do
  let work ← get
  match work.disk.checksums with
  | none => pure ⟨⟩
  | some records => do
    let generation ← onTrees trees.nodeGenStamp
    growTrees allocateExtentsMeta
    modify fun work => { work with disk := { work.disk with
      checksums := some (insert (checksumKey work.inode.ino logicalBlock)
        ⟨block, outside.digest page, generation⟩ records) } }

/-- The loop of `write_file`. -/
def writeChunks (lastBlock : Option Nat) (data : Slice) :
    (localityHint : Option Nat) → List Chunk → Run (Work τ) PUnit
  | _, [] => pure ⟨⟩
  | localityHint, chunk :: rest => do
    let placed ← placeChunk trees outside lastBlock data localityHint chunk
    storeBlockChecksum trees outside chunk.logicalBlock placed.block placed.page
    writeChunks lastBlock data placed.localityHint rest

/-- `last_physical_end`: behind the inline extents. -/
def Inode.lastPhysicalEnd (inode : Inode) : Option Nat :=
  inode.extents.foldl (fun last extent =>
    some (match last with
      | some current => max current extent.physicalEnd
      | none => extent.physicalEnd)) none

/-- The last block of an appending call. -/
def Inode.appendBlock (inode : Inode) (offset : Nat) (data : Slice) : Option Nat :=
  if data.length ≠ 0 ∧ offset = inode.size then
    some ((offset + data.length - 1) / blockSize)
  else none

/-- The inode's size reaches the end of what was written. -/
def extendSize (written : Nat) : Run (Work τ) PUnit := modify fun work =>
  if work.inode.size < written then { work with inode := { work.inode with size := written } }
  else work

/-- `write_file`. -/
def writeFile (offset : Nat) (data : Slice) : Run (Work τ) PUnit := do
  let work ← get
  if work.inode.compressionAlgo ≠ 0 then outside.writeFileCluster offset data
  else do
    writeChunks trees outside (work.inode.appendBlock offset data) data work.inode.lastPhysicalEnd
      (chunks offset data.length)
    extendSize (offset + data.length)

/-- `deferred_csums`: where each block went and what it holds, by logical block. -/
abbrev Deferred := List (Nat × (Nat × Page))

/-- The loop of `write_file_runs` over one run. -/
def deferChunks (lastBlock : Option Nat) (data : Slice) :
    (localityHint : Option Nat) → (deferred : Deferred) → List Chunk →
      Run (Work τ) (Option Nat × Deferred)
  | localityHint, deferred, [] => pure (localityHint, deferred)
  | localityHint, deferred, chunk :: rest => do
    let placed ← placeChunk trees outside lastBlock data localityHint chunk
    deferChunks lastBlock data placed.localityHint
      (insert chunk.logicalBlock (placed.block, placed.page) deferred) rest

/-- The loop of `write_file_runs` over its runs. -/
def deferRuns : (localityHint : Option Nat) → (deferred : Deferred) → List (Nat × Slice) →
    Run (Work τ) Deferred
  | _, deferred, [] => pure deferred
  | localityHint, deferred, (startBlock, data) :: rest => do
    let work ← get
    let offset := startBlock * blockSize
    let (localityHint, deferred) ← deferChunks trees outside (work.inode.appendBlock offset data)
      data localityHint deferred (chunks offset data.length)
    extendSize (offset + data.length)
    deferRuns localityHint deferred rest

/-- `write_file_runs`. -/
def writeFileRuns (runs : List (Nat × Slice)) : Run (Work τ) PUnit := do
  let work ← get
  if runs = [] then pure ⟨⟩
  else if work.inode.compressionAlgo ≠ 0 then
    each runs fun run => writeFile trees outside (run.1 * blockSize) run.2
  else do
    let deferred ← deferRuns trees outside work.inode.lastPhysicalEnd [] runs
    each deferred fun binding =>
      storeBlockChecksum trees outside binding.1 binding.2.1 binding.2.2

/-- The record of a block, if there is one, has the digest of what the block holds. -/
def Work.verifies (work : Work τ) (logicalBlock block : Nat) : Bool :=
  match work.record logicalBlock with
  | some value => decide (outside.digest (work.disk.blocks block) = value.checksumBytes)
  | none => true

/-- The result of a read with the bytes of one more block. -/
def gather (result : Page) (page : Page) (chunk : Chunk) : Page := fun index =>
  if chunk.dataPos ≤ index ∧ index < chunk.dataPos + chunk.size then
    page (chunk.blockOffset + (index - chunk.dataPos))
  else result index

/-- The loop of `read_file`. A block whose checksum does not match is an error. -/
def readChunks : (result : Page) → List Chunk → Run (Work τ) Page
  | result, [] => pure result
  | result, chunk :: rest => do
    let work ← get
    let block ← onTrees (getPhysicalBlock trees work.inode chunk.logicalBlock)
    if block = 0 then readChunks result rest
    else if work.verifies outside chunk.logicalBlock block then
      readChunks (gather result (work.disk.blocks block) chunk) rest
    else fail

/-- `read_file`. -/
def readFile (offset size : Nat) : Run (Work τ) Slice := do
  let work ← get
  if work.inode.size ≤ offset then pure ⟨0, zeroPage⟩
  else if work.inode.compressionAlgo ≠ 0 then outside.readFileCluster offset size
  else do
    let readSize := min size (work.inode.size - offset)
    let result ← readChunks trees outside zeroPage (chunks offset readSize)
    pure ⟨readSize, result⟩

end LionFS.File
