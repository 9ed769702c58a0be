import LionFS.Journal.Format

/-!
# Committing a transaction

`TransactionManager::commit` writes the dirty blocks of a transaction into the
journal ring as records of at most `max_records` blocks, syncs the device, then
writes the same blocks to their final locations and syncs again. The device
writes are listed per sync: every write of one list is durable once the sync
after it returned, and any part of it may be lost by a crash before.

The checksum is the `crc32fast` crate's; it is a parameter here.
-/
namespace LionFS.Journal

/-- The superblock fields that the journal reads. -/
structure Superblock where
  /-- First block of the journal area. -/
  journalStart : Nat
  /-- Length of the journal area. -/
  journalBlocks : Nat
  /-- Highest transaction id known to be applied. -/
  generation : Nat

/-- A transaction with its dirty blocks, listed by ascending block number. -/
structure Transaction where
  /-- Transaction id. -/
  id : Nat
  /-- Time of the transaction. -/
  timestamp : Nat
  /-- Block numbers and their new contents. -/
  dirtyBlocks : List (Nat × Block)
  /-- A block is dirty once, and the listing is sorted. -/
  sorted : (dirtyBlocks.map Prod.fst).Pairwise (· < ·)
  /-- Block numbers are double words. -/
  inRange : ∀ entry ∈ dirtyBlocks, entry.1 < 2 ^ 64

/-- `TransactionManager`. -/
structure TransactionManager where
  /-- Next id to hand out. -/
  currentTxId : Nat
  /-- Where the next record starts, relative to the journal area. -/
  nextJournalBlock : Nat

variable (checksum : Block → UInt32)

/-- The header block of one record, with its checksum filled in. -/
def headerBlock (id timestamp count : Nat) : JournalHeader :=
  let header : JournalHeader :=
    { magic := journalMagic, version := 1, entryCount := .ofNat count, txId := .ofNat id
      timestamp := .ofNat timestamp, checksum := 0, paddingCsum := 0, padding := zeroPadding 40 }
  { header with checksum := checksum header.toBlock }

/-- The record header written before one journaled block. -/
def recordHeader (id : Nat) (entry : Nat × Block) : JournalRecordHeader :=
  { txId := .ofNat id, physicalBlock := .ofNat entry.1, checksum := checksum entry.2
    padding := 0, padding2 := zeroPadding 24 }

/-- The footer block of one record, with its checksum filled in. -/
def footerBlock (id count : Nat) : JournalFooter :=
  let footer : JournalFooter :=
    { magic := journalMagic, txId := .ofNat id, totalRecords := .ofNat count, checksum := 0
      padding := zeroPadding 24 }
  { footer with checksum := checksum footer.toBlock }

/-- The journaled blocks of a record, each behind its record header. -/
def entryBlocks (id : Nat) (chunk : List (Nat × Block)) : List Block :=
  chunk.flatMap fun entry => [(recordHeader checksum id entry).toBlock, entry.2]

/-- `journal_payload`: one record as it is written to the journal. -/
def journalPayload (id timestamp : Nat) (chunk : List (Nat × Block)) : List Block :=
  (headerBlock checksum id timestamp chunk.length).toBlock ::
    (entryBlocks checksum id chunk ++ [(footerBlock checksum id chunk.length).toBlock])

/-- `write_contiguous_run`: consecutive blocks from a start. -/
def writeContiguousRun (start : Nat) : List Block → List (Nat × Block)
  | [] => []
  | block :: rest => (start, block) :: writeContiguousRun (start + 1) rest

/-- `max_records`: how many blocks one record may hold. -/
def maxRecords (sb : Superblock) : Nat :=
  if sb.journalBlocks > 2 then (sb.journalBlocks - 2) / 2 else 1

/-- `total_journal_blocks`, computed in 32 bits. -/
def totalJournalBlocks (count : Nat) : Nat := (2 * count + 2) % 2 ^ 32

/-- The journal writes of one record: one run, or two when it wraps. -/
def recordWrites (sb : Superblock) (current total : Nat) (payload : List Block) :
    List (Nat × Block) :=
  let startIdx := current % sb.journalBlocks
  let blocksToEnd := sb.journalBlocks - startIdx
  if total ≤ blocksToEnd then writeContiguousRun (sb.journalStart + startIdx) payload
  else writeContiguousRun (sb.journalStart + startIdx) (payload.take blocksToEnd) ++
    writeContiguousRun sb.journalStart (payload.drop blocksToEnd)

/-- The chunk loop of `commit`: the journal writes, and where the next record starts. -/
def chunkWrites (sb : Superblock) (id timestamp : Nat) :
    (current : Nat) → List (List (Nat × Block)) → List (Nat × Block) × Nat
  | current, [] => ([], current)
  | current, chunk :: rest =>
    let total := totalJournalBlocks chunk.length
    if sb.journalBlocks > 0 then
      let later := chunkWrites sb id timestamp (current + total) rest
      (recordWrites sb current total (journalPayload checksum id timestamp chunk) ++ later.1,
        later.2)
    else chunkWrites sb id timestamp current rest

/-- `slice::chunks`: consecutive pieces of the given size, the last one possibly shorter.
The fuel is the number of entries; every piece takes at least one. -/
def chunks (size : Nat) : (fuel : Nat) → List (Nat × Block) → List (List (Nat × Block))
  | 0, _ => []
  | _, [] => []
  | fuel + 1, entry :: rest =>
    (entry :: rest).take size :: chunks size fuel ((entry :: rest).drop size)

/-- The length of the leading run of consecutive block numbers after `last`. -/
def runLength (last : Nat) : List (Nat × Block) → Nat
  | [] => 0
  | entry :: rest => if entry.1 = last + 1 then runLength entry.1 rest + 1 else 0

/-- The apply loop of `commit`: consecutive blocks are written as one run. The fuel is the
number of entries; every run takes at least one. -/
def applyWrites : (fuel : Nat) → List (Nat × Block) → List (Nat × Block)
  | 0, _ => []
  | _, [] => []
  | fuel + 1, entry :: rest =>
    let count := runLength entry.1 rest
    writeContiguousRun entry.1 ((entry :: rest.take count).map Prod.snd) ++
      applyWrites fuel (rest.drop count)

/-- `TransactionManager::commit`: the device writes between syncs, and the next manager. -/
def TransactionManager.commit (manager : TransactionManager) (sb : Superblock)
    (tx : Transaction) : List (List (Nat × Block)) × TransactionManager :=
  if tx.dirtyBlocks.isEmpty then ([], manager)
  else
    let written := chunkWrites checksum sb tx.id tx.timestamp manager.nextJournalBlock
      (chunks (maxRecords sb) tx.dirtyBlocks.length tx.dirtyBlocks)
    let next := if sb.journalBlocks > 0 then written.2 % sb.journalBlocks
      else manager.nextJournalBlock
    ([written.1, applyWrites tx.dirtyBlocks.length tx.dirtyBlocks],
      { manager with nextJournalBlock := next })

end LionFS.Journal
