import LionFS.Journal.Commit
import LionFS.Data.Assoc

/-!
# Replaying the journal

`RecoveryManager::recover` scans the journal area block by block from its start.
A block that passes the header check is followed as a record; a record whose
blocks and footer all check out inside the area is remembered under its
transaction id, the first one scanned winning. The records above the superblock
generation are then replayed, but only the run of consecutive ids that ends at
the highest one.
-/
namespace LionFS.Journal
variable (checksum : Block → UInt32)

/-- The header check: the magic and the checksum of the block read as a header. -/
def headerValid (block : Block) : Bool :=
  let header := JournalHeader.read block
  header.magic == journalMagic &&
    checksum { header with checksum := 0 }.toBlock == header.checksum

/-- The footer check: the magic, the id of the header, and the checksum of the block read
as a footer. -/
def footerValid (id : UInt64) (block : Block) : Bool :=
  let footer := JournalFooter.read block
  footer.magic == journalMagic && footer.txId == id &&
    checksum { footer with checksum := 0 }.toBlock == footer.checksum

/-- The entry loop of `recover`: read the given number of entries, or give up at the end of
the area or at a checksum mismatch. Returns the entries and the block after them. -/
def readEntries (disk : Disk) (sb : Superblock) :
    (count temp : Nat) → Option (List (Nat × Block) × Nat)
  | 0, temp => some ([], temp)
  | count + 1, temp =>
    if temp ≥ sb.journalBlocks then none
    else
      let header := JournalRecordHeader.read (disk (sb.journalStart + temp))
      if temp + 1 ≥ sb.journalBlocks then none
      else
        let data := disk (sb.journalStart + (temp + 1))
        if checksum data ≠ header.checksum then none
        else match readEntries disk sb count (temp + 2) with
          | none => none
          | some (entries, after) => some ((header.physicalBlock.toNat, data) :: entries, after)

/-- The record that starts at a block of the area, if one does: its id, its entries and
the position of its footer. -/
def readRecord (disk : Disk) (sb : Superblock) (current : Nat) :
    Option (Nat × List (Nat × Block) × Nat) :=
  let block := disk (sb.journalStart + current)
  if headerValid checksum block then
    let header := JournalHeader.read block
    match readEntries checksum disk sb header.entryCount.toNat (current + 1) with
    | none => none
    | some (entries, temp) =>
      if temp < sb.journalBlocks ∧
          footerValid checksum header.txId (disk (sb.journalStart + temp)) then
        some (header.txId.toNat, entries, temp)
      else none
  else none

/-- The scan of the journal area: the records found, in scan order. The fuel is the number
of blocks not yet scanned. -/
def scan (disk : Disk) (sb : Superblock) : (fuel current : Nat) → List (Nat × List (Nat × Block))
  | 0, _ => []
  | fuel + 1, current =>
    if current < sb.journalBlocks then
      match readRecord checksum disk sb current with
      | some (id, entries, temp) => (id, entries) :: scan disk sb fuel (temp + 1)
      | none => scan disk sb fuel (current + 1)
    else []

/-- `tx_to_replay`: the found records by ascending id, the first one scanned winning. -/
def txToReplay (found : List (Nat × List (Nat × Block))) : List (Nat × List (Nat × Block)) :=
  found.foldl (fun table record => Assoc.orInsert record.1 record.2 table) []

/-- `cutoff`: the first index of the run of consecutive ids that ends at the given index. -/
def cutoff (ids : List Nat) : Nat → Nat
  | 0 => 0
  | index + 1 =>
    if ids.getD index 0 + 1 = ids.getD (index + 1) 0 then cutoff ids index else index + 1

/-- `replay_ids`: the ids above the generation, cut to the consecutive run that ends at the
highest one. -/
def replayIds (sb : Superblock) (table : List (Nat × List (Nat × Block))) : List Nat :=
  let ids := (table.map Prod.fst).filter fun id => id > sb.generation
  ids.drop (cutoff ids (ids.length - 1))

/-- The writes of the replay, in id order. -/
def replayWrites (sb : Superblock) (table : List (Nat × List (Nat × Block))) :
    List (Nat × Block) :=
  (replayIds sb table).flatMap fun id => (Assoc.find id table).getD []

/-- `highest_tx`: the highest id found, at least the generation. -/
def highestTx (sb : Superblock) (found : List (Nat × List (Nat × Block))) : Nat :=
  found.foldl (fun highest record => max highest record.1) sb.generation

/-- `RecoveryManager::recover`: the device after the replay, and the highest id found. -/
def recover (disk : Disk) (sb : Superblock) : Disk × Nat :=
  if sb.journalBlocks = 0 then (disk, 0)
  else
    let found := scan checksum disk sb sb.journalBlocks 0
    (Writes.apply (replayWrites sb (txToReplay found)) disk, highestTx sb found)

end LionFS.Journal
