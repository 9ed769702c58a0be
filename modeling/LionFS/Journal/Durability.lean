import LionFS.Journal.Effect

/-!
# No acknowledged transaction is reverted

A run commits transactions one after the other. After each commit the home
blocks hold the outcome of every transaction so far, so recovery is right
exactly when the replay changes nothing: the writes it repeats must be the last
ones of the history. `Ring` shows this as long as every record ends inside the
journal area. A record that straddles the end is never found again, and the
replay of the records before it puts old contents back.
-/
namespace LionFS.Journal
open List Nat Words Writes
variable (checksum : Block → UInt32)

/-- The device and the manager after committing transactions one after the other. -/
def commitAll (sb : Superblock) : Disk × TransactionManager → List Transaction →
    Disk × TransactionManager
  | state, [] => state
  | state, tx :: rest =>
    let done := state.2.commit checksum sb tx
    commitAll sb (apply done.1.flatten state.1, done.2) rest

/-- A block outside the journal area. -/
def Outside (sb : Superblock) (address : Nat) : Prop :=
  address < sb.journalStart ∨ sb.journalStart + sb.journalBlocks ≤ address

/-- What a transaction's callers guarantee: its id comes from the counter, its blocks lie
outside the journal, and the checksum tells its records' blocks apart. -/
structure Transaction.Admissible (sb : Superblock) (tx : Transaction) : Prop where
  fresh : sb.generation < tx.id
  /-- The id counter is below the magic number. -/
  belowMagic : tx.id < journalMagic.toNat
  home : ∀ entry ∈ tx.dirtyBlocks, Outside sb entry.1
  /-- The blocks of its records are not taken for others. -/
  sums : ∀ record ∈ tx.records sb, record.Unambiguous checksum sb

/-- No record of the run straddles the end of the journal area. -/
def runFits (sb : Superblock) : TransactionManager → List Transaction → Prop
  | _, [] => True
  | manager, tx :: rest =>
    recordsFit sb manager.nextJournalBlock (tx.records sb) ∧
      runFits sb (manager.commit checksum sb tx).2 rest

/-- The journal is a ring of records with ids below the bound, whose writes the home blocks
already hold. -/
def Consistent (sb : Superblock) (state : Disk × TransactionManager) (bound : Nat) : Prop :=
  ∃ ring : Ring checksum sb, ring.blocks = area sb state.1 ∧
    ring.next % sb.journalBlocks = state.2.nextJournalBlock % sb.journalBlocks ∧
    Writes.Settled ring.writes state.1 ∧ (∀ write ∈ ring.writes, Outside sb write.1) ∧
    ∀ record ∈ ring.records, record.id < bound

variable {checksum} {sb : Superblock} {state : Disk × TransactionManager} {bound : Nat}
  {disk : Disk}

/-- Recovery of a consistent device changes nothing. -/
theorem Consistent.recover (ok : Consistent checksum sb state bound) :
    (recover checksum state.1 sb).1 = state.1 := by
  obtain ⟨ring, blocks, _, settled, _, _⟩ := ok
  obtain ⟨remnant, kind, scanned⟩ := ring.scan
  rw [blocks] at scanned
  have result : scan checksum state.1 sb sb.journalBlocks 0 = ring.found remnant :=
    scan_of_Scan scanned sb.journalBlocks 0 rfl (length_area sb state.1).le
  have last : replayWrites sb (txToReplay (ring.found remnant)) <:+ ring.writes := by
    rcases kind with own | ⟨lost, old, low⟩
    · exact ring.replay own sb
    · have same : ring.found remnant = ring.found [] ++ remnant := by
        simp [Ledger.found, old]
      rw [same, replayWrites_stale sb _ low]
      exact ring.replay (.inl rfl) sb
  unfold Journal.recover
  split
  · rfl
  · simp only [result]
    exact (settled.suffix last).apply_eq

/-- A journal that holds records of earlier mounts only, none of them before the next position,
is consistent. -/
theorem Consistent.formatted (manager : TransactionManager) (pos : 0 < sb.journalBlocks)
    (unreadable : ∀ block ∈ (area sb disk).take (manager.nextJournalBlock % sb.journalBlocks),
      headerValid checksum block = false)
    (known : Stale checksum sb
      ((area sb disk).drop (manager.nextJournalBlock % sb.journalBlocks))) :
    Consistent checksum sb (disk, manager) 0 := by
  refine ⟨Ring.empty (area sb disk) (manager.nextJournalBlock % sb.journalBlocks)
    (length_area sb disk) unreadable known, ?_, ?_, ?_, ?_, ?_⟩
  · simp [Ring.blocks, Ring.empty]
  · have mem := mod_lt manager.nextJournalBlock pos
    simp [Ring.next, Ring.empty, min_eq_left mem.le]
  · intro addr content found
    simp [Ledger.writes, Ledger.records, Ring.empty, last?] at found
  · simp [Ledger.writes, Ledger.records, Ring.empty]
  · simp [Ledger.records, Ring.empty]

variable {tx : Transaction}

theorem Transaction.Admissible.sound (admissible : tx.Admissible checksum sb)
    (long : 4 ≤ sb.journalBlocks) {chunk : List (Nat × Block)}
    (mem : chunk ∈ chunks (maxRecords sb) tx.dirtyBlocks.length tx.dirtyBlocks)
    (small : 2 * chunk.length + 2 < 2 ^ 32) :
    Record.Sound checksum sb ⟨tx.id, tx.timestamp, chunk⟩ := by
  obtain ⟨flat, bounded, _⟩ := chunks_spec (maxRecords_bounds long).1 tx.dirtyBlocks.length
    tx.dirtyBlocks le_rfl
  have inside : ∀ entry ∈ chunk, entry ∈ tx.dirtyBlocks := by
    intro entry own
    rw [← flat]
    exact mem_flatten.mpr ⟨chunk, mem, own⟩
  exact { fresh := admissible.fresh
          belowMagic := admissible.belowMagic
          bounded := (bounded chunk mem).2
          small := small
          inRange := fun entry own => tx.inRange entry (inside entry own)
          sums := admissible.sums _ (mem_map.mpr ⟨chunk, mem, rfl⟩) }

theorem commit_writes (manager : TransactionManager) (sb : Superblock) (tx : Transaction) :
    (manager.commit checksum sb tx).1.flatten =
      (chunkWrites checksum sb tx.id tx.timestamp manager.nextJournalBlock
        (chunks (maxRecords sb) tx.dirtyBlocks.length tx.dirtyBlocks)).1 ++ tx.dirtyBlocks := by
  unfold TransactionManager.commit
  by_cases clean : tx.dirtyBlocks = []
  · simp [clean, chunks, chunkWrites]
  · simp [clean, applyWrites_eq]

theorem journal_inside {spot : Nat} (long : 4 ≤ sb.journalBlocks)
    (fits : recordsFit sb spot (tx.records sb)) :
    ∀ write ∈ (chunkWrites checksum sb tx.id tx.timestamp spot
      (chunks (maxRecords sb) tx.dirtyBlocks.length tx.dirtyBlocks)).1, ¬Outside sb write.1 := by
  obtain ⟨pos, room, _⟩ := maxRecords_bounds long
  obtain ⟨_, bounded, _⟩ := chunks_spec pos tx.dirtyBlocks.length tx.dirtyBlocks le_rfl
  intro write mem outside
  have bounds := mem_chunkWrites
    (fun chunk inside => by
      have small := (bounded chunk inside).2
      omega)
    (fun chunk inside => recordsFit_small fits _ (mem_map.mpr ⟨chunk, inside, rfl⟩)) mem
  unfold Outside at outside
  omega

theorem Consistent.commit {manager : TransactionManager}
    (ok : Consistent checksum sb (disk, manager) bound) (long : 4 ≤ sb.journalBlocks)
    (newer : bound ≤ tx.id) (admissible : tx.Admissible checksum sb)
    (fits : recordsFit sb manager.nextJournalBlock (tx.records sb)) :
    Consistent checksum sb (apply (manager.commit checksum sb tx).1.flatten disk,
        (manager.commit checksum sb tx).2) (tx.id + 1) ∧
      ∀ addr, Outside sb addr →
        apply (manager.commit checksum sb tx).1.flatten disk addr =
          apply tx.dirtyBlocks disk addr := by
  obtain ⟨ring, blocks, spot, settled, home, below⟩ := ok
  obtain ⟨pos, room, most⟩ := maxRecords_bounds long
  obtain ⟨flat, bounded, full⟩ := chunks_spec pos tx.dirtyBlocks.length tx.dirtyBlocks le_rfl
  have words : ∀ chunk ∈ chunks (maxRecords sb) tx.dirtyBlocks.length tx.dirtyBlocks,
      2 * chunk.length + 2 < 2 ^ 32 := fun chunk mem =>
    recordsFit_small fits _ (mem_map.mpr ⟨chunk, mem, rfl⟩)
  have inside := @journal_inside checksum sb tx manager.nextJournalBlock long fits
  obtain ⟨ring', blocks', position', tail⟩ := ring.writeChunks tx.id tx.timestamp _ (by omega)
    (fun chunk mem => admissible.sound long mem (words chunk mem))
    (fun earlier mem chunk _ => Or.inl (lt_of_lt_of_le (below earlier mem) newer))
    (full.imp fun same => by omega) fits blocks spot
  have journal : ∀ addr, Outside sb addr → apply (chunkWrites checksum sb tx.id
      tx.timestamp manager.nextJournalBlock (chunks (maxRecords sb) tx.dirtyBlocks.length
      tx.dirtyBlocks)).1 disk addr = disk addr := fun addr outside =>
    apply_of_not_mem (fun write mem same => inside write mem (same ▸ outside)) disk
  have entries : ring'.writes <:+ ring.writes ++ tx.dirtyBlocks := by
    have suffix := Ledger.writes_suffix tail
    rwa [flatMap_append, flatMap_map, flatMap_id', flat] at suffix
  rw [commit_writes, apply_append]
  refine ⟨⟨ring', ?_, ?_, ?_, ?_, ?_⟩, ?_⟩
  · rw [blocks']
    exact (area_frame sb _ admissible.home).symm
  · rw [position']
    unfold TransactionManager.commit
    by_cases clean : tx.dirtyBlocks = []
    · simp [clean, chunks, chunkWrites]
    · simp [clean, show 0 < sb.journalBlocks by omega]
  · refine ((settled.frame fun write mem => ?_).append tx.dirtyBlocks).suffix entries
    exact journal _ (home write mem)
  · have all := forall_mem_append.mpr ⟨home, admissible.home⟩
    exact fun write mem => all write (entries.subset mem)
  · intro record mem
    rcases mem_append.mp (tail.subset mem) with old | own
    · have earlier := below record old
      omega
    · obtain ⟨chunk, _, rfl⟩ := mem_map.mp own
      exact lt_succ_self _
  · exact fun addr outside => apply_congr (journal addr outside)

/-- A run whose records all fit keeps the device consistent, and leaves every home block with
its last write. -/
theorem Consistent.commitAll (ok : Consistent checksum sb state bound)
    (long : 4 ≤ sb.journalBlocks) {txs : List Transaction}
    (lt : (txs.map Transaction.id).Pairwise (· < ·)) (newer : ∀ tx ∈ txs, bound ≤ tx.id)
    (admissible : ∀ tx ∈ txs, tx.Admissible checksum sb) (fits : runFits checksum sb state.2 txs) :
    (∃ last, Consistent checksum sb (commitAll checksum sb state txs) last) ∧
      ∀ addr, Outside sb addr → (commitAll checksum sb state txs).1 addr =
        apply (txs.flatMap Transaction.dirtyBlocks) state.1 addr := by
  induction txs generalizing state bound with
  | nil => exact ⟨⟨bound, ok⟩, fun _ _ => rfl⟩
  | cons tx rest ih =>
    rw [map_cons, pairwise_cons] at lt
    obtain ⟨stepped, written⟩ := ok.commit long (newer tx mem_cons_self)
      (admissible tx mem_cons_self) fits.1
    obtain ⟨final, contents⟩ := ih stepped lt.2
      (fun other mem => lt.1 other.id (mem_map_of_mem mem))
      (forall_mem_cons.mp admissible).2 fits.2
    refine ⟨final, fun addr outside => ?_⟩
    rw [flatMap_cons, apply_append]
    exact (contents addr outside).trans (apply_congr (written addr outside))

/-- A transaction that writes one block. -/
def Transaction.single (id address : Nat) (inRange : address < 2 ^ 64) (content : Block) :
    Transaction where
  id := id
  timestamp := 0
  dirtyBlocks := [(address, content)]
  sorted := pairwise_singleton _ _
  inRange := by
    intro entry mem
    rw [mem_singleton] at mem
    exact mem ▸ inRange

/-- A checksum over all bytes of a block: its value modulo a prime, with the top bit set. -/
def residue (block : Block) : UInt32 :=
  .ofNat (2 ^ 31 + decode block.bytes % (2 ^ 31 - 1))

/-- The top bit of the residue is set. -/
theorem residue_large (block : Block) : 2 ^ 31 ≤ (residue block).toNat := by
  have small : decode block.bytes % (2 ^ 31 - 1) < 2 ^ 31 - 1 := mod_lt _ (by decide)
  rw [residue, UInt32.toNat_ofNat', mod_eq_of_lt (by omega)]
  omega

/-- The residue tells every record's blocks apart in a journal of ordinary length. -/
theorem residue_unambiguous (short : maxRecords sb < 2 ^ 31) (record : Record) :
    record.Unambiguous residue sb where
  headerSum := lt_of_lt_of_le short (residue_large _)
  footerSum := by
    intro zero
    have large := residue_large (record.footer residue)
    rw [zero] at large
    exact absurd large (by decide)

theorem headerValid_fill (checksum : Block → UInt32) (byte : UInt8) :
    headerValid checksum (Block.fill byte) = false := by
  have bound := byte.toNat_lt
  have magic : (JournalHeader.read (Block.fill byte)).magic =
      .ofNat (decode (replicate 8 byte)) := by
    change UInt64.ofNat (decode ((replicate blockSize byte).take 8)) = _
    rw [take_replicate, min_eq_left (by decide)]
  have value : decode (replicate 8 byte) = byte.toNat * 0x0101010101010101 := by
    simp only [replicate, decode]
    omega
  have other : UInt64.ofNat (byte.toNat * 0x0101010101010101) ≠ journalMagic := by
    intro same
    have number := congrArg UInt64.toNat same
    have small : byte.toNat * 0x0101010101010101 < 2 ^ 64 :=
      lt_of_le_of_lt (mul_le_mul_right _ (le_of_lt_succ bound)) (by decide)
    rw [UInt64.toNat_ofNat', mod_eq_of_lt small] at number
    have divides : 0x0101010101010101 ∣ journalMagic.toNat := ⟨byte.toNat, by
      rw [← number, mul_comm]⟩
    exact absurd divides (by decide)
  have differs : (JournalHeader.read (Block.fill byte)).magic ≠ journalMagic := by
    rw [magic, value]
    exact other
  simp [headerValid, differs]

theorem commit_single (checksum : Block → UInt32) (id addr start : Nat)
    (inRange : addr < 2 ^ 64) (content : Block) (long : 4 ≤ sb.journalBlocks) (current : Nat) :
    (TransactionManager.mk current start).commit checksum sb (.single id addr inRange content) =
      ([recordWrites sb start 4 (Record.blocks checksum ⟨id, 0, [(addr, content)]⟩),
        [(addr, content)]], ⟨current, (start + 4) % sb.journalBlocks⟩) := by
  obtain ⟨less, size⟩ : ∃ less, maxRecords sb = less + 1 :=
    ⟨maxRecords sb - 1, by have bounds := (maxRecords_bounds long).1; omega⟩
  have pos : 0 < sb.journalBlocks := by omega
  simp [TransactionManager.commit, Transaction.single, size, chunks, chunkWrites, pos,
    totalJournalBlocks, applyWrites, runLength, writeContiguousRun, Record.blocks]

theorem records_single (id addr : Nat) (inRange : addr < 2 ^ 64) (content : Block)
    (long : 4 ≤ sb.journalBlocks) :
    (Transaction.single id addr inRange content).records sb = [⟨id, 0, [(addr, content)]⟩] := by
  obtain ⟨less, size⟩ : ∃ less, maxRecords sb = less + 1 :=
    ⟨maxRecords sb - 1, by have bounds := (maxRecords_bounds long).1; omega⟩
  simp [Transaction.records, Transaction.single, size, chunks]

theorem admissible_single {id addr : Nat} (inRange : addr < 2 ^ 64) (content : Block)
    (short : maxRecords sb < 2 ^ 31) (fresh : sb.generation < id) (below : id < journalMagic.toNat)
    (home : Outside sb addr) :
    (Transaction.single id addr inRange content).Admissible residue sb where
  fresh := fresh
  belowMagic := below
  home := by
    intro entry mem
    rw [Transaction.single, mem_singleton] at mem
    exact mem ▸ home
  sums := fun record _ => residue_unambiguous short record

/-- No acknowledged transaction is lost or reverted by recovery in a run in which no record
straddles the end of the journal area. The journal may hold records of earlier mounts from the
next position on, with ids up to the generation; a mount starts at position zero. -/
theorem recover_keeps_acknowledged (sb : Superblock) (long : 4 ≤ sb.journalBlocks) (disk : Disk)
    (manager : TransactionManager)
    (unreadable : ∀ block ∈ (area sb disk).take (manager.nextJournalBlock % sb.journalBlocks),
      headerValid checksum block = false)
    (known : Stale checksum sb
      ((area sb disk).drop (manager.nextJournalBlock % sb.journalBlocks)))
    {txs : List Transaction} (increasing : (txs.map Transaction.id).Pairwise (· < ·))
    (admissible : ∀ tx ∈ txs, tx.Admissible checksum sb)
    (fits : runFits checksum sb manager txs) (address : Nat) (home : Outside sb address) :
    (recover checksum (commitAll checksum sb (disk, manager) txs).1 sb).1 address =
      apply (txs.flatMap Transaction.dirtyBlocks) disk address := by
  have start := Consistent.formatted manager (by omega) unreadable known
  obtain ⟨⟨last, final⟩, contents⟩ := start.commitAll long increasing
    (fun tx _ => zero_le tx.id) admissible fits
  have unchanged : (recover checksum (commitAll checksum sb (disk, manager) txs).1 sb).1 =
      (commitAll checksum sb (disk, manager) txs).1 := final.recover
  rw [unchanged]
  exact contents address home

/-- A device whose journal holds the record of an earlier mount. -/
def remounted : Disk :=
  (commitAll residue ⟨16, 8, 0⟩ (fun _ => Block.fill 0, ⟨1, 0⟩)
    [.single 1 100 (by decide) (.fill 1)]).1

theorem area_remounted : area ⟨16, 8, 1⟩ remounted =
    Record.blocks residue ⟨1, 0, [(100, .fill 1)]⟩ ++ replicate 4 (.fill 0) := by
  simp [area, range_succ, remounted, commitAll, commit_single, recordWrites,
    writeContiguousRun, Record.blocks, journalPayload, entryBlocks, replicate]

/-- Its one record has an id up to the generation. -/
theorem stale_remounted : Stale residue ⟨16, 8, 1⟩ (area ⟨16, 8, 1⟩ remounted) := by
  have sound : Record.Sound residue ⟨16, 8, 0⟩ ⟨1, 0, [(100, .fill 1)]⟩ :=
    { fresh := by decide, belowMagic := by decide, bounded := by decide, small := by decide
      inRange := by simp, sums := residue_unambiguous (by decide) _ }
  rw [area_remounted]
  refine .cons (fun id entries after read => ?_) (.blank ?_)
  · have own := recordOf_blocks sound (replicate 4 (.fill 0))
    rw [Record.blocks_eq, cons_append] at own
    cases own.symm.trans read
    exact le_rfl
  · have header : headerValid residue (recordHeader residue 1 (100, .fill 1)).toBlock = false :=
      headerValid_recordHeader (by decide) _
    have footer : headerValid residue (footerBlock residue 1 1).toBlock = false :=
      headerValid_footerBlock _ _ sound.sums.footerSum
    simp [entryBlocks, headerValid_fill, header, footer]

/-- Three one-block transactions over the journal of an earlier mount, the third one over the
first: every record ends inside the area, and recovery keeps the newest content. -/
theorem recover_keeps_third : (recover residue (commitAll residue ⟨16, 8, 1⟩ (remounted, ⟨2, 0⟩)
    [.single 2 100 (by decide) (.fill 2), .single 3 100 (by decide) (.fill 3),
      .single 4 100 (by decide) (.fill 4)]).1 ⟨16, 8, 1⟩).1 100 = Block.fill 4 := by
  refine recover_keeps_acknowledged ⟨16, 8, 1⟩ (by decide) remounted ⟨2, 0⟩ (forall_mem_nil _)
    stale_remounted (by decide) ?_ ?_ 100 (Or.inr (by decide))
  · intro tx mem
    simp only [mem_cons, not_mem_nil, or_false] at mem
    rcases mem with rfl | rfl | rfl <;>
      exact admissible_single _ _ (by decide) (by decide) (by decide) (Or.inr (by decide))
  · simp [runFits, recordsFit, records_single, commit_single]

variable (checksum)

/-- A journal of ten blocks from which the third of three one-block transactions straddles
the end. -/
def straddled : Disk × TransactionManager :=
  commitAll checksum ⟨16, 10, 0⟩ (fun _ => Block.fill 0, ⟨1, 0⟩)
    [.single 1 200 (by decide) (.fill 1), .single 2 100 (by decide) (.fill 2),
      .single 3 100 (by decide) (.fill 3)]

/-- The journal after that run: the end of the third record over the first, the second one
whole, and the start of the third. -/
theorem area_straddled : area ⟨16, 10, 0⟩ (straddled checksum).1 =
      [.fill 3, Record.footer checksum ⟨3, 0, [(100, .fill 3)]⟩, .fill 1,
        Record.footer checksum ⟨1, 0, [(200, .fill 1)]⟩] ++
      (Record.blocks checksum ⟨2, 0, [(100, .fill 2)]⟩ ++
      [Record.header checksum ⟨3, 0, [(100, .fill 3)]⟩,
        (recordHeader checksum 3 (100, .fill 3)).toBlock]) := by
  simp [area, range_succ, straddled, commitAll, commit_single, recordWrites,
    writeContiguousRun, Record.blocks, Record.header, Record.footer, journalPayload, entryBlocks]

/-- The scan of that journal finds the second record only. -/
theorem scan_straddled (sums : ∀ record, Record.Unambiguous checksum ⟨16, 10, 0⟩ record) :
    Scan checksum (area ⟨16, 10, 0⟩ (straddled checksum).1) [(2, [(100, .fill 2)])] := by
  have second : Record.Sound checksum ⟨16, 10, 0⟩ ⟨2, 0, [(100, .fill 2)]⟩ :=
    { fresh := by decide, belowMagic := by decide, bounded := by decide, small := by decide
      inRange := by simp, sums := sums _ }
  have third : Scan checksum [Record.header checksum ⟨3, 0, [(100, .fill 3)]⟩,
      (recordHeader checksum 3 (100, .fill 3)).toBlock] [] := by
    refine .skip _ _ _ ?_ (.pass (headerValid_recordHeader (by decide) _) .nil)
    simp [recordOf, Record.header, headerBlock, entriesOf]
  have footer (record : Record) : headerValid checksum (record.footer checksum) = false :=
    headerValid_footerBlock _ _ (sums record).footerSum
  rw [area_straddled]
  refine .blank ?_ (.blocks second third)
  simp [headerValid_fill, footer]

/-- Recovery reverts the block that the straddling transaction wrote. -/
theorem recover_straddled (sums : ∀ record, Record.Unambiguous checksum ⟨16, 10, 0⟩ record) :
    (recover checksum (straddled checksum).1 ⟨16, 10, 0⟩).1 100 = .fill 2 := by
  have found := scan_of_Scan (scan_straddled checksum sums) 10 0 rfl (by simp)
  simp [recover, found, txToReplay, Assoc.orInsert, Assoc.find, Assoc.insert, replayWrites,
    replayIds, cutoff]

variable {checksum}

/-- A record that straddles the end of the journal area is lost to recovery, which then puts
back the content an earlier transaction had written. -/
theorem straddling_record_reverted : ¬∀ (checksum : Block → UInt32) (sb : Superblock)
    (disk : Disk) (manager : TransactionManager) (txs : List Transaction) (address : Nat),
    4 ≤ sb.journalBlocks →
    (∀ block ∈ area sb disk, headerValid checksum block = false) →
    (txs.map Transaction.id).Pairwise (· < ·) →
    (∀ tx ∈ txs, tx.Admissible checksum sb) → Outside sb address →
    (recover checksum (commitAll checksum sb (disk, manager) txs).1 sb).1 address =
      apply (txs.flatMap Transaction.dirtyBlocks) disk address := by
  intro always
  have kept := always residue ⟨16, 10, 0⟩ (fun _ => Block.fill 0) ⟨1, 0⟩
    [.single 1 200 (by decide) (.fill 1), .single 2 100 (by decide) (.fill 2),
      .single 3 100 (by decide) (.fill 3)] 100 (by decide) ?_ (by decide) ?_ (Or.inr (by decide))
  · have reverted := recover_straddled residue (residue_unambiguous (by decide))
    have same : Block.fill 2 = Block.fill 3 := reverted.symm.trans kept
    exact absurd (Block.fill_inj same) (by decide)
  · intro block mem
    obtain ⟨_, _, rfl⟩ := mem_map.mp mem
    exact headerValid_fill residue 0
  · intro tx mem
    simp only [mem_cons, not_mem_nil, or_false] at mem
    rcases mem with rfl | rfl | rfl <;>
      exact admissible_single _ _ (by decide) (by decide) (by decide) (Or.inr (by decide))

end LionFS.Journal
