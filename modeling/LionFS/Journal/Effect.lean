import LionFS.Journal.Ring

/-!
# What the writes of a commit do to the device

The journal writes of a commit replace parts of the journal area and touch
nothing else; the home writes are the dirty blocks themselves, however they are
grouped into runs. When every record of a transaction ends inside the area, the
ring of records before the journal writes is a ring of records after them.
-/
namespace LionFS.Journal
open List Nat Writes
variable (checksum : Block → UInt32)

/-- Consecutive writes leave each block at its place and nothing elsewhere. -/
theorem apply_run (start : Nat) (blocks : List Block) (disk : Disk) (addr : Nat) :
    apply (writeContiguousRun start blocks) disk addr =
      if start ≤ addr then (blocks[addr - start]?).getD (disk addr)
      else disk addr := by
  induction blocks generalizing start disk with
  | nil => simp [writeContiguousRun]
  | cons block rest ih =>
    rw [writeContiguousRun, apply_cons, ih]
    rcases Nat.lt_trichotomy addr start with before | same | after
    · have first : ¬start ≤ addr := by omega
      have second : ¬start + 1 ≤ addr := by omega
      simp only [first, second, ↓reduceIte]
      exact Function.update_of_ne (by omega) _ _
    · subst same
      simp
    · obtain ⟨offset, rfl⟩ : ∃ offset, addr = start + 1 + offset :=
        ⟨addr - (start + 1), by omega⟩
      have spot : start + 1 + offset - start = offset + 1 := by omega
      have kept : Function.update disk start block (start + 1 + offset) =
          disk (start + 1 + offset) := Function.update_of_ne (by omega) _ _
      simp only [show start ≤ start + 1 + offset by omega, le_add_right, ↓reduceIte,
        Nat.add_sub_cancel_left, spot, getElem?_cons_succ, kept]

theorem area_run (sb : Superblock) (start : Nat) (blocks : List Block) (disk : Disk)
    (fits : start + blocks.length ≤ sb.journalBlocks) :
    area sb (apply (writeContiguousRun (sb.journalStart + start) blocks) disk) =
      (area sb disk).take start ++ blocks ++ (area sb disk).drop (start + blocks.length) := by
  apply ext_getElem?
  intro index
  by_cases mem : index < sb.journalBlocks
  · rw [getElem?_area sb _ index mem, apply_run]
    rcases lt_or_ge index start with before | from_start
    · have outside : ¬sb.journalStart + start ≤ sb.journalStart + index := by omega
      rw [if_neg outside, append_assoc, getElem?_append_left (by simp; omega),
        getElem?_take_of_lt before, getElem?_area sb disk index mem]
    · have spot : sb.journalStart + index - (sb.journalStart + start) = index - start := by
        omega
      rw [if_pos (by omega), spot, append_assoc, getElem?_append_right (by simp; omega)]
      simp only [length_take, length_area, min_eq_left (show start ≤ sb.journalBlocks by omega)]
      rcases lt_or_ge (index - start) blocks.length with within | past
      · rw [getElem?_append_left within, getElem?_eq_getElem within]
        rfl
      · rw [getElem?_append_right past, getElem?_eq_none past, getElem?_drop,
          show start + blocks.length + (index - start - blocks.length) = index by omega,
          getElem?_area sb disk index mem]
        rfl
  · rw [getElem?_eq_none (by simpa using mem), getElem?_eq_none]
    simp
    omega

theorem area_frame (sb : Superblock) {writes : List (Nat × Block)} (disk : Disk)
    (outside : ∀ write ∈ writes, write.1 < sb.journalStart ∨
      sb.journalStart + sb.journalBlocks ≤ write.1) :
    area sb (apply writes disk) = area sb disk := by
  refine map_congr_left fun index mem => ?_
  have inside := mem_range.mp mem
  refine apply_of_not_mem (fun write mem same => ?_) disk
  have apart := outside write mem
  omega

theorem mem_run {start : Nat} {blocks : List Block} {write : Nat × Block}
    (mem : write ∈ writeContiguousRun start blocks) :
    start ≤ write.1 ∧ write.1 < start + blocks.length := by
  induction blocks generalizing start with
  | nil => simp [writeContiguousRun] at mem
  | cons block rest ih =>
    rcases mem_cons.mp mem with rfl | later
    · simp
    · have bounds := ih later
      simp only [length_cons]
      omega

variable {checksum} {sb : Superblock} {current : Nat}

theorem mem_recordWrites {payload : List Block} {write : Nat × Block}
    (fits : payload.length ≤ sb.journalBlocks)
    (mem : write ∈ recordWrites sb current payload.length payload) :
    sb.journalStart ≤ write.1 ∧ write.1 < sb.journalStart + sb.journalBlocks := by
  unfold recordWrites at mem
  have spot := mod_le current sb.journalBlocks
  simp only at mem
  split at mem
  · have bounds := mem_run mem
    omega
  · rcases mem_append.mp mem with first | second
    · have bounds := mem_run first
      rw [length_take] at bounds
      omega
    · have bounds := mem_run second
      rw [length_drop] at bounds
      omega

/-- The leading run of consecutive blocks is written as those blocks. -/
theorem run_take (last : Nat) (rest : List (Nat × Block)) :
    writeContiguousRun (last + 1) ((rest.take (runLength last rest)).map Prod.snd) =
      rest.take (runLength last rest) := by
  induction rest generalizing last with
  | nil => rfl
  | cons entry rest ih =>
    obtain ⟨number, content⟩ := entry
    by_cases next : number = last + 1
    · subst next
      simp only [runLength, ↓reduceIte, take_succ_cons, map_cons, writeContiguousRun, ih]
    · simp [runLength, next, writeContiguousRun]

/-- However the dirty blocks are grouped into runs, the home writes are those blocks. -/
theorem applyWrites_eq (fuel : Nat) (entries : List (Nat × Block))
    (enough : entries.length ≤ fuel) : applyWrites fuel entries = entries := by
  induction fuel generalizing entries with
  | zero =>
    have none := eq_nil_of_length_eq_zero (le_zero.mp enough)
    simp [applyWrites, none]
  | succ fuel ih =>
    cases entries with
    | nil => rfl
    | cons entry rest =>
      have later := ih (rest.drop (runLength entry.1 rest)) (by
        simp only [length_cons, length_drop] at enough ⊢
        omega)
      simp only [applyWrites, later, map_cons, writeContiguousRun, run_take, cons_append,
        take_append_drop]

/-- The chunks of a listing, in order, are the listing; none is empty or too long, and all
but the last are full. -/
theorem chunks_spec {size : Nat} (pos : 0 < size) (fuel : Nat)
    (entries : List (Nat × Block)) (enough : entries.length ≤ fuel) :
    (chunks size fuel entries).flatten = entries ∧
      (∀ chunk ∈ chunks size fuel entries, chunk ≠ [] ∧ chunk.length ≤ size) ∧
      (chunks size fuel entries).Pairwise fun chunk _ => chunk.length = size := by
  induction fuel generalizing entries with
  | zero =>
    have none := eq_nil_of_length_eq_zero (le_zero.mp enough)
    simp [chunks, none]
  | succ fuel ih =>
    cases entries with
    | nil => simp [chunks]
    | cons entry rest =>
      obtain ⟨flat, bounded, full⟩ := ih ((entry :: rest).drop size) (by
        simp only [length_cons, length_drop] at enough ⊢
        omega)
      refine ⟨?_, ?_, ?_⟩
      · rw [chunks, flatten_cons, flat, take_append_drop]
      · obtain ⟨less, rfl⟩ : ∃ less, size = less + 1 := ⟨size - 1, by omega⟩
        exact forall_mem_cons.mpr ⟨⟨by simp, by simp⟩, bounded⟩
      · refine pairwise_cons.mpr ⟨fun other mem => ?_, full⟩
        have more : (entry :: rest).drop size ≠ [] := by
          intro spent
          rw [spent] at mem
          cases fuel <;> simp [chunks] at mem
        rw [length_take, min_eq_left]
        by_contra short
        exact more (drop_eq_nil_of_le (by omega))

/-- The records that `commit` writes for a transaction. -/
def Transaction.records (sb : Superblock) (tx : Transaction) : List Record :=
  (chunks (maxRecords sb) tx.dirtyBlocks.length tx.dirtyBlocks).map
    fun chunk => ⟨tx.id, tx.timestamp, chunk⟩

/-- Every record from the given position on ends inside the area, and its length is a word. -/
def recordsFit (sb : Superblock) : Nat → List Record → Prop
  | _, [] => True
  | current, record :: rest =>
    current % sb.journalBlocks + (2 * record.entries.length + 2) ≤ sb.journalBlocks ∧
      2 * record.entries.length + 2 < 2 ^ 32 ∧
      recordsFit sb (current + (2 * record.entries.length + 2)) rest

theorem recordWrites_eq (record : Record)
    (fits : current % sb.journalBlocks + (2 * record.entries.length + 2) ≤ sb.journalBlocks)
    (small : 2 * record.entries.length + 2 < 2 ^ 32) :
    recordWrites sb current (totalJournalBlocks record.entries.length) (record.blocks checksum) =
      writeContiguousRun (sb.journalStart + current % sb.journalBlocks)
        (record.blocks checksum) := by
  have total : totalJournalBlocks record.entries.length = 2 * record.entries.length + 2 :=
    mod_eq_of_lt small
  unfold recordWrites
  rw [if_pos]
  omega

theorem Ring.write (ring : Ring checksum sb) {disk : Disk}
    (record : Record) (sound : record.Sound checksum sb)
    (newest : ∀ earlier ∈ ring.records, Precedes checksum sb earlier record)
    (fits : current % sb.journalBlocks + (2 * record.entries.length + 2) ≤ sb.journalBlocks)
    (blocks : ring.blocks = area sb disk)
    (spot : ring.next % sb.journalBlocks = current % sb.journalBlocks) : ∃ ring' : Ring checksum sb,
      ring'.blocks = area sb (apply (recordWrites sb current
        (totalJournalBlocks record.entries.length) (record.blocks checksum)) disk) ∧
      ring'.next % sb.journalBlocks =
        (current + totalJournalBlocks record.entries.length) % sb.journalBlocks ∧
      ring'.records <:+ ring.records ++ [record] := by
  have length := record.length_blocks checksum
  have total : totalJournalBlocks record.entries.length = 2 * record.entries.length + 2 :=
    mod_eq_of_lt sound.small
  obtain ⟨start, same, here, part⟩ := ring.normal
  rw [spot] at here
  obtain ⟨ring', written, next, _, tail⟩ := start.append record sound
    (fun earlier mem => newest earlier (part.subset mem)) (by omega)
  refine ⟨ring', ?_, ?_, tail.trans ?_⟩
  · rw [recordWrites_eq record fits sound.small, area_run sb _ _ disk (by omega), written, same,
      blocks, here]
  · rw [next, here, length, total, mod_add_mod]
  · obtain ⟨front, whole⟩ := part
    exact ⟨front, by rw [← whole, append_assoc]⟩

/-- The chunk loop of `commit` appends the records of the transaction, as long as each ends
inside the area. -/
theorem Ring.writeChunks (id time : Nat)
    (chunks : List (List (Nat × Block))) (ring : Ring checksum sb) {disk : Disk}
    (pos : 0 < sb.journalBlocks)
    (sound : ∀ chunk ∈ chunks, Record.Sound checksum sb ⟨id, time, chunk⟩)
    (newest : ∀ earlier ∈ ring.records, ∀ chunk ∈ chunks,
      Precedes checksum sb earlier ⟨id, time, chunk⟩)
    (full : chunks.Pairwise fun chunk _ => sb.journalBlocks ≤ 2 * chunk.length + 3)
    (fits : recordsFit sb current (chunks.map fun chunk => ⟨id, time, chunk⟩))
    (blocks : ring.blocks = area sb disk)
    (spot : ring.next % sb.journalBlocks = current % sb.journalBlocks) : ∃ ring' : Ring checksum sb,
      ring'.blocks = area sb (apply (chunkWrites checksum sb id time current chunks).1 disk) ∧
      ring'.next % sb.journalBlocks =
        (chunkWrites checksum sb id time current chunks).2 % sb.journalBlocks ∧
      ring'.records <:+ ring.records ++ chunks.map fun chunk => ⟨id, time, chunk⟩ := by
  induction chunks generalizing ring disk current with
  | nil => exact ⟨ring, blocks, spot, by simp⟩
  | cons chunk rest ih =>
    let record : Record := ⟨id, time, chunk⟩
    obtain ⟨inside, small, later⟩ := fits
    obtain ⟨before, fullRest⟩ := pairwise_cons.mp full
    have total : totalJournalBlocks chunk.length = 2 * chunk.length + 2 := mod_eq_of_lt small
    obtain ⟨middle, written, next, tail⟩ := ring.write record (sound chunk mem_cons_self)
      (fun earlier mem => newest earlier mem chunk mem_cons_self) inside blocks spot
    have newestRest : ∀ earlier ∈ middle.records, ∀ other ∈ rest,
        Precedes checksum sb earlier ⟨id, time, other⟩ := by
      intro earlier mem other inRest
      rcases mem_append.mp (tail.subset mem) with old | own
      · exact newest earlier old other (mem_cons_of_mem _ inRest)
      · rw [mem_singleton] at own
        subst own
        have length := record.length_blocks checksum
        have large := before other inRest
        refine Or.inr ⟨rfl, ?_⟩
        simp only [record] at length ⊢
        omega
    obtain ⟨ring', final, position', tail'⟩ := ih middle
      (forall_mem_cons.mp sound).2 newestRest fullRest
      (by rw [total]; exact later) written next
    refine ⟨ring', ?_, ?_, tail'.trans ?_⟩
    · rw [chunkWrites, if_pos pos, apply_append]
      exact final
    · rw [chunkWrites, if_pos pos]
      exact position'
    · obtain ⟨front, whole⟩ := tail
      exact ⟨front, by rw [← append_assoc, whole]; simp [record]⟩

/-- In a journal of at least four blocks a full record takes all but at most one of them. -/
theorem maxRecords_bounds (long : 4 ≤ sb.journalBlocks) :
    0 < maxRecords sb ∧ 2 * maxRecords sb + 2 ≤ sb.journalBlocks ∧
      sb.journalBlocks ≤ 2 * maxRecords sb + 3 := by
  unfold maxRecords
  rw [if_pos (by omega)]
  omega

theorem recordsFit_small {records : List Record} (fits : recordsFit sb current records) :
    ∀ record ∈ records, 2 * record.entries.length + 2 < 2 ^ 32 := by
  induction records generalizing current with
  | nil => simp
  | cons record rest ih =>
    exact forall_mem_cons.mpr ⟨fits.2.1, ih fits.2.2⟩

/-- The chunk loop writes only inside the area. -/
theorem mem_chunkWrites {id time : Nat} {pieces : List (List (Nat × Block))} {write : Nat × Block}
    (small : ∀ chunk ∈ pieces, 2 * chunk.length + 2 ≤ sb.journalBlocks)
    (words : ∀ chunk ∈ pieces, 2 * chunk.length + 2 < 2 ^ 32)
    (mem : write ∈ (chunkWrites checksum sb id time current pieces).1) :
    sb.journalStart ≤ write.1 ∧ write.1 < sb.journalStart + sb.journalBlocks := by
  induction pieces generalizing current with
  | nil => simp [chunkWrites] at mem
  | cons chunk rest ih =>
    have fits := small chunk mem_cons_self
    have total : totalJournalBlocks chunk.length = 2 * chunk.length + 2 :=
      mod_eq_of_lt (words chunk mem_cons_self)
    have length := Record.length_blocks checksum ⟨id, time, chunk⟩
    have room : (Record.blocks checksum ⟨id, time, chunk⟩).length ≤ sb.journalBlocks := by
      rw [length]
      exact fits
    have later := fun spot => @ih spot (forall_mem_cons.mp small).2 (forall_mem_cons.mp words).2
    rw [chunkWrites, if_pos (by omega)] at mem
    rcases mem_append.mp mem with first | second
    · rw [total, ← length] at first
      exact mem_recordWrites room first
    · exact later _ second

end LionFS.Journal
