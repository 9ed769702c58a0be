import LionFS.Journal.Recover
import Mathlib.Tactic.NormNum

/-!
# What the journal scan finds

The scan reads the journal area as a list of blocks. `Scan` is its relational
reading: a block at which no record starts is skipped, a record is skipped
whole. A written record is found with its own id and entries; a block that fails
the header check is passed over; and the blocks left of a record whose header
was overwritten yield at most a tail of that record's own entries, even when a
journaled block is itself the image of a journal header.
-/
namespace LionFS.Journal
open List Option JournalHeader
variable (checksum : Block → UInt32) (sb : Superblock) (disk : Disk)

/-- The journal area as a list of blocks. -/
def area : List Block :=
  (range sb.journalBlocks).map fun index => disk (sb.journalStart + index)

@[simp] theorem length_area : (area sb disk).length = sb.journalBlocks := by simp [area]

theorem getElem?_area (index : Nat) (mem : index < sb.journalBlocks) :
    (area sb disk)[index]? = some (disk (sb.journalStart + index)) := by
  simp [area, mem]

theorem drop_area (index : Nat) (mem : index < sb.journalBlocks) : (area sb disk).drop index =
      disk (sb.journalStart + index) :: (area sb disk).drop (index + 1) := by
  have bound : index < (area sb disk).length := by simpa using mem
  rw [drop_eq_getElem_cons bound]
  simp [area]

/-- The entry loop over a list of blocks; returns the entries and the blocks after them. -/
def entriesOf : Nat → List Block → Option (List (Nat × Block) × List Block)
  | 0, blocks => some ([], blocks)
  | count + 1, header :: data :: rest =>
    if checksum data ≠ (JournalRecordHeader.read header).checksum then none
    else (entriesOf count rest).map fun found =>
      (((JournalRecordHeader.read header).physicalBlock.toNat, data) :: found.1, found.2)
  | _ + 1, _ => none

/-- The record at the front of a list of blocks: its id, its entries, the blocks after it. -/
def recordOf : List Block → Option (Nat × List (Nat × Block) × List Block)
  | [] => none
  | block :: rest =>
    if headerValid checksum block then
      match entriesOf checksum (read block).entryCount.toNat rest with
      | some (entries, footer :: after) =>
        if footerValid checksum (read block).txId footer then
          some ((read block).txId.toNat, entries, after)
        else none
      | _ => none
    else none

/-- The relational reading of the scan. -/
inductive Scan : List Block → List (Nat × List (Nat × Block)) → Prop where
  | nil : Scan [] []
  | skip (block : Block) (blocks : List Block) (found : List (Nat × List (Nat × Block)))
      (none : recordOf checksum (block :: blocks) = none) (rest : Scan blocks found) :
      Scan (block :: blocks) found
  | record (blocks after : List Block) (id : Nat) (entries : List (Nat × Block))
      (found : List (Nat × List (Nat × Block)))
      (read : recordOf checksum blocks = some (id, entries, after)) (rest : Scan after found) :
      Scan blocks ((id, entries) :: found)

/-- The entry loop on the device is the entry loop on the area. -/
theorem readEntries_eq (sb : Superblock) (count temp : Nat) :
    readEntries checksum disk sb count temp =
      (entriesOf checksum count ((area sb disk).drop temp)).map fun found =>
        (found.1, temp + 2 * count) := by
  induction count generalizing temp with
  | zero => simp [readEntries, entriesOf]
  | succ count ih =>
    unfold readEntries
    by_cases first : temp ≥ sb.journalBlocks
    · rw [if_pos first, drop_eq_nil_of_le (by simpa using first)]
      simp [entriesOf]
    · rw [if_neg first, drop_area sb disk temp (by omega)]
      by_cases second : temp + 1 ≥ sb.journalBlocks
      · rw [if_pos second, drop_eq_nil_of_le (by simpa using second)]
        simp [entriesOf]
      · rw [if_neg second, drop_area sb disk (temp + 1) (by omega)]
        simp only [entriesOf]
        split
        · rfl
        · rw [ih]
          cases entriesOf checksum count ((area sb disk).drop (temp + 2)) with
          | none => rfl
          | some found =>
            simp only [map_some, some.injEq, Prod.mk.injEq, true_and]
            omega

variable {entries : List (Nat × Block)}

/-- The blocks after the entries are those the entries did not take. -/
theorem entriesOf_rest {count : Nat} {blocks rest : List Block}
    (read : entriesOf checksum count blocks = some (entries, rest)) :
    rest = blocks.drop (2 * count) := by
  induction count generalizing blocks entries rest with
  | zero =>
    simp only [entriesOf, some.injEq, Prod.mk.injEq] at read
    simp [read.2]
  | succ count ih =>
    match blocks, read with
    | [], read => simp [entriesOf] at read
    | [_], read => simp [entriesOf] at read
    | header :: data :: tail, read =>
      simp only [entriesOf] at read
      split at read
      · contradiction
      · cases inner : entriesOf checksum count tail with
        | none => simp [inner] at read
        | some found =>
          obtain ⟨foundEntries, foundRest⟩ := found
          simp only [inner, map_some, some.injEq, Prod.mk.injEq] at read
          rw [← read.2, ih inner, show 2 * (count + 1) = 2 * count + 2 by ring]
          rfl

theorem readRecord_eq (sb : Superblock) (current : Nat) (mem : current < sb.journalBlocks) :
    match recordOf checksum ((area sb disk).drop current) with
    | none => readRecord checksum disk sb current = none
    | some (id, entries, after) => ∃ temp, readRecord checksum disk sb current =
        some (id, entries, temp) ∧ after = (area sb disk).drop (temp + 1) := by
  rw [drop_area sb disk current mem]
  unfold readRecord recordOf
  simp only
  by_cases valid : headerValid checksum (disk (sb.journalStart + current)) = true
  · simp only [valid, ↓reduceIte, readEntries_eq]
    generalize (read (disk (sb.journalStart + current))).entryCount.toNat = count
    cases inner : entriesOf checksum count ((area sb disk).drop (current + 1)) with
    | none => rfl
    | some found =>
      obtain ⟨entries, rest⟩ := found
      have spot := entriesOf_rest checksum inner
      rw [drop_drop] at spot
      simp only [map_some]
      by_cases within : current + 1 + 2 * count < sb.journalBlocks
      · rw [spot, drop_area sb disk _ within]
        by_cases footed : footerValid checksum (read (disk (sb.journalStart + current))).txId
            (disk (sb.journalStart + (current + 1 + 2 * count))) = true
        · simp only [footed, within, and_self, ↓reduceIte]
          exact ⟨_, rfl, rfl⟩
        · simp [footed]
      · rw [spot, drop_eq_nil_of_le (by simpa using Nat.le_of_not_lt within)]
        simp [within]
  · simp [valid]

variable {checksum} {id : Nat}

/-- The blocks after a record are those behind its header, its entries and its footer. -/
theorem recordOf_rest {blocks after : List Block}
    (read : recordOf checksum blocks = some (id, entries, after)) :
    ∃ count, after = blocks.drop (count + 1) ∧ after.length < blocks.length := by
  cases blocks with
  | nil => simp [recordOf] at read
  | cons block rest =>
    simp only [recordOf] at read
    split at read
    · split at read
      · rename_i found footer tail inner
        split at read
        · simp only [some.injEq, Prod.mk.injEq] at read
          have spot := entriesOf_rest checksum inner
          have length := congrArg length spot
          rw [← read.2.2]
          refine ⟨2 * (JournalHeader.read block).entryCount.toNat + 1, ?_, ?_⟩
          · rw [drop_succ_cons, ← drop_drop, ← spot, drop_succ_cons, drop_zero]
          · simp only [length_cons, length_drop] at length ⊢
            omega
        · contradiction
      · contradiction
    · contradiction

variable {found : List (Nat × List (Nat × Block))} {sb : Superblock}

/-- The scan returns what its relational reading describes. -/
theorem scan_of_Scan {disk : Disk} {blocks : List Block} (described : Scan checksum blocks found)
    (fuel current : Nat) (here : blocks = (area sb disk).drop current)
    (enough : blocks.length ≤ fuel) : scan checksum disk sb fuel current = found := by
  induction described generalizing fuel current with
  | nil =>
    have outside : ¬current < sb.journalBlocks := by
      have length := congrArg length here
      simp only [length_nil, length_drop, length_area] at length
      omega
    cases fuel with
    | zero => rfl
    | succ fuel => simp [scan, outside]
  | skip block blocks found none rest ih =>
    have length := congrArg length here
    simp only [length_cons, length_drop, length_area] at length enough
    obtain ⟨fuel, rfl⟩ : ∃ more, fuel = more + 1 := ⟨fuel - 1, by omega⟩
    have mem : current < sb.journalBlocks := by omega
    have read := readRecord_eq checksum disk sb current mem
    rw [← here, none] at read
    simp only [scan, mem, ↓reduceIte, read]
    apply ih fuel (current + 1) _ (by omega)
    rw [drop_area sb disk current mem] at here
    exact (cons.inj here).2
  | record blocks after id entries found read rest ih =>
    obtain ⟨_, _, shorter⟩ := recordOf_rest read
    have length := congrArg length here
    simp only [length_drop, length_area] at length
    obtain ⟨fuel, rfl⟩ : ∃ more, fuel = more + 1 := ⟨fuel - 1, by omega⟩
    have mem : current < sb.journalBlocks := by omega
    have onDisk := readRecord_eq checksum disk sb current mem
    rw [← here, read] at onDisk
    obtain ⟨temp, onDisk, spot⟩ := onDisk
    simp only [scan, mem, ↓reduceIte, onDisk, cons.injEq, true_and]
    exact ih fuel (temp + 1) spot (by omega)

/-- One record of the journal, as `commit` writes it. -/
structure Record where
  /-- Transaction the record belongs to. -/
  id : Nat
  /-- Time of the transaction. -/
  timestamp : Nat
  /-- Block numbers and contents of the record. -/
  entries : List (Nat × Block)

variable (checksum) (record : Record)

/-- The blocks of a record. -/
def Record.blocks : List Block :=
  journalPayload checksum record.id record.timestamp record.entries

/-- The header block of a record. -/
def Record.header : Block :=
  (headerBlock checksum record.id record.timestamp record.entries.length).toBlock

/-- The footer block of a record. -/
def Record.footer : Block :=
  (footerBlock checksum record.id record.entries.length).toBlock

/-- What the checksum must not do with a record: that of its header is not a possible record
count, and that of its footer is not zero. -/
structure Record.Unambiguous (sb : Superblock) (record : Record) : Prop where
  /-- The header's checksum is not a record count. -/
  headerSum : maxRecords sb < (checksum (record.header checksum)).toNat
  footerSum : checksum (record.footer checksum) ≠ 0

/-- A record as `commit` writes it. -/
structure Record.Sound (sb : Superblock) (record : Record) : Prop where
  fresh : sb.generation < record.id
  /-- The id counter is below the magic number. -/
  belowMagic : record.id < journalMagic.toNat
  /-- `commit` splits larger transactions. -/
  bounded : record.entries.length ≤ maxRecords sb
  /-- The length of the record is computed without overflow. -/
  small : 2 * record.entries.length + 2 < 2 ^ 32
  inRange : ∀ entry ∈ record.entries, entry.1 < 2 ^ 64
  /-- The blocks of the record are not taken for others. -/
  sums : record.Unambiguous checksum sb

theorem Record.length_blocks : (record.blocks checksum).length = 2 * record.entries.length + 2 := by
  have entries : ∀ list : List (Nat × Block),
      (entryBlocks checksum record.id list).length = 2 * list.length := by
    intro list
    simp [entryBlocks, Nat.mul_comm]
  simp [blocks, journalPayload, entries]

theorem Record.blocks_eq : record.blocks checksum = record.header checksum ::
      (entryBlocks checksum record.id record.entries ++ [record.footer checksum]) := rfl

@[simp] theorem entryBlocks_nil (id : Nat) : entryBlocks checksum id [] = [] := rfl

theorem entryBlocks_cons (id : Nat) (entry : Nat × Block) (rest : List (Nat × Block)) :
    entryBlocks checksum id (entry :: rest) =
      (recordHeader checksum id entry).toBlock :: entry.2 :: entryBlocks checksum id rest := rfl

/-- The entry loop over written entries reads exactly as many of them as it is told to. -/
theorem entriesOf_entryBlocks (id : Nat) (inRange : ∀ entry ∈ entries, entry.1 < 2 ^ 64)
    (count : Nat) (few : count ≤ entries.length) (tail : List Block) :
    entriesOf checksum count (entryBlocks checksum id entries ++ tail) =
      some (entries.take count, entryBlocks checksum id (entries.drop count) ++ tail) := by
  induction count generalizing entries with
  | zero => rfl
  | succ count ih =>
    cases entries with
    | nil => simp at few
    | cons entry rest =>
      have bound := inRange entry mem_cons_self
      have later := ih (forall_mem_cons.mp inRange).2 (by simpa using few)
      have number : (UInt64.ofNat entry.1).toNat = entry.1 := by
        rw [UInt64.toNat_ofNat', Nat.mod_eq_of_lt bound]
      simp only [entryBlocks_cons, cons_append, entriesOf, JournalRecordHeader.read_toBlock,
        recordHeader, ne_eq, not_true_eq_false,
        ↓reduceIte, later, map_some, number, take_succ_cons, drop_succ_cons]

variable {checksum}

theorem footerValid_footerBlock (id count : Nat) (other : UInt64) :
    footerValid checksum other (footerBlock checksum id count).toBlock = true ↔
      UInt64.ofNat id = other := by
  simp [footerValid, footerBlock]

theorem ofNat_ne_magic (below : id < journalMagic.toNat) : UInt64.ofNat id ≠ journalMagic := by
  intro same
  have value := congrArg UInt64.toNat same
  have bound := journalMagic.toNat_lt
  rw [UInt64.toNat_ofNat', Nat.mod_eq_of_lt (by omega)] at value
  omega

theorem headerValid_recordHeader (below : id < journalMagic.toNat) (entry : Nat × Block) :
    headerValid checksum (recordHeader checksum id entry).toBlock = false := by
  have magic := ofNat_ne_magic below
  simp [headerValid, JournalRecordHeader.magic_asHeader, recordHeader, magic]

theorem headerValid_footerBlock (id count : Nat)
    (nonzero : checksum (footerBlock checksum id count).toBlock ≠ 0) :
    headerValid checksum (footerBlock checksum id count).toBlock = false := by
  have zero := JournalFooter.checksum_asHeader (footerBlock checksum id count) rfl
  have same : { read (footerBlock checksum id count).toBlock with
      checksum := 0 }.toBlock = (footerBlock checksum id count).toBlock := by
    rw [← zero]
    exact toBlock_read _
  simp only [headerValid, same, zero, Bool.and_eq_false_iff, beq_eq_false_iff_ne]
  exact Or.inr nonzero

variable {after : List Block}

/-- The entry loop told to read past a footer gives up: the footer's record count is not the
checksum of the block after it. -/
theorem entriesOf_past_footer (id total : Nat) (inRange : ∀ entry ∈ entries, entry.1 < 2 ^ 64)
    (count : Nat) (many : entries.length < count) (small : total < 2 ^ 32)
    (distinct : ∀ block ∈ after.head?, total < (checksum block).toNat) :
    entriesOf checksum count (entryBlocks checksum id entries ++
      (footerBlock checksum id total).toBlock :: after) = none := by
  induction entries generalizing count with
  | nil =>
    obtain ⟨count, rfl⟩ : ∃ less, count = less + 1 := ⟨count - 1, by simp at many; omega⟩
    cases after with
    | nil => rfl
    | cons block rest =>
      have far := distinct block rfl
      have differs : checksum block ≠ UInt32.ofNat total := by
        intro same
        rw [same, UInt32.toNat_ofNat', Nat.mod_eq_of_lt small] at far
        omega
      simp [entryBlocks, entriesOf, JournalFooter.checksum_asRecordHeader, footerBlock, differs]
  | cons entry rest ih =>
    obtain ⟨count, rfl⟩ : ∃ less, count = less + 1 := ⟨count - 1, by simp at many; omega⟩
    have later := ih (forall_mem_cons.mp inRange).2 count (by simpa using many)
    simp only [entryBlocks_cons, cons_append, entriesOf, later, map_none, ite_self]

variable {record : Record}

theorem recordOf_blocks (sound : record.Sound checksum sb) (after : List Block) :
    recordOf checksum (record.blocks checksum ++ after) =
      some (record.id, record.entries, after) := by
  have magic := journalMagic.toNat_lt
  have below := sound.belowMagic
  have small := sound.small
  have id : (UInt64.ofNat record.id).toNat = record.id := by
    rw [UInt64.toNat_ofNat', Nat.mod_eq_of_lt (by omega)]
  have count : (UInt32.ofNat record.entries.length).toNat = record.entries.length := by
    rw [UInt32.toNat_ofNat', Nat.mod_eq_of_lt (by omega)]
  have header : read (record.header checksum) =
      headerBlock checksum record.id record.timestamp record.entries.length :=
    read_toBlock _
  have valid : headerValid checksum (record.header checksum) = true := by
    simp [headerValid, Record.header, headerBlock]
  have footed : footerValid checksum (UInt64.ofNat record.id) (record.footer checksum) = true :=
    (footerValid_footerBlock _ _ _).mpr rfl
  have entries := entriesOf_entryBlocks checksum record.id sound.inRange record.entries.length
    le_rfl (record.footer checksum :: after)
  rw [take_length, drop_length] at entries
  rw [Record.blocks_eq, cons_append, append_assoc]
  simp only [recordOf, valid, ↓reduceIte, header, headerBlock, count, cons_append,
    nil_append, entries, entryBlocks_nil, footed, id]

/-- The scan finds a written record and goes on after it. -/
theorem Scan.blocks (sound : record.Sound checksum sb) (rest : Scan checksum after found) :
    Scan checksum (record.blocks checksum ++ after) ((record.id, record.entries) :: found) :=
  .record _ after record.id record.entries found (recordOf_blocks sound after) rest

/-- The scan passes over a block that fails the header check. -/
theorem Scan.pass {block : Block} (invalid : headerValid checksum block = false)
    (rest : Scan checksum after found) : Scan checksum (block :: after) found :=
  .skip block after found (by simp [recordOf, invalid]) rest

/-- A block before some written entries and their footer, taken for a header: either nothing
is found there, or exactly those entries under the footer's own id. -/
theorem recordOf_before_entries {total : Nat} (below : id < journalMagic.toNat)
    (inRange : ∀ entry ∈ entries, entry.1 < 2 ^ 64) (small : total < 2 ^ 32)
    (distinct : ∀ block ∈ after.head?, total < (checksum block).toNat) (block : Block) :
    recordOf checksum (block :: (entryBlocks checksum id entries ++
        (footerBlock checksum id total).toBlock :: after)) = none ∨
      recordOf checksum (block :: (entryBlocks checksum id entries ++
        (footerBlock checksum id total).toBlock :: after)) = some (id, entries, after) := by
  have magic := journalMagic.toNat_lt
  by_cases valid : headerValid checksum block = true
  · simp only [recordOf, valid, ↓reduceIte]
    generalize (read block).entryCount.toNat = count
    generalize (read block).txId = claimed
    rcases Nat.lt_trichotomy count entries.length with fewer | same | more
    · left
      rw [entriesOf_entryBlocks checksum id inRange count (by omega)]
      rw [drop_eq_getElem_cons fewer, entryBlocks_cons]
      simp [footerValid, JournalRecordHeader.magic_asFooter, recordHeader, ofNat_ne_magic below]
    · subst same
      rw [entriesOf_entryBlocks checksum id inRange _ le_rfl, take_length, drop_length]
      by_cases own : UInt64.ofNat id = claimed
      · right
        have value : claimed.toNat = id := by
          rw [← own, UInt64.toNat_ofNat', Nat.mod_eq_of_lt (by omega)]
        simp [footerValid_footerBlock, own, value]
      · left
        simp [footerValid_footerBlock, own]
    · left
      rw [entriesOf_past_footer id total inRange count more small distinct]
  · left
    simp [recordOf, valid]

/-- What the scan may report of a partly overwritten record, if there is one: nothing, or some
last entries of that record. -/
def Remnant (lost : List Record) (found : List (Nat × List (Nat × Block))) : Prop :=
  found = [] ∨ ∃ record entries,
    lost = [record] ∧ entries <:+ record.entries ∧ found = [(record.id, entries)]

/-- The blocks left of a record whose header was overwritten yield a remnant of it. -/
theorem Scan.remnant (sound : record.Sound checksum sb)
    (distinct : ∀ block ∈ after.head?, record.entries.length < (checksum block).toNat)
    (rest : Scan checksum after found) (part : entries <:+ record.entries) (cut : Nat) :
    ∃ remnant, Remnant [record] remnant ∧ Scan checksum
      ((entryBlocks checksum record.id entries ++ [record.footer checksum]).drop cut ++ after)
      (remnant ++ found) := by
  have below := sound.belowMagic
  have small : record.entries.length < 2 ^ 32 := by
    have bound := sound.small
    omega
  induction entries generalizing cut with
  | nil =>
    refine ⟨[], Or.inl rfl, ?_⟩
    cases cut with
    | zero => exact .pass (headerValid_footerBlock _ _ sound.sums.footerSum) rest
    | succ cut => simpa using rest
  | cons entry later ih =>
    have shorter : later <:+ record.entries := (suffix_cons entry later).trans part
    have inRange : ∀ entry ∈ later, entry.1 < 2 ^ 64 := fun other mem =>
      sound.inRange other (shorter.subset mem)
    have fromData : ∃ remnant, Remnant [record] remnant ∧ Scan checksum
        (entry.2 :: (entryBlocks checksum record.id later ++ record.footer checksum :: after))
        (remnant ++ found) := by
      rcases recordOf_before_entries below inRange small distinct entry.2 with none | read
      · obtain ⟨remnant, kind, scanned⟩ := ih shorter 0
        rw [drop_zero, append_assoc] at scanned
        exact ⟨remnant, kind, .skip _ _ _ none scanned⟩
      · exact ⟨[(record.id, later)], Or.inr ⟨record, later, rfl, shorter, rfl⟩,
          .record _ _ _ _ _ read rest⟩
    match cut with
    | 0 =>
      obtain ⟨remnant, kind, scanned⟩ := fromData
      refine ⟨remnant, kind, ?_⟩
      simpa [entryBlocks_cons] using Scan.pass (headerValid_recordHeader below entry) scanned
    | 1 => simpa [entryBlocks_cons] using fromData
    | cut + 2 => simpa [entryBlocks_cons] using ih shorter cut

end LionFS.Journal
