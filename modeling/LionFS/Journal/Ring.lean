import LionFS.Journal.Ledger

/-!
# The journal as a ring of records

As long as no record straddles the end of the area, the area reads: blocks before
the first record, the records of this lap, what is left of the record the next one
cuts into, and the records of the previous lap that are still whole. In the first
lap of a mount the journal of earlier mounts lies behind the records; its ids are
not above the generation. `Ring` holds that reading, over the ledger of its
records. A record may be appended where it fits, and the position returns to zero
at the end of the area; both keep the records in writing order.
-/
namespace LionFS.Journal
open List
variable (checksum : Block → UInt32)

/-- No record with an id above the generation can be read in these blocks. -/
def Stale (sb : Superblock) (blocks : List Block) : Prop :=
  ∀ index id entries after, recordOf checksum (blocks.drop index) = some (id, entries, after) →
    id ≤ sb.generation

/-- What lies between the records of this lap and the whole ones of the previous lap: blocks
that pass for no header, the rest of a record whose header is overwritten, or, with nothing
behind it, the journal of earlier mounts. -/
inductive Leftover (sb : Superblock) : List Block → List Record → List Record → Prop where
  | blank (blocks : List Block) (old : List Record)
      (unreadable : ∀ block ∈ blocks, headerValid checksum block = false) :
      Leftover sb blocks [] old
  | tail (record : Record) (cut : Nat) (old : List Record) :
      Leftover sb ((record.blocks checksum).drop (cut + 1)) [record] old
  | stale (blocks : List Block) (known : Stale checksum sb blocks) : Leftover sb blocks [] []

variable {checksum} {sb : Superblock} {lost old : List Record}

theorem Stale.drop {blocks : List Block} (known : Stale checksum sb blocks) (count : Nat) :
    Stale checksum sb (blocks.drop count) := by
  intro index id entries after read
  rw [drop_drop] at read
  exact known _ id entries after read

theorem Stale.cons {block : Block} {blocks : List Block}
    (first : ∀ id entries after, recordOf checksum (block :: blocks) = some (id, entries, after) →
      id ≤ sb.generation) (rest : Stale checksum sb blocks) :
    Stale checksum sb (block :: blocks) := by
  intro index
  cases index with
  | zero => exact first
  | succ index => exact rest index

/-- Blocks that pass for no header start no record. -/
theorem Stale.blank {blocks : List Block}
    (unreadable : ∀ block ∈ blocks, headerValid checksum block = false) :
    Stale checksum sb blocks := by
  induction blocks with
  | nil =>
    intro index id entries after read
    simp [recordOf] at read
  | cons block blocks ih =>
    refine .cons (fun id entries after read => ?_) (ih (forall_mem_cons.mp unreadable).2)
    simp [recordOf, unreadable block mem_cons_self] at read

/-- A leftover cut further is still a leftover of the same record. -/
theorem Leftover.drop {blocks : List Block} (left : Leftover checksum sb blocks lost old)
    (count : Nat) : Leftover checksum sb (blocks.drop count) lost old := by
  cases left with
  | blank _ _ unreadable =>
    exact .blank _ _ fun block mem => unreadable block (mem_of_mem_drop mem)
  | tail record cut =>
    rw [drop_drop, show cut + 1 + count = cut + count + 1 by omega]
    exact .tail record (cut + count) _
  | stale _ known => exact .stale _ (known.drop count)

/-- Overwriting the start of whole records leaves a leftover and whole records, the last ones
of those before. -/
theorem overwrite_records (records : List Record) (count : Nat) :
    ∃ leftover lost whole, (recordBlocks checksum records).drop count =
        leftover ++ recordBlocks checksum whole ∧
      Leftover checksum sb leftover lost whole ∧ lost ++ whole <:+ records := by
  have wiped (whole : List Record) : Leftover checksum sb [] [] whole :=
    .blank [] whole fun block mem => absurd mem not_mem_nil
  induction records generalizing count with
  | nil => exact ⟨[], [], [], by simp [recordBlocks], wiped _, nil_suffix⟩
  | cons record older ih =>
    change ∃ leftover lost whole, (record.blocks checksum ++
      recordBlocks checksum older).drop count = _ ∧ _
    cases count with
    | zero => exact ⟨[], [], record :: older, rfl, wiped _, suffix_rfl⟩
    | succ count =>
      by_cases part : count + 1 ≤ (record.blocks checksum).length
      · refine ⟨(record.blocks checksum).drop (count + 1), [record], older, ?_,
          .tail record count _, suffix_rfl⟩
        rw [drop_append_of_le_length part]
      · obtain ⟨extra, past⟩ : ∃ extra, count + 1 = (record.blocks checksum).length + extra :=
          ⟨count + 1 - (record.blocks checksum).length, by omega⟩
        obtain ⟨leftover, lost, whole, blocks, left, tail⟩ := ih extra
        refine ⟨leftover, lost, whole, ?_, left, tail.trans (suffix_cons record older)⟩
        rw [past, drop_length_add_append]
        exact blocks

variable {leftover : List Block}

/-- Overwriting the start of leftover blocks and whole records leaves leftover blocks and
whole records, the last ones of those before. -/
theorem Leftover.overwrite (left : Leftover checksum sb leftover lost old) (count : Nat) :
    ∃ leftover' lost' old', (leftover ++ recordBlocks checksum old).drop count =
        leftover' ++ recordBlocks checksum old' ∧
      Leftover checksum sb leftover' lost' old' ∧ lost' ++ old' <:+ lost ++ old := by
  by_cases mem : count ≤ leftover.length
  · refine ⟨leftover.drop count, lost, old, ?_, left.drop count, suffix_rfl⟩
    rw [drop_append_of_le_length mem]
  · obtain ⟨more, rfl⟩ : ∃ more, count = leftover.length + more :=
      ⟨count - leftover.length, by omega⟩
    obtain ⟨leftover', lost', old', blocks, left', tail⟩ := overwrite_records old more
    refine ⟨leftover', lost', old', ?_, left', tail.trans (suffix_append lost old)⟩
    rw [drop_length_add_append, blocks]

variable {found : List (Nat × List (Nat × Block))} {after : List Block}

/-- The scan passes over blocks that fail the header check. -/
theorem Scan.blank {blank : List Block}
    (unreadable : ∀ block ∈ blank, headerValid checksum block = false)
    (rest : Scan checksum after found) : Scan checksum (blank ++ after) found := by
  induction blank with
  | nil => exact rest
  | cons block blank ih =>
    exact .pass (unreadable block mem_cons_self) (ih (forall_mem_cons.mp unreadable).2)

/-- A scan of the journal of earlier mounts finds ids up to the generation only. -/
theorem Stale.scan {blocks : List Block} (known : Stale checksum sb blocks) :
    ∃ found, Scan checksum blocks found ∧ ∀ binding ∈ found, binding.1 ≤ sb.generation := by
  -- A record may be long, so the induction is on the number of blocks.
  induction size : blocks.length using Nat.strong_induction_on generalizing blocks with
  | _ _ ih =>
    subst size
    cases blocks with
    | nil => exact ⟨[], .nil, forall_mem_nil _⟩
    | cons block rest =>
      cases read : recordOf checksum (block :: rest) with
      | none =>
        obtain ⟨found, scanned, low⟩ := ih rest.length (Nat.lt_succ_self _) (known.drop 1) rfl
        exact ⟨found, .skip _ _ _ read scanned, low⟩
      | some result =>
        obtain ⟨id, entries, after⟩ := result
        obtain ⟨count, spot, shorter⟩ := recordOf_rest read
        obtain ⟨found, scanned, low⟩ := ih after.length shorter (spot ▸ known.drop _) rfl
        exact ⟨(id, entries) :: found, .record _ _ _ _ _ read scanned,
          forall_mem_cons.mpr ⟨known 0 id entries after read, low⟩⟩

theorem Scan.records {records : List Record} (sound : ∀ record ∈ records, record.Sound checksum sb)
    (rest : Scan checksum after found) : Scan checksum (recordBlocks checksum records ++ after)
      (records.map Record.report ++ found) := by
  induction records with
  | nil => exact rest
  | cons record records ih =>
    have later := ih (forall_mem_cons.mp sound).2
    have here := Scan.blocks (sound record mem_cons_self) later
    simpa [recordBlocks, Record.report] using here

/-- What the scan reports between the records of the two laps: a remnant of the lost record, or
with nothing behind it records of earlier mounts. -/
def Between (sb : Superblock) (lost old : List Record)
    (remnant : List (Nat × List (Nat × Block))) : Prop :=
  Remnant lost remnant ∨
    lost = [] ∧ old = [] ∧ ∀ binding ∈ remnant, binding.1 ≤ sb.generation

/-- The scan of a leftover and the records behind it. -/
theorem Leftover.scan (left : Leftover checksum sb leftover lost old)
    (sound : ∀ record ∈ lost ++ old, record.Sound checksum sb) :
    ∃ remnant, Between sb lost old remnant ∧
      Scan checksum (leftover ++ recordBlocks checksum old)
        (remnant ++ old.map Record.report) := by
  have whole : ∀ record ∈ old, record.Sound checksum sb := fun record mem =>
    sound record (mem_append_right _ mem)
  have back : Scan checksum (recordBlocks checksum old) (old.map Record.report) := by
    simpa using Scan.records whole .nil
  cases left with
  | blank _ _ unreadable => exact ⟨[], .inl (.inl rfl), .blank unreadable back⟩
  | tail record cut =>
    have own := sound record (mem_append_left _ (mem_singleton_self record))
    -- The block after a leftover, if any, is a header, whose checksum is not a record count.
    have head : ∀ block ∈ (recordBlocks checksum old).head?,
        record.entries.length < (checksum block).toNat := by
      cases old with
      | nil => simp
      | cons next rest =>
        rintro _ ⟨⟩
        exact Nat.lt_of_le_of_lt own.bounded (whole next mem_cons_self).sums.headerSum
    obtain ⟨remnant, kind, scanned⟩ := Scan.remnant own head back suffix_rfl cut
    exact ⟨remnant, .inl kind, scanned⟩
  | stale _ known =>
    obtain ⟨found, scanned, low⟩ := known.scan
    exact ⟨found, .inr ⟨rfl, rfl, low⟩, by simpa using scanned⟩

variable (checksum) in
/-- The journal area, read as a ring of records. -/
structure Ring (sb : Superblock) extends Ledger checksum sb where
  /-- Blocks at the start of the area before the first record. -/
  blank : List Block
  /-- Blocks after the next position that belong to no whole record. -/
  leftover : List Block
  /-- These pass for no header. -/
  unreadable : ∀ block ∈ blank, headerValid checksum block = false
  /-- The leftover blocks are what is left of the lost record, or older than the generation. -/
  rest : Leftover checksum sb leftover lost old
  /-- The reading covers the area. -/
  size : (blank ++ recordBlocks checksum current ++ (leftover ++ recordBlocks checksum old)).length
    = sb.journalBlocks

namespace Ring
variable (ring : Ring checksum sb)

/-- The blocks of the area. -/
def blocks : List Block :=
  ring.blank ++ recordBlocks checksum ring.current ++
    (ring.leftover ++ recordBlocks checksum ring.old)

/-- Where the next record starts. -/
def next : Nat :=
  (ring.blank ++ recordBlocks checksum ring.current).length

/-- The next position is inside the area or at its end. -/
theorem next_le : ring.next ≤ sb.journalBlocks := by
  have size := ring.size
  rw [length_append] at size
  unfold next
  omega

/-- A journal with records of earlier mounts behind the next position only is a ring without
records. -/
def empty (blocks : List Block) (start : Nat) (size : blocks.length = sb.journalBlocks)
    (unreadable : ∀ block ∈ blocks.take start, headerValid checksum block = false)
    (known : Stale checksum sb (blocks.drop start)) : Ring checksum sb where
  blank := blocks.take start
  current := []
  leftover := blocks.drop start
  lost := []
  old := []
  unreadable := unreadable
  rest := .stale _ known
  ordered := List.Pairwise.nil
  lapFits := Nat.zero_le _
  wholeFits := Nat.zero_le _
  sound := forall_mem_nil _
  size := by simpa [recordBlocks] using size

/-- At the end of the area the records of this lap become those of the previous one. -/
theorem wrap (full : ring.next = sb.journalBlocks) :
    ∃ ring' : Ring checksum sb, ring'.blocks = ring.blocks ∧ ring'.next = 0 ∧
      ring'.records <:+ ring.records := by
  have size := ring.size
  rw [length_append] at size
  have spent : ring.leftover ++ recordBlocks checksum ring.old = [] := by
    apply eq_nil_of_length_eq_zero
    unfold next at full
    omega
  have part : ring.current <:+ ring.lost ++ ring.old ++ ring.current := suffix_append _ _
  have fits : (recordBlocks checksum ring.current).length ≤ sb.journalBlocks := by
    have bound := ring.next_le
    simp only [next, length_append] at bound
    omega
  refine ⟨{ blank := [], current := [], leftover := ring.blank, lost := [], old := ring.current
            unreadable := forall_mem_nil _
            rest := .blank _ _ ring.unreadable
            ordered := ?_, lapFits := fits, wholeFits := ?_, sound := ?_, size := ?_ },
    ?_, rfl, ?_⟩
  · rw [append_nil, nil_append]
    exact ring.ordered.sublist part.sublist
  · rw [append_nil]
    exact fits
  · intro record mem
    rw [append_nil, nil_append] at mem
    exact ring.sound record (part.subset mem)
  · simpa [recordBlocks, next] using full
  · simp only [blocks, spent, recordBlocks_nil, append_nil, nil_append]
  · simpa [Ledger.records] using part

/-- The position inside the area is the position of a ring with the same blocks. -/
theorem normal : ∃ ring' : Ring checksum sb,
    ring'.blocks = ring.blocks ∧ ring'.next = ring.next % sb.journalBlocks ∧
      ring'.records <:+ ring.records := by
  rcases Nat.lt_or_eq_of_le ring.next_le with mem | full
  · exact ⟨ring, rfl, (Nat.mod_eq_of_lt mem).symm, suffix_rfl⟩
  · obtain ⟨ring', same, zero, part⟩ := ring.wrap full
    exact ⟨ring', same, by rw [zero, full, Nat.mod_self], part⟩

theorem take_next : ring.blocks.take ring.next = ring.blank ++ recordBlocks checksum ring.current :=
  take_left

theorem cut (count : Nat) : ∃ (leftover : List Block) (ledger : Ledger checksum sb),
      ring.blocks.drop (ring.next + count) = leftover ++ recordBlocks checksum ledger.old ∧
      Leftover checksum sb leftover ledger.lost ledger.old ∧ ledger.current = ring.current ∧
      ledger.lost ++ ledger.old <:+ ring.lost ++ ring.old := by
  obtain ⟨leftover, lost, old, blocks, rest, tail⟩ := ring.rest.overwrite count
  have whole := tail
  obtain ⟨front, split⟩ := tail
  have part : lost ++ old ++ ring.current <:+ ring.records :=
    ⟨front, by rw [Ledger.records, ← split]; simp⟩
  have lap := ring.lapFits
  have size := ring.size
  have remaining := congrArg length blocks
  rw [← split, recordBlocks_append, length_append] at lap
  simp only [length_append, length_drop] at size remaining
  refine ⟨leftover, { lost := lost, old := old, current := ring.current
                      ordered := ring.ordered.sublist part.sublist
                      lapFits := by omega
                      wholeFits := by
                        rw [recordBlocks_append, length_append]
                        omega
                      sound := fun record mem => ring.sound record (part.subset mem) },
    ?_, rest, rfl, whole⟩
  rw [← blocks]
  exact drop_length_add_append _

theorem records_cut {ring : Ring checksum sb} {ledger : Ledger checksum sb}
    (current : ledger.current = ring.current)
    (part : ledger.lost ++ ledger.old <:+ ring.lost ++ ring.old) :
    ledger.records <:+ ring.records := by
  obtain ⟨front, split⟩ := part
  exact ⟨front, by rw [Ledger.records, Ledger.records, ← split, current]; simp⟩

theorem append (record : Record) (sound : record.Sound checksum sb)
    (newest : ∀ earlier ∈ ring.records, Precedes checksum sb earlier record)
    (fits : ring.next + (record.blocks checksum).length ≤ sb.journalBlocks) :
    ∃ ring' : Ring checksum sb,
      ring'.blocks = ring.blocks.take ring.next ++ record.blocks checksum ++
        ring.blocks.drop (ring.next + (record.blocks checksum).length) ∧
      ring'.next = ring.next + (record.blocks checksum).length ∧
      ring'.current = ring.current ++ [record] ∧ ring'.records <:+ ring.records ++ [record] := by
  obtain ⟨leftover, ledger, back, rest, current, tail⟩ := ring.cut (record.blocks checksum).length
  have part : ledger.lost ++ ledger.old ++ (ring.current ++ [record]) <:+
      ring.records ++ [record] := by
    obtain ⟨front, whole⟩ := records_cut current tail
    exact ⟨front, by rw [← whole, Ledger.records, current]; simp⟩
  have ordered : (ring.records ++ [record]).Pairwise (Precedes checksum sb) := by
    refine pairwise_append.mpr ⟨ring.ordered, pairwise_singleton _ _, ?_⟩
    intro earlier mem other last
    rw [mem_singleton] at last
    exact last ▸ newest earlier mem
  have front := ring.take_next
  have size : ring.blocks.length = sb.journalBlocks := ring.size
  have remaining := congrArg length back
  simp only [length_append, length_drop, size] at remaining
  have next : ring.next = ring.blank.length + (recordBlocks checksum ring.current).length :=
    length_append
  refine ⟨{ blank := ring.blank, current := ring.current ++ [record], leftover := leftover
            lost := ledger.lost, old := ledger.old, unreadable := ring.unreadable, rest := rest
            ordered := ordered.sublist part.sublist
            lapFits := ledger.lapFits
            wholeFits := ?_, sound := ?_, size := ?_ }, ?_, ?_, rfl, part⟩
  · simp only [recordBlocks_append, length_append, recordBlocks_singleton]
    omega
  · have all := forall_mem_append.mpr ⟨ring.sound, forall_mem_singleton.mpr sound⟩
    exact fun other mem => all other (part.subset mem)
  · simp only [recordBlocks_append, length_append, recordBlocks_singleton]
    omega
  · rw [front, back]
    simp only [Ring.blocks, recordBlocks_append, recordBlocks_singleton, append_assoc]
  · simp only [Ring.next, recordBlocks_append, recordBlocks_singleton, length_append]
    omega

theorem scan_front (rest : Scan checksum after found) :
    Scan checksum (ring.blocks.take ring.next ++ after)
      (ring.current.map Record.report ++ found) := by
  have current : ∀ record ∈ ring.current, record.Sound checksum sb := fun record mem =>
    ring.sound record (by simp [mem])
  rw [ring.take_next, append_assoc]
  exact .blank ring.unreadable (.records current rest)

theorem scan : ∃ remnant, Between sb ring.lost ring.old remnant ∧
    Scan checksum ring.blocks (ring.found remnant) := by
  obtain ⟨remnant, kind, back⟩ := ring.rest.scan fun record mem =>
    ring.sound record (mem_append_left _ mem)
  have whole := ring.scan_front back
  rw [ring.take_next] at whole
  exact ⟨remnant, kind, whole⟩

end Ring
end LionFS.Journal
