import LionFS.Journal.Scan

/-!
# The records a scan finds, and their replay

A ledger lists records in the order they were written: one that may be partly
overwritten, those of the previous lap of the journal, those of this lap. The
scan meets the records of this lap first. The replay table has them back in
writing order, because ids increase, and the replay writes a tail of that table.
So the replay repeats the last writes of the ledger, in their order.
-/
namespace LionFS.Journal
open List Assoc Prod
variable (checksum : Block → UInt32)

/-- The blocks of consecutive records. -/
def recordBlocks (records : List Record) : List Block :=
  records.flatMap (Record.blocks checksum)

@[simp] theorem recordBlocks_nil : recordBlocks checksum [] = [] := rfl

theorem recordBlocks_append (first second : List Record) :
    recordBlocks checksum (first ++ second) =
      recordBlocks checksum first ++ recordBlocks checksum second := by
  simp [recordBlocks]

@[simp] theorem recordBlocks_singleton (record : Record) :
    recordBlocks checksum [record] = record.blocks checksum :=
  flatMap_singleton _ _

/-- Writing order of two records. Records of one transaction share its id; only a record that
takes all but at most one block of the area is followed by another of its transaction. -/
def Precedes (sb : Superblock) (first second : Record) : Prop :=
  first.id < second.id ∨
    first.id = second.id ∧ sb.journalBlocks ≤ (first.blocks checksum).length + 1

/-- What the scan reports of a whole record. -/
def Record.report (record : Record) : Nat × List (Nat × Block) := (record.id, record.entries)

/-- The ids above a bound are the last ones of an ascending list. -/
theorem filter_ascending {ids : List Nat} (ascending : ids.Pairwise (· < ·)) (bound : Nat) :
    ∃ index, ids.filter (fun id => id > bound) = ids.drop index := by
  induction ids with
  | nil => exact ⟨0, rfl⟩
  | cons id rest ih =>
    rw [pairwise_cons] at ascending
    by_cases above : id > bound
    · refine ⟨0, ?_⟩
      refine filter_eq_self.mpr (forall_mem_cons.mpr ⟨decide_eq_true above, fun other later => ?_⟩)
      exact decide_eq_true (Nat.lt_trans above (ascending.1 other later))
    · obtain ⟨index, dropped⟩ := ih ascending.2
      refine ⟨index + 1, ?_⟩
      rw [filter_cons_of_neg (by simpa using above), dropped, drop_succ_cons]

/-- The replay writes the last records of the table. -/
theorem replayWrites_eq (sb : Superblock) {table : List (Nat × List (Nat × Block))}
    (ordered : Assoc.Ordered table) :
    ∃ index, replayWrites sb table = (table.drop index).flatMap snd := by
  obtain ⟨start, kept⟩ := filter_ascending (pairwise_map.mpr ordered) sb.generation
  have lookup (bindings : List (Nat × List (Nat × Block))) (inside : bindings ⊆ table) :
      (bindings.map fst).flatMap (fun id => (find id table).getD []) = bindings.flatMap snd := by
    rw [flatMap_map]
    refine flatMap_congr fun binding mem => ?_
    rw [find_of_mem ordered.nodup (inside mem)]
    rfl
  refine ⟨start + cutoff ((table.map fst).drop start)
    (((table.map fst).drop start).length - 1), ?_⟩
  unfold replayWrites replayIds
  simp only [kept]
  rw [drop_drop, ← map_drop, lookup _ (drop_subset _ _)]

/-- Records with ids up to the generation, found last, do not change the replay. -/
theorem replayWrites_stale (sb : Superblock) (fresh : List (Nat × List (Nat × Block)))
    {stale : List (Nat × List (Nat × Block))}
    (known : ∀ binding ∈ stale, binding.1 ≤ sb.generation) :
    replayWrites sb (txToReplay (fresh ++ stale)) = replayWrites sb (txToReplay fresh) := by
  obtain ⟨ordered, lookup⟩ := foldl_orInsert List.Pairwise.nil (fresh ++ stale)
  obtain ⟨ordered', lookup'⟩ := foldl_orInsert List.Pairwise.nil fresh
  have same : ∀ id, sb.generation < id →
      find id (txToReplay (fresh ++ stale)) = find id (txToReplay fresh) := by
    intro id above
    have absent : find id stale = none := find_eq_none.mpr fun binding mem same => by
      have low := known binding mem
      omega
    have both := lookup id
    rw [find_append, absent, Option.or_none] at both
    exact both.trans (lookup' id).symm
  have bound (table : List (Nat × List (Nat × Block))) (id : Nat) :
      id ∈ table.map fst ↔ find id table ≠ none := by
    rw [Ne, find_eq_none]
    simp
  have ids : replayIds sb (txToReplay (fresh ++ stale)) = replayIds sb (txToReplay fresh) := by
    have kept : ((txToReplay (fresh ++ stale)).map fst).filter (fun id => id > sb.generation) =
        ((txToReplay fresh).map fst).filter (fun id => id > sb.generation) := by
      refine List.Perm.eq_of_pairwise (fun a b _ _ ab ba => absurd ab (Nat.lt_asymm ba))
        ((pairwise_map.mpr ordered).filter _) ((pairwise_map.mpr ordered').filter _) ?_
      refine (perm_ext_iff_of_nodup (ordered.nodup.filter _) (ordered'.nodup.filter _)).mpr
        fun id => ?_
      rw [mem_filter, mem_filter]
      refine and_congr_left fun above => ?_
      have agree := same id (by simpa using above)
      exact (bound _ id).trans (agree ▸ (bound _ id).symm)
    unfold replayIds
    rw [kept]
  unfold replayWrites
  rw [ids]
  refine flatMap_congr fun id mem => ?_
  have above : sb.generation < id := by simpa using (mem_filter.mp (mem_of_mem_drop mem)).2
  rw [same id above]

theorem txToReplay_eq {found table : List (Nat × List (Nat × Block))}
    (ordered : Assoc.Ordered table) (same : ∀ id, find id found = find id table) :
    txToReplay found = table := by
  obtain ⟨kept, lookup⟩ := foldl_orInsert List.Pairwise.nil found
  refine Assoc.Ordered.ext kept ordered fun id => ?_
  exact (lookup id).trans (same id)

/-- Records in writing order, as a scan that meets this lap first finds them. -/
structure Ledger (sb : Superblock) where
  /-- The record whose header is overwritten, if any of its blocks are left. -/
  lost : List Record
  /-- Records of the previous lap that are still whole. -/
  old : List Record
  /-- Records of this lap. -/
  current : List Record
  /-- Records are listed in writing order. -/
  ordered : (lost ++ old ++ current).Pairwise (Precedes checksum sb)
  /-- The records of the previous lap fitted into the area together. -/
  lapFits : (recordBlocks checksum (lost ++ old)).length ≤ sb.journalBlocks
  /-- The whole records fit into the area together. -/
  wholeFits : (recordBlocks checksum (old ++ current)).length ≤ sb.journalBlocks
  /-- Every record is one that `commit` writes. -/
  sound : ∀ record ∈ lost ++ old ++ current, record.Sound checksum sb

namespace Ledger
variable {checksum} {sb : Superblock}

/-- Records that fit into the area together have strictly increasing ids: a record that shares
the id of a later one leaves no room for it. -/
theorem strict_ids {records : List Record} (ordered : records.Pairwise (Precedes checksum sb))
    (fitted : (recordBlocks checksum records).length ≤ sb.journalBlocks) :
    records.Pairwise fun first second => first.id < second.id := by
  induction records with
  | nil => exact List.Pairwise.nil
  | cons record records ih =>
    obtain ⟨first, later⟩ := pairwise_cons.mp ordered
    have split : (recordBlocks checksum (record :: records)).length =
        (record.blocks checksum).length + (recordBlocks checksum records).length := by
      simp [recordBlocks]
    refine pairwise_cons.mpr ⟨fun other mem => ?_, ih later (by omega)⟩
    rcases first other mem with less | ⟨_, large⟩
    · exact less
    · have room : (other.blocks checksum).length ≤ (recordBlocks checksum records).length :=
        (sublist_flatten_of_mem (mem_map.mpr ⟨other, mem, rfl⟩)).length_le
      have two := other.length_blocks checksum
      omega

/-- The records in writing order. -/
def records (ledger : Ledger checksum sb) : List Record :=
  ledger.lost ++ ledger.old ++ ledger.current

/-- The writes that the records hold, in writing order. -/
def writes (ledger : Ledger checksum sb) : List (Nat × Block) :=
  ledger.records.flatMap Record.entries

/-- What the scan reports, with the given remnant of the lost record. -/
def found (ledger : Ledger checksum sb) (remnant : List (Nat × List (Nat × Block))) :
    List (Nat × List (Nat × Block)) :=
  ledger.current.map Record.report ++ (remnant ++ ledger.old.map Record.report)

variable {remnant : List (Nat × List (Nat × Block))}

theorem writes_suffix {ledger : Ledger checksum sb} {records : List Record}
    (part : ledger.records <:+ records) : ledger.writes <:+ records.flatMap Record.entries := by
  obtain ⟨front, whole⟩ := part
  refine ⟨front.flatMap Record.entries, ?_⟩
  rw [writes, ← flatMap_append, whole]

/-- The whole records by ascending id. -/
def table (ledger : Ledger checksum sb) : List (Nat × List (Nat × Block)) :=
  (ledger.old ++ ledger.current).map Record.report

section
variable (ledger : Ledger checksum sb)
include ledger

/-- The whole records have strictly increasing ids. -/
theorem ordered_table : Assoc.Ordered ledger.table := by
  have ordered := ledger.ordered
  rw [append_assoc] at ordered
  exact pairwise_map.mpr (strict_ids (ordered.sublist (sublist_append_right _ _)) ledger.wholeFits)

/-- A lost record has a lower id than every whole record, or the id of one of this lap. -/
theorem lost_before {record : Record} (lost : ledger.lost = [record])
    (unlike : ∀ other ∈ ledger.current, other.id ≠ record.id) :
    ∀ other ∈ ledger.old ++ ledger.current, record.id < other.id := by
  have ordered := ledger.ordered
  have fitted := ledger.lapFits
  rw [lost] at ordered fitted
  have front := strict_ids (ordered.sublist (sublist_append_left _ _)) fitted
  rw [append_assoc, singleton_append, pairwise_cons] at ordered
  rw [singleton_append, pairwise_cons] at front
  intro other mem
  rcases mem_append.mp mem with old | current
  · exact front.1 other old
  · rcases ordered.1 other mem with less | ⟨same, _⟩
    · exact less
    · exact absurd same.symm (unlike other current)

/-- The replay table: the whole records, behind the remnant unless a record of this lap has
its id. -/
theorem txToReplay_found (kind : Remnant ledger.lost remnant) :
    ∃ kept, Remnant ledger.lost kept ∧ Assoc.Ordered (kept ++ ledger.table) ∧
      txToReplay (ledger.found remnant) = kept ++ ledger.table := by
  have perm : ledger.table.Perm
      (ledger.current.map Record.report ++ ledger.old.map Record.report) := by
    rw [table, map_append]
    exact perm_append_comm
  have whole (id : Nat) : find id (ledger.current.map Record.report ++
      ledger.old.map Record.report) = find id ledger.table :=
    (find_perm perm ledger.ordered_table.nodup).symm
  rcases kind with rfl | ⟨record, entries, lost, part, rfl⟩
  · exact ⟨[], Or.inl rfl, ledger.ordered_table, txToReplay_eq ledger.ordered_table whole⟩
  · by_cases shared : ∃ other ∈ ledger.current, other.id = record.id
    · refine ⟨[], Or.inl rfl, ledger.ordered_table, txToReplay_eq ledger.ordered_table fun id => ?_⟩
      obtain ⟨other, mem, same⟩ := shared
      have bound : find record.id (ledger.current.map Record.report) ≠ none := fun absent =>
        find_eq_none.mp absent _ (mem_map.mpr ⟨other, mem, rfl⟩) same
      rw [nil_append, ← whole, found, find_append, find_append, find_append]
      by_cases own : id = record.id
      · subst own
        obtain ⟨value, first⟩ := Option.ne_none_iff_exists'.mp bound
        rw [first, Option.some_or, Option.some_or]
      · simp [find, Ne.symm own]
    · have before := ledger.lost_before lost fun other mem same =>
        shared ⟨other, mem, same⟩
      have ordered : Assoc.Ordered ([(record.id, entries)] ++ ledger.table) := by
        refine pairwise_cons.mpr ⟨fun binding mem => ?_, ledger.ordered_table⟩
        obtain ⟨other, inside, rfl⟩ := mem_map.mp mem
        exact before other inside
      refine ⟨_, Or.inr ⟨record, entries, lost, part, rfl⟩, ordered,
        txToReplay_eq ordered fun id => ?_⟩
      refine (find_perm ?_ ordered.nodup).symm
      rw [table, found, map_append, ← append_assoc]
      exact perm_append_comm

theorem table_writes {kept : List (Nat × List (Nat × Block))} (kind : Remnant ledger.lost kept) :
    (kept ++ ledger.table).flatMap snd <:+ ledger.writes := by
  have whole : ledger.table.flatMap snd =
      (ledger.old ++ ledger.current).flatMap Record.entries := by
    rw [table, flatMap_map]
    rfl
  have split : ledger.writes = ledger.lost.flatMap Record.entries ++
      (ledger.old ++ ledger.current).flatMap Record.entries := by
    simp [writes, records]
  rw [flatMap_append, whole, split]
  rcases kind with rfl | ⟨record, entries, lost, ⟨front, cut⟩, rfl⟩
  · exact suffix_append _ _
  · refine ⟨front, ?_⟩
    rw [lost, flatMap_singleton, flatMap_singleton, ← cut, append_assoc]

/-- The replay above any generation writes the last of the ledger's writes. -/
theorem replay (kind : Remnant ledger.lost remnant) (picked : Superblock) :
    replayWrites picked (txToReplay (ledger.found remnant)) <:+ ledger.writes := by
  obtain ⟨kept, kind', ordered, same⟩ := ledger.txToReplay_found kind
  obtain ⟨index, written⟩ := replayWrites_eq picked ordered
  rw [same, written]
  refine List.IsSuffix.trans ?_ (ledger.table_writes kind')
  refine ⟨((kept ++ ledger.table).take index).flatMap snd, ?_⟩
  rw [← flatMap_append, take_append_drop]

end
end Ledger
end LionFS.Journal
