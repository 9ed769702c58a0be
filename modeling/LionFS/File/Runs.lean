import LionFS.File.Content

/-!
# Writing several runs

`write_file_runs` writes the data of all runs first and records the checksums at
its end, one for each logical block that was written, from what it had noted
(`deferred_csums`). Between the two the records of the inode may be stale, but
what is noted matches the blocks; so the image is whole again when the call
returns.
-/
namespace LionFS.File
open Run List Assoc SpillStore

/-- What is noted matches the mapped blocks, and the blocks without a note verify. -/
structure Work.Defers (outside : Outside SpillStore) (work : Work SpillStore)
    (deferred : Deferred) : Prop where
  ordered : Assoc.Ordered deferred
  noted : ∀ logical physical entry, work.Maps logical physical →
    find logical deferred = some entry → work.disk.blocks physical = entry.2
  rest : ∀ logical physical, work.Maps logical physical → find logical deferred = none →
    work.verifies outside logical physical = true

/-- What the loop over one run notes, up to the next block to be written. -/
structure Noted (start : Work SpillStore) (offset next : Nat) (before deferred : Deferred)
    (now : Work SpillStore) : Prop where
  ordered : Assoc.Ordered deferred
  checksums : now.disk.checksums = start.disk.checksums
  others : ∀ logical, ¬ Touched offset next logical →
    find logical deferred = find logical before
  written : ∀ logical, Touched offset next logical → ∀ physical, now.Maps logical physical →
    ∃ entry, find logical deferred = some entry ∧ now.disk.blocks physical = entry.2

/-- What recording the notes does. -/
structure Work.RecordsAll (outside : Outside SpillStore) (deferred : Deferred)
    (work next : Work SpillStore) : Prop where
  carries : work.Carries next
  inode : next.inode = work.inode
  maps : ∀ logical physical, next.Maps logical physical ↔ work.Maps logical physical
  blocks : next.disk.blocks = work.disk.blocks
  dedupe : next.disk.dedupe = work.disk.dedupe
  others : ∀ key, (∀ binding ∈ deferred, key ≠ checksumKey work.inode.ino binding.1) →
    next.disk.checksums.bind (find key) = work.disk.checksums.bind (find key)
  noted : ∀ binding ∈ deferred, ∀ value, next.record binding.1 = some value →
    value.checksumBytes = outside.digest binding.2.2

section Deferring
variable {outside : Outside SpillStore} {foreign : Nat → Prop} {files : Files}
  {start now mid after work next : Work SpillStore} {lastBlock localityHint : Option Nat}
  {ino offset logicalBlock : Nat} {data : Slice} {placed : Placed} {before deferred : Deferred}

/-- The loop over a run starts with the notes of the runs before. -/
theorem Noted.init (ordered : Assoc.Ordered deferred) :
    Noted start offset (offset / blockSize) deferred deferred start := by
  constructor
  · exact ordered
  · rfl
  · exact fun _ _ => rfl
  · intro lba touched
    unfold Touched at touched
    omega

theorem Noted.step (noted : Noted start offset logicalBlock before deferred now)
    (prog : Progress outside foreign start lastBlock offset data logicalBlock now)
    (behind : offset / blockSize ≤ logicalBlock)
    (step : ChunkPlaced outside now lastBlock data (pieceIn offset data.length logicalBlock) placed
      mid) :
    Noted start offset (logicalBlock + 1) before
      (insert logicalBlock (placed.block, placed.page) deferred) mid := by
  constructor
  · exact noted.ordered.insert _ _
  · exact step.checksums.trans noted.checksums
  · intro lba untouched
    obtain ⟨earlier, apart⟩ := not_or.mp fun either => untouched ((touched_succ behind).mpr either)
    rw [find_insert, if_neg apart]
    exact noted.others lba earlier
  · intro lba touched pba maps
    rcases (touched_succ behind).mp touched with earlier | rfl
    · have apart : lba ≠ logicalBlock := by
        unfold Touched at earlier
        omega
      have old := step.maps_of_lt earlier.2 maps
      obtain ⟨entry, found, held⟩ := noted.written lba earlier pba old
      refine ⟨entry, ?_, ?_⟩
      · rw [find_insert, if_neg apart]
        exact found
      · rw [prog.untouched step apart old]
        exact held
    · refine ⟨(placed.block, placed.page), by rw [find_insert, if_pos rfl], ?_⟩
      have same := step.carries.reshaped.sound.tidy.functional maps step.here
      rw [same]
      exact step.held

theorem deferChunks_spec {count : Nat}
    (prog : Progress outside foreign start lastBlock offset data logicalBlock now)
    (noted : Noted start offset logicalBlock before deferred now)
    (behind : offset / blockSize ≤ logicalBlock)
    (reaches : ∀ last, lastBlock = some last → logicalBlock + count ≤ last + 1) :
    wp (deferChunks operations outside lastBlock data localityHint deferred
        ((range' logicalBlock count).map (pieceIn offset data.length)))
      (fun result after => after.Moved ∨
        Progress outside foreign start lastBlock offset data (logicalBlock + count) after ∧
          Noted start offset (logicalBlock + count) before result.2 after)
      anyhow now := by
  induction count generalizing logicalBlock now localityHint deferred with
  | zero => exact .inr ⟨prog, noted⟩
  | succ count ih =>
    rw [range'_succ, map_cons,
      show logicalBlock + (count + 1) = logicalBlock + 1 + count by omega]
    unfold deferChunks
    have ready := prog.ready behind fun last is_last => by
      have bound := reaches last is_last
      omega
    refine wp_bind_or (placeChunk_spec prog.owned ready) ?_ ?_
    · rintro placed mid ⟨mid_owned, step⟩
      refine ih (prog.step step behind mid_owned) (noted.step prog behind step) (by omega)
        fun last is_last => ?_
      have bound := reaches last is_last
      omega
    · intro placed mid moved
      exact keeps_deferChunks Work.stable_moved _ _ _ _ _ _ mid moved

/-- When a run is written, the notes match again. -/
theorem Work.Defers.noted_run (defers : start.Defers outside before)
    (prog : Complete outside foreign start offset data mid)
    (noted : Noted start offset (endBlock offset data.length) before deferred mid) (size : Nat) :
    (mid.sized size).Defers outside deferred := by
  constructor
  · exact noted.ordered
  · intro lba pba entry maps found
    by_cases touched : Touched offset (endBlock offset data.length) lba
    · obtain ⟨other, also_found, held⟩ := noted.written lba touched pba maps
      have same : entry = other := Option.some.inj (found.symm.trans also_found)
      rw [same]
      exact held
    · rw [noted.others lba touched] at found
      have old := (prog.maps_iff touched pba).mp maps
      exact (prog.quiet lba touched pba maps).trans (defers.noted lba pba entry old found)
  · intro lba pba maps absent
    by_cases touched : Touched offset (endBlock offset data.length) lba
    · obtain ⟨entry, found, -⟩ := noted.written lba touched pba maps
      cases absent.symm.trans found
    · rw [noted.others lba touched] at absent
      have old := (prog.maps_iff touched pba).mp maps
      rw [← defers.rest lba pba old absent]
      refine Work.verifies_congr ?_ (prog.quiet lba touched pba maps)
      show mid.disk.checksums.bind (find (checksumKey mid.inode.ino lba)) = _
      rw [noted.checksums, prog.carries.reshaped.fields.1]
      rfl

theorem Files.put_put (files : Files) (ino : Nat) (one two : Work SpillStore) :
    (files.put ino one).put ino two = files.put ino two := by
  unfold Files.put
  rw [Function.update_idem]

theorem Files.put_work (files : Files) (ino : Nat) : files.put ino (files.work ino) = files := by
  unfold Files.put Files.work
  rw [Function.update_eq_self]

/-- The data part of `write_file_runs` keeps the image whole but for the records of the inode, for
which it has notes. -/
theorem deferRuns_spec {runs : List (Nat × Slice)} (but : files.WholeBut outside ino)
    (defers : (files.work ino).Defers outside deferred) :
    wp (deferRuns operations outside localityHint deferred runs)
      (fun deferred next => next.Moved ∨ (files.put ino next).WholeBut outside ino ∧
        next.Defers outside deferred)
      anyhow (files.work ino) := by
  induction runs generalizing files localityHint deferred with
  | nil =>
    refine .inr ⟨?_, defers⟩
    rw [files.put_work]
    exact but
  | cons run rest ih =>
    obtain ⟨startBlock, data⟩ := run
    unfold deferRuns
    rw [wp_bind, wp_get]
    dsimp only
    rw [chunks_eq]
    have owned := but.sound.owned ino
    have behind := le_endBlock (startBlock * blockSize) data.length
    refine wp_bind_or (deferChunks_spec (Progress.init owned but.indexed ?_)
      (Noted.init defers.ordered) le_rfl ?_) ?_ ?_
    · intro last is_last first second low order _ hole pba
      exact (but.within ino).holes is_last low order hole pba
    · intro last is_last
      have ends := endBlock_of_appendBlock is_last
      omega
    · rintro ⟨hint, noted_deferred⟩ mid ⟨prog, noted⟩
      rw [Nat.add_sub_cancel' behind] at prog noted
      dsimp only at noted ⊢
      rw [wp_bind, wp_extendSize, prog.carries.reshaped.fields.2.1]
      have spares := Complete.spares but prog fun other _ lba => by rw [noted.checksums]; rfl
      have later := @ih (files.put ino _) hint noted_deferred (but.put spares) (by
        rw [files.work_put_self]
        exact defers.noted_run prog noted _)
      rw [files.work_put_self] at later
      refine wp_imp later (fun _ next done => ?_)
      rw [files.put_put] at done
      exact done
    · intro result mid moved
      exact ((keeps_extendSize Work.stable_moved _).bind fun _ =>
        keeps_deferRuns Work.stable_moved _ _ _ _) mid moved

theorem storeDeferred_spec (owned : work.Owned foreign) (ordered : Assoc.Ordered deferred) :
    wp (Run.each deferred fun binding =>
        storeBlockChecksum operations outside binding.1 binding.2.1 binding.2.2)
      (fun _ next => next.Owned foreign ∧ work.RecordsAll outside deferred next)
      anyhow work := by
  induction deferred generalizing work with
  | nil =>
    refine ⟨owned, owned.carries, rfl, fun _ _ => Iff.rfl, rfl, rfl, fun _ _ => rfl, ?_⟩
    exact fun binding mem => nomatch mem
  | cons first rest ih =>
    obtain ⟨first_least, rest_ordered⟩ := pairwise_cons.mp ordered
    unfold Run.each
    refine wp_seq (storeBlockChecksum_spec owned _ _ _) ?_
    rintro _ mid ⟨mid_owned, records⟩
    refine wp_imp (ih mid_owned rest_ordered) ?_
    rintro _ next ⟨next_owned, all⟩
    refine ⟨next_owned, ?_⟩
    constructor
    · exact records.carries.trans all.carries
    · rw [all.inode, records.inode]
    · exact fun lba pba => (all.maps _ _).trans (records.maps _ _)
    · rw [all.blocks, records.blocks]
    · rw [all.dedupe, records.dedupe]
    · intro key apart
      rw [all.others key fun binding mem => by
        rw [records.inode]; exact apart binding (mem_cons_of_mem _ mem)]
      rw [records.find, if_neg (apart first mem_cons_self)]
    · intro binding mem value found
      rcases mem_cons.mp mem with rfl | later
      · unfold Work.record at found
        rw [all.inode, records.inode, all.others _ fun other among same => ?_, records.find,
          if_pos rfl] at found
        · obtain ⟨-, -, rfl⟩ := Option.map_eq_some_iff.mp found
          rfl
        · rw [records.inode] at same
          have equal : binding.1 = other.1 := congrArg (fun key => (ofLex key).2) same
          have less := first_least other among
          omega
      · exact all.noted binding later value found

/-- Recording the notes leaves the rest of the image alone. -/
theorem Work.RecordsAll.spares (but : files.WholeBut outside ino)
    (all : (files.work ino).RecordsAll outside deferred next)
    (owned : next.Owned (files.Foreign ino)) : files.Spares outside ino next := by
  constructor
  · exact all.carries.leaves owned next.inode.size
  · intro lba pba maps
    rw [all.inode]
    exact but.within ino lba pba ((all.maps _ _).mp maps)
  · exact but.indexed.kept all.dedupe all.blocks all.carries.grows
  · intro block _
    rw [all.blocks]
    rfl
  · intro other apart lba
    refine all.others _ fun binding _ same => apart ?_
    have equal : other = (files.inodes ino).ino := congrArg (fun key => (ofLex key).1) same
    rw [equal]
    exact but.sound.numbered ino

/-- Once the notes are recorded, all records of the inode match. -/
theorem Work.RecordsAll.verified (all : work.RecordsAll outside deferred next)
    (defers : work.Defers outside deferred) : next.Verified outside := by
  intro lba pba maps
  have old := (all.maps _ _).mp maps
  cases found : find lba deferred with
  | none =>
    rw [← defers.rest lba pba old found]
    refine Work.verifies_congr ?_ (congrFun all.blocks pba)
    unfold Work.record
    rw [all.inode]
    refine all.others _ fun binding mem same => ?_
    have equal : lba = binding.1 := congrArg (fun key => (ofLex key).2) same
    exact find_eq_none.mp found binding mem equal.symm
  | some entry =>
    have digest := all.noted (lba, entry) (mem_of_find found)
    unfold Work.verifies
    cases record : next.record lba with
    | none => rfl
    | some value =>
      refine decide_eq_true ?_
      rw [digest value record, all.blocks, defers.noted lba pba entry old found]

theorem writeFileRuns_spec {runs : List (Nat × Slice)} (whole : files.Whole outside) :
    wp (writeFileRuns operations outside runs)
      (fun _ next => next.Moved ∨ (files.put ino next).Whole outside) anyhow
      (files.work ino) := by
  unfold writeFileRuns
  rw [wp_bind, wp_get]
  split_ifs with nothing compressed
  · refine .inr ?_
    rw [files.put_work]
    exact whole
  · exact absurd (whole.sound.plain ino) compressed
  · refine wp_bind_or (deferRuns_spec (whole.but ino) ⟨List.Pairwise.nil, ?_, ?_⟩) ?_ ?_
    · exact fun _ _ _ _ found => nomatch found
    · exact fun lba pba maps _ => whole.verified ino lba pba maps
    · rintro deferred mid ⟨but, defers⟩
      have mid_work := files.work_put_self ino mid
      have mid_owned := but.sound.owned ino
      rw [mid_work] at mid_owned
      refine wp_imp (storeDeferred_spec mid_owned defers.ordered) ?_
      rintro _ next ⟨owned, all⟩
      have spares := but.put (Work.RecordsAll.spares but (mid_work.symm ▸ all) owned)
      rw [files.put_put] at spares
      refine .inr (spares.whole ?_)
      rw [files.work_put_self]
      exact all.verified defers
    · intro deferred mid moved
      exact keeps_each (fun binding _ =>
        keeps_storeBlockChecksum Work.stable_moved _ _ _ _) mid moved

end Deferring
end LionFS.File
