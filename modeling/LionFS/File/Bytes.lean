import LionFS.File.Content

/-!
# A file as an array of bytes

The file layer is compared with an array of bytes that is zero where nothing was
written since the file was last cut below. A read returns the bytes of the mapped
blocks and zeros for holes. A safe call writes its data and keeps the other bytes
of the file; what it adds to the file without writing it are the bytes that its
new blocks and the end of the last block happen to hold. The array is refined
exactly when these are zero.
-/
namespace LionFS.File
open Run SpillStore

/-- The byte of a file at a position: that of the mapped block, zero in a hole. -/
def Work.byteAt (work : Work SpillStore) (position : Nat) : UInt8 :=
  let block := work.inode.blockOf work.disk.spill (position / blockSize)
  if block = 0 then 0 else work.disk.blocks block (position % blockSize)

/-- Equal hashes mean equal blocks. -/
def Outside.Collisionless (outside : Outside SpillStore) : Prop :=
  ∀ one two, outside.hash one = outside.hash two →
    ∀ index, index < blockSize → one index = two index

variable {lba index : Nat}
section Reading
variable {outside : Outside SpillStore} {foreign : Nat → Prop} {work : Work SpillStore}
  {offset length next count : Nat}

theorem Work.Owned.byteAt_of_maps (owned : work.Owned foreign) {position pba : Nat}
    (maps : work.Maps (position / blockSize) pba) :
    work.byteAt position = work.disk.blocks pba (position % blockSize) := by
  obtain ⟨nonzero, found⟩ := owned.maps_iff.mp maps
  unfold Work.byteAt
  rw [found]
  exact if_neg nonzero.ne'

theorem Work.Owned.byteAt_of_hole (owned : work.Owned foreign) {position : Nat}
    (hole : ∀ pba, ¬ work.Maps (position / blockSize) pba) : work.byteAt position = 0 := by
  unfold Work.byteAt
  refine if_pos ?_
  by_contra found
  exact hole _ (owned.maps_iff.mpr ⟨Nat.pos_of_ne_zero found, rfl⟩)

theorem gather_pieceIn {result page : Page} (mem : index < length) :
    gather result page (pieceIn offset length lba) index =
      if (offset + index) / blockSize = lba then page ((offset + index) % blockSize)
      else result index := by
  have here : ((pieceIn offset length lba).dataPos ≤ index ∧
      index < (pieceIn offset length lba).dataPos + (pieceIn offset length lba).size) ↔
      index < length ∧ (offset + index) / blockSize = lba := by
    unfold pieceIn blockSize
    dsimp only
    omega
  unfold gather
  split_ifs with covered same same
  · refine congrArg page ?_
    unfold pieceIn blockSize at *
    dsimp only at *
    omega
  · exact absurd (here.mp covered).2 same
  · exact absurd (here.mpr ⟨mem, same⟩) covered
  · rfl

/-- The loop of a read fills in the bytes of block after block. -/
theorem readChunks_spec (owned : work.Owned foreign) (verified : work.Verified outside)
    {result : Page} {handle : Nat}
    (before : ∀ index, index < length → (offset + index) / blockSize < next →
      result index = work.byteAt (offset + index))
    (behind : ∀ index, index < length → next ≤ (offset + index) / blockSize → result index = 0) :
    wp (readChunks operations outside result ((List.range' next count).map (pieceIn offset length)))
      (fun final _ => ∀ index, index < length → (offset + index) / blockSize < next + count →
        final index = work.byteAt (offset + index))
      never (work.opened handle) := by
  induction count generalizing next result handle with
  | zero => exact before
  | succ count ih =>
    rw [List.range'_succ, List.map_cons, show next + (count + 1) = next + 1 + count by omega]
    unfold readChunks
    rw [wp_bind, wp_get, wp_bind, onTrees, wp_focus]
    refine wp_imp (getPhysicalBlock_spec (owned.opened handle).2.sound next) ?_
    rintro block _ ⟨found, other, rfl⟩
    have found' : block = work.inode.blockOf work.disk.spill next := found
    show wp _ _ _ (work.opened other)
    split_ifs with none_there matches_record
    · refine ih (fun index mem bound => ?_) fun index mem bound => behind index mem (by omega)
      by_cases same : (offset + index) / blockSize = next
      · rw [behind index mem same.ge]
        unfold Work.byteAt
        rw [same, ← found', none_there]
        rfl
      · exact before index mem (by omega)
    · refine ih (fun index mem bound => ?_) fun index mem bound => ?_
      · rw [gather_pieceIn mem]
        split_ifs with same
        · unfold Work.byteAt
          rw [same, ← found']
          exact (if_neg none_there).symm
        · exact before index mem (by omega)
      · rw [gather_pieceIn mem, if_neg (by omega)]
        exact behind index mem (by omega)
    · have maps : work.Maps next block :=
        owned.maps_iff.mpr ⟨Nat.pos_of_ne_zero none_there, found'.symm⟩
      exact matches_record (verified next block maps)

theorem readFile_spec (owned : work.Owned foreign) (verified : work.Verified outside)
    (plain : work.inode.compressionAlgo = 0) (offset count : Nat) :
    ∃ slice, (readFile operations outside offset count work).1 = some slice ∧
      slice.length = min count (work.inode.size - offset) ∧
      ∀ index, index < slice.length → slice.byte index = work.byteAt (offset + index) := by
  have spec : wp (readFile operations outside offset count)
      (fun slice _ => slice.length = min count (work.inode.size - offset) ∧
        ∀ index, index < slice.length → slice.byte index = work.byteAt (offset + index))
      never work := by
    unfold readFile
    rw [wp_bind, wp_get]
    split_ifs with past compressed
    · refine ⟨?_, fun index mem => absurd mem (Nat.not_lt_zero index)⟩
      show 0 = _
      omega
    · exact absurd plain compressed
    · dsimp only
      rw [wp_bind, chunks_eq]
      refine wp_imp (readChunks_spec owned verified (fun index mem bound => ?_)
        (fun _ _ _ => rfl)) ?_
      · unfold blockSize at bound
        omega
      · intro final _ filled
        refine ⟨rfl, fun index mem => filled index mem ?_⟩
        have bound : index < min count (work.inode.size - offset) := mem
        unfold endBlock blockSize
        rw [if_neg (by omega)]
        omega
  obtain ⟨slice, after, returned, facts⟩ := returns_of_wp spec
  exact ⟨slice, by rw [returned], facts⟩

end Reading

section Writing
variable {outside : Outside SpillStore} {foreign : Nat → Prop} {start now next : Work SpillStore}
  {one two : Work SpillStore} {offset position newSize : Nat} {data : Slice}

theorem overwrite_pieceIn (page : Page) (data : Slice) (mem : index < blockSize) :
    overwrite page data (pieceIn offset data.length lba) index =
      if offset ≤ lba * blockSize + index ∧
          lba * blockSize + index < offset + data.length then
        data.byte (lba * blockSize + index - offset)
      else page index := by
  have covers : ((pieceIn offset data.length lba).blockOffset ≤ index ∧
      index < (pieceIn offset data.length lba).blockOffset +
        (pieceIn offset data.length lba).size) ↔
      offset ≤ lba * blockSize + index ∧
        lba * blockSize + index < offset + data.length := by
    unfold pieceIn
    unfold blockSize at mem ⊢
    dsimp only
    omega
  have place : offset ≤ lba * blockSize + index →
      (pieceIn offset data.length lba).dataPos +
        (index - (pieceIn offset data.length lba).blockOffset) =
          lba * blockSize + index - offset := by
    intro low
    unfold pieceIn
    unfold blockSize at low ⊢
    dsimp only
    omega
  unfold overwrite
  split_ifs with covered written written
  · rw [place written.1]
  · exact absurd (covers.mp covered) written
  · exact absurd (covers.mpr written) covered
  · rfl

/-- The bytes of a written block: those of the data, and around them those the block had. -/
theorem Wrote.byte (collisionless : outside.Collisionless) {page : Page} {block : Nat}
    {ahead : Prop}
    (wrote : Wrote outside start data (pieceIn offset data.length lba) block ahead page)
    (mem : index < blockSize) :
    (offset ≤ lba * blockSize + index ∧ lba * blockSize + index < offset + data.length →
      page index = data.byte (lba * blockSize + index - offset)) ∧
    (¬ (offset ≤ lba * blockSize + index ∧
        lba * blockSize + index < offset + data.length) →
      (start.inode.Sound start.disk.spill → ∀ old, start.Maps lba old →
        page index = start.disk.blocks old index) ∧
      ((∀ old, ¬ start.Maps lba old) → ¬ ahead → page index = start.disk.blocks block index)) := by
  have merged : ∀ block, start.merged data (pieceIn offset data.length lba) block index =
      if offset ≤ lba * blockSize + index ∧
          lba * blockSize + index < offset + data.length then
        data.byte (lba * blockSize + index - offset)
      else start.disk.blocks block index := by
    intro block
    unfold Work.merged
    rw [overwrite_pieceIn _ _ mem]
    split_ifs with written part
    · rfl
    · rfl
    · unfold pieceIn blockSize at part
      dsimp only at part
      unfold blockSize at mem written
      omega
  obtain ⟨old, maps, page_eq⟩ | ⟨given, hole, free, here, page_eq⟩ | ⟨hole, whole, same_hash⟩ :=
    wrote
  · rw [page_eq, merged]
    refine ⟨fun written => if_pos written, fun unwritten =>
      ⟨fun sound other there => ?_, fun none => absurd maps (none old)⟩⟩
    rw [if_neg unwritten, sound.tidy.functional maps there]
  · rw [page_eq, merged]
    refine ⟨fun written => if_pos written, fun unwritten =>
      ⟨fun _ old there => absurd there (hole old), fun _ first => ?_⟩⟩
    rw [if_neg unwritten, here.resolve_right first]
  · refine ⟨fun written => ?_, fun unwritten => absurd ?_ unwritten⟩
    · rw [collisionless _ _ same_hash index mem, overwrite_pieceIn _ _ mem, if_pos written]
    · unfold pieceIn blockSize at whole
      unfold blockSize at mem ⊢
      dsimp only at whole
      omega

theorem position_eq (position : Nat) :
    position / blockSize * blockSize + position % blockSize = position := Nat.div_add_mod' _ _

/-- After a write the file has the data in its range. -/
theorem Complete.byteAt_written (collisionless : outside.Collisionless)
    (prog : Complete outside foreign start offset data now)
    (low : offset ≤ position) (high : position < offset + data.length) :
    now.byteAt position = data.byte (position - offset) := by
  have touched : Touched offset (endBlock offset data.length) (position / blockSize) := by
    unfold Touched endBlock blockSize
    rw [if_neg (by omega)]
    omega
  obtain ⟨pba, maps, wrote⟩ := prog.done _ touched
  have mem : position % blockSize < blockSize := Nat.mod_lt _ (by decide)
  have bytes := (wrote.byte collisionless mem).1
  rw [position_eq] at bytes
  rw [prog.owned.byteAt_of_maps maps]
  exact bytes ⟨low, high⟩

/-- Around its range a write keeps the bytes of the mapped blocks. -/
theorem Complete.byteAt_kept (collisionless : outside.Collisionless) (owned : start.Owned foreign)
    (prog : Complete outside foreign start offset data now)
    (unwritten : ¬ (offset ≤ position ∧ position < offset + data.length)) {old : Nat}
    (maps : start.Maps (position / blockSize) old) :
    now.byteAt position = start.byteAt position := by
  have mem : position % blockSize < blockSize := Nat.mod_lt _ (by decide)
  rw [owned.byteAt_of_maps maps]
  by_cases touched : Touched offset (endBlock offset data.length) (position / blockSize)
  · obtain ⟨pba, there, wrote⟩ := prog.done _ touched
    have bytes := (wrote.byte collisionless mem).2
    rw [position_eq] at bytes
    rw [prog.owned.byteAt_of_maps there]
    exact (bytes unwritten).1 owned.sound old maps
  · have there := (prog.maps_iff touched old).mpr maps
    rw [prog.owned.byteAt_of_maps there, prog.quiet _ touched old there]

/-- Around its range a write fills a hole of the file with the bytes that the block it maps there
held before the call. -/
theorem Complete.byteAt_fresh (collisionless : outside.Collisionless)
    (prog : Complete outside foreign start offset data now)
    (unwritten : ¬ (offset ≤ position ∧ position < offset + data.length))
    (inside : position < max start.inode.size (offset + data.length))
    (hole : ∀ old, ¬ start.Maps (position / blockSize) old) {pba : Nat}
    (maps : now.Maps (position / blockSize) pba) :
    now.byteAt position = start.disk.blocks pba (position % blockSize) := by
  have touched : Touched offset (endBlock offset data.length) (position / blockSize) := by
    by_contra untouched
    exact hole pba ((prog.maps_iff untouched pba).mp maps)
  -- Behind its first piece an appending call writes everything up to the new end.
  have first : ¬ (start.inode.appendBlock offset data ≠ none ∧
      offset / blockSize < position / blockSize) := by
    rintro ⟨appends, later⟩
    unfold Inode.appendBlock at appends
    split_ifs at appends with append
    · have behind : offset < position := lt_of_not_ge fun before =>
        absurd (Nat.div_le_div_right before) (Nat.not_le.mpr later)
      omega
    · exact appends rfl
  obtain ⟨other, there, wrote⟩ := prog.done _ touched
  have mem : position % blockSize < blockSize := Nat.mod_lt _ (by decide)
  have bytes := (wrote.byte collisionless mem).2
  rw [position_eq] at bytes
  rw [prog.owned.byteAt_of_maps maps, prog.owned.sound.tidy.functional maps there]
  exact (bytes unwritten).2 hole first

/-- The byte at a position depends on where its block is mapped and what it holds there. -/
theorem Work.Owned.byteAt_congr {others : Nat → Prop} (left : one.Owned foreign)
    (right : two.Owned others)
    (maps : ∀ pba, one.Maps (position / blockSize) pba ↔
      two.Maps (position / blockSize) pba)
    (blocks : ∀ pba, one.Maps (position / blockSize) pba →
      one.disk.blocks pba = two.disk.blocks pba) : one.byteAt position = two.byteAt position := by
  by_cases mapped : ∃ pba, one.Maps (position / blockSize) pba
  · obtain ⟨pba, there⟩ := mapped
    rw [left.byteAt_of_maps there, right.byteAt_of_maps ((maps pba).mp there), blocks pba there]
  · have hole := not_exists.mp mapped
    rw [left.byteAt_of_hole hole, right.byteAt_of_hole fun pba there =>
      hole pba ((maps pba).mpr there)]

/-- A call that leaves the rest of an image alone changes no byte of another inode. -/
theorem Files.Spares.byteAt_of_ne {files : Files} {ino other : Nat} (sound : files.Sound)
    (spares : files.Spares outside ino next) (apart : other ≠ ino) (position : Nat) :
    ((files.put ino next).work other).byteAt position = (files.work other).byteAt position := by
  have maps_iff : ∀ pba, ((files.put ino next).work other).Maps (position / blockSize) pba ↔
      (files.work other).Maps (position / blockSize) pba :=
    fun pba => spares.leaves.maps_of_ne sound apart _ pba
  refine (spares.leaves.owned_of_ne sound apart).byteAt_congr (sound.owned other) maps_iff ?_
  intro pba maps
  exact spares.blocks pba ⟨other, apart, _, (maps_iff pba).mp maps⟩

end Writing
end LionFS.File
