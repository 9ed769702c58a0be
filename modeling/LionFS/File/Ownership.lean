import LionFS.File.Files

/-!
# Who owns a block

On an image without dedup, pins or snapshots each block in use by a file is
mapped once, no file maps a block past its size, and truncation frees no block
twice. Every call of `write_file` keeps this. A call of `truncate_file` keeps it
exactly when no extent of the inode's tree lies behind the new end: such an extent
is freed and stays mapped.
-/
namespace LionFS.File
open List SpillStore Files
open Machine (Along Always always_iff_along_of along_of_along along_and)

/-- The blocks that shrinking to a size frees, one after another. -/
def Work.freedBlocks (work : Work SpillStore) (newSize : Nat) : List Nat :=
  (work.handed newSize).flatMap fun run =>
    if work.disk.rangePinned run.1 run.2 then [] else range' run.1 run.2

namespace Files

/-- Every mapped block is in use and mapped once, and none is mapped past the size. -/
structure Disjoint (files : Files) : Prop where
  used : ∀ ino logical physical, files.Maps ino logical physical →
    files.disk.bitmap.used physical = true
  single : ∀ one two first second physical, files.Maps one first physical →
    files.Maps two second physical → one = two ∧ first = second
  within : ∀ ino logical physical, files.Maps ino logical physical →
    logical < blocksFor (files.inodes ino).size

/-- A call frees each block at most once, and only blocks in use. -/
def FreesUsed (files : Files) (event : Nat × Call) : Prop :=
  match event.2 with
  | .write _ _ => True
  | .truncate newSize => newSize < (files.inodes event.1).size →
    ((files.work event.1).freedBlocks newSize).Nodup ∧
      ∀ block ∈ (files.work event.1).freedBlocks newSize, files.disk.bitmap.used block = true

/-- No extent of the inode's tree lies behind the new end of a shrinking call. -/
def CutsCleanly (files : Files) (event : Nat × Call) : Prop :=
  match event.2 with
  | .write _ _ => True
  | .truncate newSize => (files.work event.1).CutsCleanly newSize

instance (work : Work SpillStore) (newSize : Nat) : Decidable (work.CutsCleanly newSize) :=
  inferInstanceAs (Decidable (_ → ∀ extent ∈ _, _))

instance decidableCutsCleanly (files : Files) :
    (event : Nat × Call) → Decidable (files.CutsCleanly event)
  | (_, .write _ _) => .isTrue trivial
  | (ino, .truncate newSize) =>
    inferInstanceAs (Decidable ((files.work ino).CutsCleanly newSize))

/-- A sound image without dedup, pins or snapshots. -/
structure Unshared (files : Files) : Prop where
  sound : files.Sound
  within : ∀ ino, (files.work ino).Within
  off : files.disk.dedupe = none
  unpinned : ∀ block, files.disk.pinned block = false
  calm : files.disk.spill.Calm

end Files

section Owning
variable {outside : Outside SpillStore} {files : Files} {work start now next : Work SpillStore}
  {foreign : Nat → Prop} {ino offset newSize : Nat} {data : Slice}

/-- More size takes no fewer blocks. -/
theorem blocksFor_le {small large : Nat} (le : small ≤ large) :
    blocksFor small ≤ blocksFor large := by
  unfold blocksFor blockSize
  omega

/-- A write maps no block past the size. -/
theorem Complete.within (prog : Complete outside foreign start offset data now)
    (within : start.Within) :
    (now.sized (max start.inode.size (offset + data.length))).Within := by
  intro lba pba maps
  show lba < blocksFor (max start.inode.size (offset + data.length))
  by_cases touched : Touched offset (endBlock offset data.length) lba
  · refine lt_of_lt_of_le ?_ (blocksFor_le (Nat.le_max_right _ _))
    unfold Touched endBlock blockSize at touched
    unfold blocksFor blockSize
    split_ifs at touched <;> omega
  · have before := within lba pba ((prog.maps_iff touched pba).mp maps)
    exact before.trans_le (blocksFor_le (Nat.le_max_left _ _))

theorem Work.indexUsed_of_off (off : work.disk.dedupe = none) : work.IndexUsed outside := by
  rintro hash block ⟨record, found, -⟩
  rw [off] at found
  cases found

/-- Storing a call back keeps the other files within their sizes. -/
theorem Work.Leaves.within (leaves : (files.work ino).Leaves foreign next) (sound : files.Sound)
    (within : ∀ ino, (files.work ino).Within) (own : next.Within) (other : Nat) :
    ((files.put ino next).work other).Within := by
  refine forall_put (fun _ work => work.Within) own (fun other apart lba pba maps => ?_) other
  rw [← files.work_put_of_ne apart] at maps
  exact within other lba pba ((leaves.maps_of_ne sound apart _ _).mp maps)

namespace Files
section
variable (unshared : files.Unshared)
include unshared

/-- An image without sharing has the property. -/
theorem Unshared.disjoint : files.Disjoint := by
  have pinned_not : ∀ block, files.disk.pinned block ≠ true := fun block pinned => by
    rw [unshared.unpinned block] at pinned
    cases pinned
  constructor
  · exact fun ino lba pba maps => (unshared.sound.owned ino).used lba pba maps
  · intro one two first second pba here there
    by_cases same : one = two
    · subst same
      exact ⟨rfl, ((unshared.sound.owned one).single _ _ _ here there).resolve_right
        (pinned_not pba)⟩
    · exact absurd ((unshared.sound.owned one).apart _ _ ⟨two, Ne.symm same, second, there⟩ here)
        (pinned_not pba)
  · exact unshared.within

/-- The calls of an image without snapshots move no root. -/
theorem Unshared.still {event : Nat × Call} (returns : files.Returns outside event) :
    (files.called outside event).2.disk.spill.Calm := by
  obtain ⟨ino, call⟩ := event
  have plain := unshared.sound.plain ino
  have calm : (files.work ino).Trees SpillStore.Calm := unshared.calm
  cases call with
  | write offset data =>
    exact Run.post_of_returns (writeFile_keeps (Work.stable_trees preserves_calm) outside
      plain calm offset data) returns
  | truncate newSize =>
    exact Run.post_of_returns (truncateFile_keeps preserves_calm outside plain calm newSize) returns

/-- A call that leaves the rest alone and pins nothing keeps an image without sharing. -/
theorem Unshared.put (leaves : (files.work ino).Leaves (files.Foreign ino) next)
    (within : next.Within)
    (off : next.disk.dedupe = none) (coverage : next.disk.coverage = files.disk.coverage)
    (calm : next.disk.spill.Calm) : (files.put ino next).Unshared := by
  refine ⟨unshared.sound.put leaves, leaves.within unshared.sound unshared.within within, off, ?_,
    calm⟩
  intro block
  rw [← unshared.unpinned block]
  unfold Volume.pinned
  rw [show (files.put ino next).disk.coverage = _ from coverage]

theorem Unshared.write (returns : files.Returns outside (ino, .write offset data)) :
    (files.put ino (files.called outside (ino, .write offset data)).2).Unshared := by
  have calm := unshared.still returns
  obtain ⟨mid, prog, -, after⟩ := unshared.sound.wrote (unshared.within ino)
    (Work.indexUsed_of_off unshared.off) returns fun moved => moved calm.2
  obtain ⟨off, coverage⟩ := prog.unshared unshared.off
  rw [after] at calm ⊢
  exact unshared.put (prog.carries.leaves prog.owned _)
    (prog.within (unshared.within ino)) off coverage calm

theorem Unshared.grow (grows : (files.inodes ino).size ≤ newSize) :
    (files.put ino (files.called outside (ino, .truncate newSize)).2).Unshared := by
  rw [unshared.sound.grows grows]
  have owned := unshared.sound.owned ino
  refine unshared.put (owned.carries.leaves owned newSize) ?_ unshared.off rfl unshared.calm
  intro lba pba maps
  exact (unshared.within ino lba pba maps).trans_le (blocksFor_le grows)

theorem Unshared.alike (ino newSize : Nat) : (files.work ino).RunsPinnedAlike newSize := by
  intro _ run _
  refine .inr fun block _ _ pinned => ?_
  rw [show (files.work ino).disk.pinned block = false from unshared.unpinned block] at pinned
  cases pinned

/-- A shrinking call of `truncate_file` keeps an image without sharing exactly when no extent of
the tree lies behind the end. -/
theorem Unshared.shrink (shrinks : newSize < (files.inodes ino).size)
    (returns : files.Returns outside (ino, .truncate newSize)) :
    ((files.work ino).CutsCleanly newSize →
      (files.put ino (files.called outside (ino, .truncate newSize)).2).Unshared) ∧
    ((files.put ino (files.called outside (ino, .truncate newSize)).2).Disjoint →
      (files.work ino).CutsCleanly newSize) := by
  have calm := unshared.still returns
  have truncated := unshared.sound.truncated shrinks returns fun moved => moved calm.2
  have owned := unshared.sound.owned ino
  have size := truncated.fields.2.1
  constructor
  · intro clean
    obtain ⟨bits, disk, freed⟩ := truncated.freed
    refine unshared.put (truncated.leaves (truncated.owned owned shrinks clean
      (unshared.alike ino newSize))) ?_ ?_ ?_ calm
    · intro lba pba maps
      rw [size]
      exact ((truncated.maps_iff shrinks clean _ _).mp maps).2
    · rw [disk, freed.dedupe]
      exact unshared.off
    · rw [disk, freed.coverage]
      rfl
  · intro disj _ extent mem
    by_contra behind
    have among : extent ∈ (files.work ino).inode.allExtents (files.work ino).disk.spill :=
      mem_append_right _ mem
    have pos := owned.sound.tidy.positive extent among
    have sends : extent.Sends extent.logicalStart (extent.block extent.logicalStart) := by
      refine ⟨⟨le_rfl, ?_⟩, rfl⟩
      unfold Extent.logicalEnd
      omega
    have stale := (truncated.maps _ _).mpr
      ⟨⟨extent, among, sends⟩, .inr ⟨extent, mem, Nat.not_lt.mp behind, sends⟩⟩
    have inside := disj.within ino _ _ (maps_put_self.mpr stale)
    rw [files.inodes_put_self, size] at inside
    exact behind inside

/-- On an image without sharing truncation frees each block once, and only blocks in use. -/
theorem Unshared.freesUsed (event : Nat × Call) : files.FreesUsed event := by
  obtain ⟨ino, call⟩ := event
  cases call with
  | write offset data => trivial
  | truncate newSize =>
    intro _
    have owned := unshared.sound.owned ino
    have runs : ∀ range, (files.work ino).freeRuns operations range =
        [(range.physicalStart, range.length)] := fun range => if_pos (.inl unshared.calm.1)
    have mapped : ∀ (extent : Extent) (block : Nat),
        block ∈ ((extent.beyond (blocksFor newSize)).flatMap
        ((files.work ino).freeRuns operations)).flatMap (fun run =>
          if (files.work ino).disk.rangePinned run.1 run.2 then [] else range' run.1 run.2) →
        ∃ lba, extent.Sends lba block := by
      intro extent block mem
      obtain ⟨run, run_member, inside⟩ := mem_flatMap.mp mem
      obtain ⟨range, behind, run_member⟩ := mem_flatMap.mp run_member
      rw [runs, mem_singleton] at run_member
      subst run_member
      split_ifs at inside with whole
      · cases inside
      · obtain ⟨low, high⟩ := mem_range'_1.mp inside
        obtain ⟨lba, -, sends⟩ := Extent.beyond_sends behind low high
        exact ⟨lba, sends⟩
    constructor
    · unfold Work.freedBlocks Work.handed Work.runsBehind
      rw [flatMap_assoc, nodup_flatMap]
      constructor
      · intro extent _
        unfold Extent.beyond
        split_ifs
        · rw [flatMap_singleton, runs, flatMap_singleton]
          split_ifs
          · exact nodup_nil
          · exact nodup_range'
        · rw [flatMap_singleton, runs, flatMap_singleton]
          split_ifs
          · exact nodup_nil
          · exact nodup_range'
        · exact nodup_nil
      · refine owned.sound.tidy.apart.imp_of_mem fun {one two} first second apart => ?_
        intro block in_one in_two
        obtain ⟨lba, sends⟩ := mapped one block in_one
        obtain ⟨other, there⟩ := mapped two block in_two
        have same := (unshared.disjoint.single ino ino lba other block
          ⟨one, first, sends⟩ ⟨two, second, there⟩).2
        exact apart lba sends.1 (same ▸ there.1)
    · intro block mem
      unfold Work.freedBlocks at mem
      obtain ⟨run, handed, inside⟩ := mem_flatMap.mp mem
      split_ifs at inside with whole
      · cases inside
      · obtain ⟨low, high⟩ := mem_range'_1.mp inside
        obtain ⟨lba, -, maps⟩ := Work.handed_maps handed low high
        exact owned.used lba block maps

theorem Unshared.step {event : Nat × Call} {after : Files} (returns : files.Returns outside event)
    (taken : files.step outside event = some after) :
    (files.CutsCleanly event → after.Unshared) ∧ (after.Disjoint → files.CutsCleanly event) := by
  obtain rfl := Option.some.inj taken
  obtain ⟨ino, call⟩ := event
  cases call with
  | write offset data => exact ⟨fun _ => unshared.write returns, fun _ => trivial⟩
  | truncate newSize =>
    by_cases shrinks : newSize < (files.inodes ino).size
    · exact unshared.shrink shrinks returns
    · exact ⟨fun _ => unshared.grow (Nat.not_lt.mp shrinks),
        fun _ smaller => absurd smaller shrinks⟩

end
end Files

/-- From an image without sharing, in a run of calls that return: in every state each mapped block
is in use and mapped once and none is mapped past the size, and each call frees only blocks in use,
each once, exactly when no shrinking call leaves an extent of the tree behind its end. -/
theorem blocks_owned_iff (outside : Outside SpillStore) (files : Files)
    (events : List (Nat × Call)) (unshared : files.Unshared)
    (returns : Along (step outside) (Files.Returns outside) events files) :
    (Always (step outside) Files.Disjoint events files ∧
      Along (step outside) Files.FreesUsed events files) ↔
    Along (step outside) Files.CutsCleanly events files := by
  have always : Always (step outside) Files.Disjoint events files ↔
      Along (step outside) Files.CutsCleanly events files :=
    always_iff_along_of (fun _ good => good.disjoint)
      (fun _ _ _ good returned taken => good.step returned taken)
      (fun _ _ _ refused => nomatch refused) unshared returns
  refine ⟨fun both => always.mp both.1, fun clean => ⟨always.mpr clean, ?_⟩⟩
  refine along_of_along (fun state event next good allowed taken => ?_)
    (fun state event good _ => good.freesUsed event) unshared (along_and.mpr ⟨returns, clean⟩)
  exact (good.step allowed.1 taken).1 allowed.2

end Owning

/-- An inode without extents owns nothing. -/
theorem Work.owned_blank {disk : Disk SpillStore} {foreign : Nat → Prop}
    (still : disk.spill.rootCell = none) (fresh : disk.spill.Fresh)
    (covered : Work.Covered ⟨disk, ⟨0, 0, 0, [], 0⟩⟩) (zero : disk.bitmap.used 0 = true)
    (used : ∀ block, foreign block → disk.bitmap.used block = true) (ino : Nat) :
    Work.Owned foreign ⟨disk, ⟨ino, 0, 0, [], 0⟩⟩ := by
  have unmapped : ∀ lba pba, ¬ Work.Maps ⟨disk, ⟨ino, 0, 0, [], 0⟩⟩ lba pba :=
    fun _ _ => mapsTo_nil
  constructor
  · exact still
  · exact fresh
  · exact ⟨tidy_nil, Nat.zero_le _, absurd rfl⟩
  · exact ⟨covered.tree, covered.disjoint⟩
  · exact zero
  · exact fun lba pba maps => absurd maps (unmapped lba pba)
  · exact used
  · exact fun one _ pba maps => absurd maps (unmapped one pba)
  · exact fun lba pba _ maps => absurd maps (unmapped lba pba)

/-- An image without files, where only block zero is in use, on a device with some content. -/
def blankFiles (blocks : Nat → Page) : Files where
  disk := { flatDisk none with blocks := blocks, bitmap := Allocator.firstUsed 100 }
  inodes := fun ino => ⟨ino, 0, 0, [], 0⟩

theorem blankFiles_unshared (blocks : Nat → Page) : (blankFiles blocks).Unshared := by
  have unmapped : ∀ ino lba pba, ¬ (blankFiles blocks).Maps ino lba pba :=
    fun _ _ _ => mapsTo_nil
  refine ⟨⟨fun _ => rfl, fun _ => rfl, fun _ _ rooted _ => absurd rfl rooted, fun ino => ?_⟩,
    fun ino lba pba maps => absurd maps (unmapped ino lba pba), rfl, fun _ => rfl, rfl, rfl⟩
  refine Work.owned_blank rfl ⟨fun one two same => ?_, fun index _ => ⟨?_, rfl⟩⟩
    ⟨fun on => ?_, fun runs here => ?_⟩
    (show (Allocator.firstUsed 100).used 0 = true by decide) ?_ ino
  · have sum : 1000 + one = 1000 + two := same
    omega
  · show 1000 + index ≠ 0
    omega
  · cases on
  · cases here
  · rintro pba ⟨other, -, lba, maps⟩
    exact absurd maps (unmapped other lba pba)

/-- A byte of data. -/
def oneByte : Slice := ⟨1, fun _ => 7⟩

/-- A byte is written to an empty file, which is then cut back. -/
theorem blocks_owned_short_file :
    Always (step nothingOutside) Files.Disjoint
        [(1, .write 0 oneByte), (1, .truncate 0)] (blankFiles fun _ => zeroPage) ∧
      Along (step nothingOutside) Files.FreesUsed
        [(1, .write 0 oneByte), (1, .truncate 0)] (blankFiles fun _ => zeroPage) :=
  (blocks_owned_iff nothingOutside (blankFiles fun _ => zeroPage)
    [(1, .write 0 oneByte), (1, .truncate 0)] (blankFiles_unshared _) (by decide +kernel)).mpr
    (by decide +kernel)

/-- Eight bytes are written to every second block of a file, so that the last one goes to an
extent of the tree, and the file is cut back to nothing. -/
def sparseCalls : List (Nat × Call) :=
  (range 8).map (fun index => (1, .write (8192 * index) oneByte)) ++ [(1, .truncate 0)]

/-- The block of the last byte stays mapped, past the size of the file. -/
theorem truncate_leaves_stale_mapping :
    ¬ ∀ (outside : Outside SpillStore) (files : Files) (events : List (Nat × Call)),
      files.Unshared → Along (step outside) (Files.Returns outside) events files →
        Always (step outside) Files.Disjoint events files ∧
          Along (step outside) Files.FreesUsed events files := by
  intro owned
  have always := (owned nothingOutside (blankFiles fun _ => zeroPage) sparseCalls
    (blankFiles_unshared _) (by decide +kernel)).1
  have ends : (Machine.run (step nothingOutside) sparseCalls
      (blankFiles fun _ => zeroPage)).map (fun files =>
        ((files.inodes 1).size, (files.inodes 1).blockOf files.disk.spill 14)) = some (0, 15) := by
    decide +kernel
  obtain ⟨last, ran, facts⟩ := Option.map_eq_some_iff.mp ends
  rw [Prod.mk.injEq] at facts
  have mapped : last.Maps 1 14 15 := by
    have found : (last.inodes 1).blockOf last.disk.spill 14 ≠ 0 := by omega
    have maps := Inode.mapsTo_blockOf found
    rwa [facts.2] at maps
  have inside := (always.last ran).within 1 14 15 mapped
  rw [facts.1] at inside
  exact absurd inside (by decide)

end LionFS.File
