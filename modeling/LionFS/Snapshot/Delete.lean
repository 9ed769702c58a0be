import LionFS.File.Volume
import Mathlib.Data.List.Sort

/-!
# Deleting a snapshot

`SnapshotManager::delete_snapshot`. A snapshot created in birth mode pins no
block: deleting it walks the checksum records frozen with it and frees each block
that the live file no longer maps, that was born after every remaining snapshot
and that is not pinned. The walk compares the record with the live extents by one
cursor over their sorted list.
-/
namespace LionFS.Snapshot
open Run List Assoc File

/-- `SnapshotRecord`, with the trees that its roots name. -/
structure SnapshotRecord where
  /-- `generation`: the barrier. -/
  generation : Nat
  /-- `flags` has `SNAPSHOT_FLAG_BIRTH`. -/
  birth : Bool
  /-- The frozen inode tree. -/
  inodes : List (Nat × Inode)
  /-- The frozen checksum tree. -/
  checksums : Checksums

/-- An image in a transaction. -/
structure Image where
  /-- Blocks, bitmap and trees. -/
  volume : Volume SpillStore
  /-- The live inode tree. -/
  inodes : List (Nat × Inode)
  nextIno : Nat
  /-- The snapshot tree. -/
  snapshots : List (Nat × SnapshotRecord)
  lastSnapshotGeneration : Nat

/-- A command on the extent trees of an image. -/
def onTrees {α : Type} (command : Run SpillStore α) : Run Image α :=
  focus Image.volume (fun image volume => { image with volume := volume }) (onSpill command)

/-- The greatest barrier of some snapshots, zero when there are none. -/
def maxBarrier (snapshots : List (Nat × SnapshotRecord)) : Nat :=
  (snapshots.map fun binding => binding.2.generation).foldr max 0

/-- The snapshots other than one. -/
def others (id : Nat) (snapshots : List (Nat × SnapshotRecord)) : List (Nat × SnapshotRecord) :=
  snapshots.filter fun binding => binding.1 ≠ id

/-- The extents with blocks, sorted by logical start; extents with one start keep their order. -/
def sortExtents (extents : List Extent) : List Extent :=
  (extents.filter fun extent => 0 < extent.length).insertionSort
    fun first second => first.logicalStart ≤ second.logicalStart

/-- `iter_extents` through a new handle, as extents. -/
def spilledExtents (root : Nat) : Run SpillStore (List Extent) :=
  if root = 0 then pure []
  else do
    SpillStore.operations.new root
    let bindings ← SpillStore.operations.iterExtents
    pure (bindings.map spilledExtent)

/-- `live_extent_list`. -/
def liveExtentList (ino : Nat) : Run Image (List Extent) := do
  let image ← get
  match find ino image.inodes with
  | none => pure []
  | some inode => do
    let spilled ← onTrees (spilledExtents inode.spillExtentRoot)
    pure (sortExtents (inode.extents ++ spilled))

/-- The extents from the cursor on, once it has passed those that end at or before a block. -/
def advance (logicalBlock : Nat) (liveMap : List Extent) : List Extent :=
  liveMap.dropWhile fun extent => extent.logicalEnd ≤ logicalBlock

/-- `live_phys`: where the extent at the cursor begins, when it covers the block. -/
def livePhys (logicalBlock : Nat) : (liveMap : List Extent) → Option Nat
  | [] => none
  | extent :: _ =>
    if extent.logicalStart ≤ logicalBlock then some extent.physicalStart else none

/-- `cur_ino` before the first record. -/
def noIno : Nat := 2 ^ 64 - 1

/-- The variables of the walk: `cur_ino`, and `live_map` from `cursor` on. -/
structure Walk where
  curIno : Nat
  /-- `live_map` from `cursor` on. -/
  liveMap : List Extent

/-- The head of the walk's loop: at a new inode its live extents are loaded. -/
def Walk.enter (walk : Walk) (ino : Nat) : Run Image Walk :=
  if ino = walk.curIno then pure walk
  else do
    let liveMap ← liveExtentList ino
    pure ⟨ino, liveMap⟩

/-- `free_extents` of one block. -/
def freeBlock (block : Nat) : Run Image PUnit := modify fun image =>
  { image with volume := { image.volume with bitmap := image.volume.bitmap.freeExtents block 1 } }

/-- The loop of `reclaim_birth_snapshot` over the frozen records. -/
def reclaimRecords (remaining : Nat) : (walk : Walk) → (records : Checksums) → Run Image PUnit
  | _, [] => pure ⟨⟩
  | walk, (key, value) :: records => do
    let entered ← walk.enter (ofLex key).1
    let image ← get
    let liveMap := advance (ofLex key).2 entered.liveMap
    if livePhys (ofLex key).2 liveMap = some value.physicalBlock ∨
        value.generation ≤ remaining ∨ image.volume.pinned value.physicalBlock then pure ⟨⟩
    else freeBlock value.physicalBlock
    reclaimRecords remaining ⟨entered.curIno, liveMap⟩ records

/-- `reclaim_birth_snapshot`. -/
def reclaimBirthSnapshot (record : SnapshotRecord) (remaining : Nat) : Run Image PUnit := do
  let image ← get
  if image.volume.checksums.isNone then pure ⟨⟩
  else reclaimRecords remaining ⟨noIno, []⟩ record.checksums

/-- `unpin_range` of an extent that has blocks. -/
def unpinExtent (extent : Extent) : Run Image PUnit := fun image =>
  if extent.length = 0 then (some ⟨⟩, image)
  else
    match Integrity.unpinRange (image.volume.coverage.getD []) extent.physicalStart
        extent.length with
    | some runs =>
      (some ⟨⟩, { image with volume := { image.volume with coverage := some runs } })
    | none => (none, image)

/-- The pin-mode half of `delete_snapshot`: unpin what the creation pinned. -/
def unpinSnapshot (record : SnapshotRecord) : Run Image PUnit := do
  let image ← get
  each (range' 1 (image.nextIno - 1)) fun ino =>
    match find ino record.inodes with
    | none => pure ⟨⟩
    | some inode =>
      if inode.compressionAlgo ≠ 0 then pure ⟨⟩
      else do
        each inode.extents unpinExtent
        let spilled ← onTrees (spilledExtents inode.spillExtentRoot)
        each spilled unpinExtent

/-- The end of `delete_snapshot`: the record goes, and the barrier becomes that of the rest. -/
def dropRecord (id : Nat) : Run Image PUnit := modify fun image =>
  let rest := erase id image.snapshots
  { image with
    snapshots := rest
    lastSnapshotGeneration := maxBarrier rest
    volume := { image.volume with
      spill := { image.volume.spill with cowBarrier := maxBarrier rest } } }

/-- `delete_snapshot`. -/
def deleteSnapshot (id : Nat) : Run Image PUnit := do
  let image ← get
  match find id image.snapshots with
  | none => fail
  | some record => do
    if record.birth then reclaimBirthSnapshot record (maxBarrier (others id image.snapshots))
    else if image.volume.coverage.isSome then unpinSnapshot record
    else pure ⟨⟩
    dropRecord id

/-- The live extents of an inode, as `live_extent_list` sorts them. -/
def Image.liveExtents (image : Image) (ino : Nat) : List Extent :=
  match find ino image.inodes with
  | none => []
  | some inode => sortExtents (inode.allExtents image.volume.spill)

/-- The extent trees that live inodes name can be read. -/
def Image.Readable (image : Image) : Prop :=
  ∀ binding ∈ image.inodes, binding.2.spillExtentRoot ≠ 0 →
    (image.volume.spill.read binding.2.spillExtentRoot).isSome

/-- A state of the walk: only the bitmap and the handle over the extent trees differ. -/
structure Walked (image next : Image) : Prop where
  inodes : next.inodes = image.inodes
  read : next.volume.spill.read = image.volume.spill.read
  coverage : next.volume.coverage = image.volume.coverage

theorem Walked.refl (image : Image) : Walked image image := ⟨rfl, rfl, rfl⟩

theorem Walked.trans {first second third : Image} (one : Walked first second)
    (two : Walked second third) : Walked first third :=
  ⟨two.inodes.trans one.inodes, two.read.trans one.read, two.coverage.trans one.coverage⟩

variable {image next : Image}

theorem Walked.liveExtents (walked : Walked image next) (ino : Nat) :
    next.liveExtents ino = image.liveExtents ino := by
  unfold Image.liveExtents Inode.allExtents
  rw [walked.inodes, walked.read]

theorem Walked.pinned (walked : Walked image next) (block : Nat) :
    next.volume.pinned block = image.volume.pinned block := by
  unfold Volume.pinned
  rw [walked.coverage]

theorem Walked.readable (walked : Walked image next) (readable : image.Readable) :
    next.Readable := by
  unfold Image.Readable
  rw [walked.inodes, walked.read]
  exact readable

theorem liveExtentList_spec (readable : image.Readable) (ino : Nat) :
    wp (liveExtentList ino)
      (fun extents next => extents = image.liveExtents ino ∧ Walked image next ∧
        next.volume.bitmap = image.volume.bitmap)
      never image := by
  unfold liveExtentList Image.liveExtents
  rw [wp_bind, wp_get]
  cases found : find ino image.inodes with
  | none => exact ⟨rfl, Walked.refl image, rfl⟩
  | some inode =>
    dsimp only
    rw [wp_bind, onTrees, wp_focus, onSpill, wp_focus, spilledExtents]
    unfold Inode.allExtents
    split_ifs with rootless
    · exact ⟨by simp, Walked.refl image, rfl⟩
    · have tree := readable _ (mem_of_find found) rootless
      obtain ⟨bindings, read⟩ := Option.isSome_iff_exists.mp tree
      have opened : SpillStore.read { image.volume.spill with handle := inode.spillExtentRoot }
          inode.spillExtentRoot = some bindings := read
      rw [read, wp_bind]
      refine (wp_modify).mpr ?_
      rw [wp_bind]
      show wp (SpillStore.reading id) _ _ _
      rw [wp_of_eq (show SpillStore.reading id _ = (some bindings, _) by
        unfold SpillStore.reading
        rw [opened]
        rfl)]
      exact ⟨rfl, ⟨rfl, rfl, rfl⟩, rfl⟩

/-- A cursor that has passed the extents before one block passes on to a later block. -/
theorem advance_advance {first second : Nat} (later : first ≤ second) (extents : List Extent) :
    advance second (advance first extents) = advance second extents := by
  induction extents with
  | nil => rfl
  | cons extent rest ih =>
    unfold advance at ih ⊢
    by_cases passed : extent.logicalEnd ≤ first
    · rw [dropWhile_cons_of_pos (by simpa using passed), ih,
        dropWhile_cons_of_pos (by simpa using passed.trans later)]
    · rw [dropWhile_cons_of_neg (by simpa using passed)]

/-- Where the first live extent that ends behind a block of a file begins, when it covers the
block. -/
def Image.mappedStart (image : Image) (key : ChecksumTreeKey) : Option Nat :=
  livePhys (ofLex key).2 (advance (ofLex key).2 (image.liveExtents (ofLex key).1))

/-- The walk frees the block of a record: the live extent does not begin there, the content is
younger than the remaining snapshots, and the block is not pinned. -/
def Image.Doomed (image : Image) (remaining : Nat) (record : ChecksumTreeKey × ChecksumTreeValue) :
    Prop :=
  image.mappedStart record.1 ≠ some record.2.physicalBlock ∧ remaining < record.2.generation ∧
    image.volume.pinned record.2.physicalBlock = false

/-- The cursor stands before the extents that the records to come ask for. -/
def Walk.Ready (walk : Walk) (image : Image) (records : Checksums) : Prop :=
  ∀ record ∈ records, (ofLex record.1).1 = walk.curIno →
    advance (ofLex record.1).2 walk.liveMap =
      advance (ofLex record.1).2 (image.liveExtents walk.curIno)

variable {records : Checksums} {walk : Walk}

/-- At every record the cursor reaches the extents of the record's inode. -/
theorem Walk.enter_spec (readable : image.Readable) (ready : walk.Ready image records) (ino : Nat) :
    wp (walk.enter ino)
      (fun entered next => entered.curIno = ino ∧
        entered.Ready image records ∧ Walked image next ∧
        next.volume.bitmap = image.volume.bitmap)
      never image := by
  unfold Walk.enter
  split_ifs with same
  · exact ⟨same.symm, ready, Walked.refl image, rfl⟩
  · refine wp_seq (liveExtentList_spec readable _) ?_
    rintro extents next ⟨rfl, walked, bitmap⟩
    exact ⟨rfl, fun _ _ _ => rfl, walked, bitmap⟩

theorem Walk.Ready.tail {record : ChecksumTreeKey × ChecksumTreeValue}
    (ready : walk.Ready image (record :: records)) (ordered : Assoc.Ordered (record :: records))
    (entered : walk.curIno = (ofLex record.1).1) :
    Walk.Ready ⟨walk.curIno, advance (ofLex record.1).2 walk.liveMap⟩ image records := by
  intro later mem own
  have after : record.1 < later.1 := (pairwise_cons.mp ordered).1 later mem
  have block_le : (ofLex record.1).2 ≤ (ofLex later.1).2 := by
    rcases Prod.Lex.lt_iff.mp after with other | same
    · have own' : (ofLex later.1).1 = walk.curIno := own
      omega
    · exact same.2.le
  rw [← ready later (mem_cons_of_mem _ mem) own]
  exact advance_advance block_le _

theorem reclaimRecords_spec {remaining : Nat} (readable : image.Readable)
    (ordered : Assoc.Ordered records) (ready : walk.Ready image records) :
    wp (reclaimRecords remaining walk records)
      (fun _ next => Walked image next ∧ ∀ block, next.volume.bitmap.used block = true ↔
        image.volume.bitmap.used block = true ∧
          ∀ record ∈ records, image.Doomed remaining record → record.2.physicalBlock ≠ block)
      never image := by
  induction records generalizing walk image with
  | nil => exact ⟨Walked.refl image, fun block => by simp⟩
  | cons record records ih =>
    obtain ⟨key, value⟩ := record
    unfold reclaimRecords
    refine wp_seq (Walk.enter_spec readable ready _) ?_
    rintro entered next ⟨own, entered_ready, walked, same_bitmap⟩
    rw [wp_bind, wp_get]
    dsimp only
    have start : livePhys (ofLex key).2 (advance (ofLex key).2 entered.liveMap) =
        image.mappedStart key := by
      rw [entered_ready (key, value) mem_cons_self own.symm, own]
      rfl
    have ready_tail := entered_ready.tail ordered own
    have rest_ordered := (pairwise_cons.mp ordered).2
    rw [start, walked.pinned]
    have step : ∀ after : Image, Walked image after →
        (∀ block, after.volume.bitmap.used block = true ↔ image.volume.bitmap.used block = true ∧
          (image.Doomed remaining (key, value) → value.physicalBlock ≠ block)) →
        wp (reclaimRecords remaining ⟨entered.curIno, advance (ofLex key).2 entered.liveMap⟩
          records) (fun _ final => Walked image final ∧
            ∀ block, final.volume.bitmap.used block = true ↔
              image.volume.bitmap.used block = true ∧ ∀ record ∈ (key, value) :: records,
                image.Doomed remaining record → record.2.physicalBlock ≠ block)
          never after := by
      intro after walked' freed
      have ready' : Walk.Ready ⟨entered.curIno, advance (ofLex key).2 entered.liveMap⟩ after
          records := by
        intro later mem same
        rw [walked'.liveExtents]
        exact ready_tail later mem same
      refine wp_imp (ih (walked'.readable readable) rest_ordered ready') ?_
      rintro _ final ⟨walked'', rest_freed⟩
      refine ⟨walked'.trans walked'', fun block => ?_⟩
      have same_doom : ∀ other, after.Doomed remaining other ↔ image.Doomed remaining other := by
        intro other
        unfold Image.Doomed Image.mappedStart
        rw [walked'.liveExtents, walked'.pinned]
      rw [rest_freed, freed, forall_mem_cons, and_assoc]
      simp only [same_doom]
    split_ifs with kept
    · refine step next walked fun block => ?_
      rw [same_bitmap]
      refine ⟨fun used => ⟨used, fun doomed => ?_⟩, fun both => both.1⟩
      rcases kept with same | old | held
      · exact absurd same doomed.1
      · exact absurd old (Nat.not_le.mpr doomed.2.1)
      · exact absurd held (by simp [doomed.2.2])
    · rw [wp_bind, freeBlock, wp_modify]
      have doomed : image.Doomed remaining (key, value) := by
        simp only [not_or, Nat.not_le, Bool.not_eq_true] at kept
        exact kept
      refine step _ ⟨walked.inodes, walked.read, walked.coverage⟩ fun block => ?_
      show (next.volume.bitmap.freeExtents value.physicalBlock 1).used block = true ↔ _
      rw [Allocator.Bitmap.used_freeExtents, same_bitmap]
      split_ifs with hit
      · have own_block : value.physicalBlock = block := by omega
        simp [doomed, own_block]
      · have other_block : value.physicalBlock ≠ block := by omega
        simp [other_block]

/-- A live inode maps a block. -/
def Image.LiveMaps (image : Image) (block : Nat) : Prop :=
  ∃ binding ∈ image.inodes, binding.2.Maps image.volume.spill block

/-- The frozen inode tree of a snapshot other than one maps a block. -/
def Image.RemainingMaps (image : Image) (id block : Nat) : Prop :=
  ∃ snapshot ∈ others id image.snapshots, ∃ binding ∈ snapshot.2.inodes,
    binding.2.Maps image.volume.spill block

/-- What every image has: extent trees where inodes name them, checksum trees in key order, and
inode numbers below the largest one. -/
structure Image.WellFormed (image : Image) : Prop where
  readable : image.Readable
  ordered : ∀ snapshot ∈ image.snapshots, Assoc.Ordered snapshot.2.checksums
  numbered : ∀ snapshot ∈ image.snapshots, ∀ record ∈ snapshot.2.checksums,
    (ofLex record.1).1 ≠ noIno

theorem deleteSnapshot_spec (wellFormed : image.WellFormed) {id : Nat} {record : SnapshotRecord}
    (found : find id image.snapshots = some record) (birth : record.birth = true)
    (checksummed : image.volume.checksums.isSome) :
    wp (deleteSnapshot id)
      (fun _ next => ∀ block, next.volume.bitmap.used block = true ↔
        image.volume.bitmap.used block = true ∧ ∀ frozen ∈ record.checksums,
          image.Doomed (maxBarrier (others id image.snapshots)) frozen →
            frozen.2.physicalBlock ≠ block)
      never image := by
  have mem := mem_of_find found
  have ready : Walk.Ready ⟨noIno, []⟩ image record.checksums := by
    intro frozen inside same
    exact absurd same (wellFormed.numbered _ mem frozen inside)
  unfold deleteSnapshot
  rw [wp_bind, wp_get]
  dsimp only
  rw [found]
  dsimp only
  rw [if_pos birth, wp_bind, reclaimBirthSnapshot, wp_bind, wp_get,
    if_neg (by simpa using Option.isSome_iff_ne_none.mp checksummed)]
  refine wp_imp (reclaimRecords_spec wellFormed.readable (wellFormed.ordered _ mem) ready) ?_
  rintro _ next ⟨-, freed⟩
  rw [dropRecord, wp_modify]
  exact freed

/-- Deleting a birth-mode snapshot frees only blocks that no live inode and no remaining
snapshot maps and that are not pinned, exactly when every record of the snapshot whose block is in
use, younger than the remaining snapshots, not pinned and still mapped is the first block of the
live extent that covers its logical block. -/
theorem delete_frees_unreachable_iff {image : Image} (wellFormed : image.WellFormed) {id : Nat}
    {record : SnapshotRecord} (found : find id image.snapshots = some record)
    (birth : record.birth = true) (checksummed : image.volume.checksums.isSome) :
    (deleteSnapshot id image).1 = some ⟨⟩ ∧
    ((∀ block, image.volume.bitmap.used block = true →
        (deleteSnapshot id image).2.volume.bitmap.used block = false →
          ¬ image.LiveMaps block ∧ image.volume.pinned block = false ∧
            ¬ image.RemainingMaps id block) ↔
      ∀ frozen ∈ record.checksums, image.volume.bitmap.used frozen.2.physicalBlock = true →
        maxBarrier (others id image.snapshots) < frozen.2.generation →
        image.volume.pinned frozen.2.physicalBlock = false →
        (image.LiveMaps frozen.2.physicalBlock ∨ image.RemainingMaps id frozen.2.physicalBlock) →
          image.mappedStart frozen.1 = some frozen.2.physicalBlock) := by
  obtain ⟨_, next, ran, freed⟩ :=
    returns_of_wp (deleteSnapshot_spec wellFormed found birth checksummed)
  rw [ran]
  refine ⟨rfl, ?_⟩
  constructor
  · intro safe frozen mem used younger unpinned mapped
    by_contra elsewhere
    have cleared : next.volume.bitmap.used frozen.2.physicalBlock = false := by
      rw [← Bool.not_eq_true, freed]
      exact fun kept => kept.2 frozen mem ⟨elsewhere, younger, unpinned⟩ rfl
    have unreached := safe _ used cleared
    exact mapped.elim unreached.1 unreached.2.2
  · intro begins block used cleared
    have doomed : ∃ frozen ∈ record.checksums,
        image.Doomed (maxBarrier (others id image.snapshots)) frozen ∧
          frozen.2.physicalBlock = block := by
      by_contra none_doomed
      have kept : next.volume.bitmap.used block = true :=
        (freed block).mpr ⟨used, fun frozen mem doomed same =>
          none_doomed ⟨frozen, mem, doomed, same⟩⟩
      exact absurd (kept.symm.trans cleared) (by decide)
    obtain ⟨frozen, mem, ⟨elsewhere, younger, unpinned⟩, rfl⟩ := doomed
    refine ⟨fun live => ?_, unpinned, fun remains => ?_⟩
    · exact elsewhere (begins frozen mem used younger unpinned (.inl live))
    · exact elsewhere (begins frozen mem used younger unpinned (.inr remains))

/-- The extent trees of an image that has none. -/
def noTrees : SpillStore :=
  { trees := fun _ => none, rootCell := none, handle := 0, nodeGen := 20, cowBarrier := 10
    allocator := id, allocations := 0 }

/-- A file of two blocks with the given extents and live checksum records, in an image whose
blocks below 200 are in use, with one snapshot of the file as one extent of blocks 100 and 101. -/
def twoBlockImage (extents : List Extent) (checksums : Checksums) : Image :=
  let frozen : Checksums := [(checksumKey 5 0, ⟨100, 0, 3⟩), (checksumKey 5 1, ⟨101, 0, 4⟩)]
  { volume :=
      { blocks := fun _ _ => 0
        bitmap := Allocator.twoHundredUsed
        checksums := some checksums
        coverage := none
        spill := noTrees }
    inodes := [(5, ⟨5, 8192, 0, extents, 0⟩)]
    nextIno := 6
    snapshots := [(1, ⟨10, true, [(5, ⟨5, 8192, 0, [⟨0, 100, 2⟩], 0⟩)], frozen⟩)]
    lastSnapshotGeneration := 10 }

theorem twoBlockImage_wellFormed (extents : List Extent) (checksums : Checksums) :
    (twoBlockImage extents checksums).WellFormed := by
  refine ⟨?_, ?_, ?_⟩
  · intro binding mem named
    rw [mem_singleton.mp mem] at named
    exact absurd rfl named
  · intro snapshot mem
    rw [mem_singleton.mp mem]
    show List.Pairwise _ _
    decide
  · intro snapshot mem
    rw [mem_singleton.mp mem]
    decide

/-- After the second block was redirected to block 150, deleting the snapshot frees block 101,
which nothing maps. -/
theorem delete_frees_redirected_block :
    let image := twoBlockImage [⟨0, 100, 1⟩, ⟨1, 150, 1⟩]
      [(checksumKey 5 0, ⟨100, 0, 3⟩), (checksumKey 5 1, ⟨150, 0, 12⟩)]
    (∀ block, image.volume.bitmap.used block = true →
        (deleteSnapshot 1 image).2.volume.bitmap.used block = false →
          ¬ image.LiveMaps block ∧ image.volume.pinned block = false ∧
            ¬ image.RemainingMaps 1 block) ∧
      (deleteSnapshot 1 image).2.volume.bitmap.used 101 = false := by
  refine ⟨((delete_frees_unreachable_iff (twoBlockImage_wellFormed _ _) rfl rfl rfl).2).mpr ?_, ?_⟩
  · intro frozen mem
    rcases mem_cons.mp mem with rfl | mem
    · intro used younger unpinned mapped
      decide
    · rw [mem_singleton.mp mem]
      intro used younger unpinned mapped
      rcases mapped with live | remains
      · exact absurd live (by unfold Image.LiveMaps; decide)
      · exact absurd remains (by unfold Image.RemainingMaps; decide)
  · decide

/-- With the file unchanged since the snapshot, deleting the snapshot frees the second block of
the live file's extent. -/
theorem delete_frees_live_block :
    let image := twoBlockImage [⟨0, 100, 2⟩]
      [(checksumKey 5 0, ⟨100, 0, 3⟩), (checksumKey 5 1, ⟨101, 0, 4⟩)]
    image.volume.bitmap.used 101 = true ∧
      (deleteSnapshot 1 image).2.volume.bitmap.used 101 = false ∧ image.LiveMaps 101 := by
  refine ⟨by decide, by decide, ?_⟩
  unfold Image.LiveMaps
  decide

end LionFS.Snapshot
