import LionFS.File.Bytes
import LionFS.File.Reflink

/-!
# Checksums and good data

Writes, truncations, clones and new inodes, one after another on one image. As
long as the calls return, move no root and truncate cleanly, every read of every
inode returns exactly as long as no clone meets a record of its destination that
does not match the block it gets there. Records outlive the blocks they were made
for, so a clone into an inode that had content before does meet such records.
-/
namespace LionFS.File
open Run Option Files
open SpillStore (operations)

/-- What is done to an image. -/
inductive Action
  /-- `write_file` or `truncate_file`. -/
  | call (ino : Nat) (call : Call)
  /-- `write_file_runs`. -/
  | writeRuns (ino : Nat) (runs : List (Nat × Slice))
  /-- `reflink_file_in_ctx`. -/
  | reflink (srcIno dstIno : Nat)
  /-- The number of an inode is given to a new, empty one. -/
  | create (ino : Nat)

namespace Files

/-- The inode of an action. -/
def subject : Action → Nat
  | .call ino _ => ino
  | .writeRuns ino _ => ino
  | .reflink _ dstIno => dstIno
  | .create ino => ino

variable (outside : Outside SpillStore) (files : Files)

/-- What an action leaves behind on its inode, and whether it returned without an error. -/
def outcome : Action → Bool × Work SpillStore
  | .call ino call => ((files.called outside (ino, call)).1.isSome,
      (files.called outside (ino, call)).2)
  | .writeRuns ino runs =>
    let result := writeFileRuns operations outside runs (files.work ino)
    (result.1.isSome, result.2)
  | .reflink srcIno dstIno =>
    let result := reflinkFile (files.inodes srcIno) (files.work dstIno)
    (result.1.isSome, result.2)
  | .create ino => (true, ⟨files.disk, blankInode ino⟩)

/-- One action after another. -/
def act (action : Action) : Option Files :=
  some (files.put (subject action) (files.outcome outside action).2)

/-- Every read of every inode returns. -/
def ReadsReturn : Prop :=
  ∀ ino offset count,
    (readFile operations outside offset count (files.work ino)).1.isSome

/-- An action returns and moves no root, and its truncations are safe. -/
structure Careful (action : Action) : Prop where
  returns : (files.outcome outside action).1 = true
  still : (files.outcome outside action).2.disk.spill.rootCell = none
  safe : ∀ ino call, action = .call ino call → files.Safe outside (ino, call)

/-- The records that the destination of a clone has match the blocks that it gets. -/
def RecordsMatch : Action → Prop
  | .reflink srcIno dstIno => ∀ logical physical, files.Maps srcIno logical physical →
      (files.work dstIno).verifies outside logical physical = true
  | _ => True

end Files

section Checking
variable {outside : Outside SpillStore} {foreign : Nat → Prop} {files : Files}
  {work next : Work SpillStore} {ino srcIno dstIno : Nat}

/-- A whole image is read without an error. -/
theorem Files.Whole.readsReturn (whole : files.Whole outside) : files.ReadsReturn outside := by
  intro ino offset count
  obtain ⟨slice, returned, -⟩ := readFile_spec (whole.sound.owned ino) (whole.verified ino)
    (whole.sound.plain ino) offset count
  rw [returned]
  rfl

variable {logical physical : Nat}

theorem verifies_of_read (owned : work.Owned foreign) (plain : work.inode.compressionAlgo = 0)
    (maps : work.Maps logical physical) (mem : logical * blockSize < work.inode.size)
    (returned : (readFile operations outside (logical * blockSize) 1 work).1.isSome) :
    work.verifies outside logical physical = true := by
  obtain ⟨nonzero, found⟩ := owned.maps_iff.mp maps
  obtain ⟨slice, returned⟩ := isSome_iff_exists.mp returned
  have spec : wp (readFile operations outside (logical * blockSize) 1)
      (fun _ _ => work.verifies outside logical physical = true) anyhow work := by
    unfold readFile
    rw [wp_bind, wp_get, if_neg (Nat.not_le.mpr mem), if_neg (not_not.mpr plain)]
    dsimp only
    have one_byte : min 1 (work.inode.size - logical * blockSize) = 1 := by omega
    have one_piece : chunks (logical * blockSize) 1 =
        [pieceIn (logical * blockSize) 1 logical] := by
      have first : logical * blockSize / blockSize = logical := Nat.mul_div_cancel _ (by decide)
      have behind : endBlock (logical * blockSize) 1 = logical + 1 := by
        unfold endBlock
        rw [if_neg Nat.one_ne_zero, Nat.add_sub_cancel, first]
      rw [chunks_eq, first, behind, Nat.add_sub_cancel_left]
      rfl
    rw [one_byte, one_piece, wp_bind]
    unfold readChunks
    rw [wp_bind, wp_get, wp_bind, onTrees, wp_focus]
    refine wp_total (getPhysicalBlock_spec owned.sound logical) ?_
    rintro block _ ⟨rfl, handle, rfl⟩
    rw [found, if_neg nonzero.ne']
    split_ifs with verifies
    · exact verifies
    · trivial
  exact post_of_returns spec returned

/-- A clone owns its blocks: all of them are pinned. -/
theorem Cloned.owned {src : Inode} (cloned : Cloned src work next) (owned : work.Owned foreign)
    (used : ∀ logical physical, MapsTo (src.allExtents work.disk.spill) logical physical →
      work.disk.bitmap.used physical = true) : next.Owned foreign := by
  constructor
  · exact cloned.kept.still
  · exact cloned.kept.fresh owned.fresh
  · exact cloned.sound
  · exact cloned.covered owned.covered
  · exact cloned.grows.used 0 owned.zero
  · intro logical physical maps
    refine cloned.grows.used physical (used logical physical ?_)
    rw [← cloned.extents]
    exact maps
  · exact fun physical others => cloned.grows.used physical (owned.abroad physical others)
  · exact fun one two physical first _ => .inr (cloned.pinned one physical first)
  · exact fun logical physical _ maps => cloned.pinned logical physical maps

/-- What a clone leaves of a whole image. -/
theorem Files.Whole.cloned (whole : files.Whole outside)
    (cloned : Cloned (files.inodes srcIno) (files.work dstIno) next) :
    files.Spares outside dstIno next := by
  have owned := cloned.owned (whole.sound.owned dstIno)
    fun logical physical maps => (whole.sound.owned srcIno).used logical physical maps
  constructor
  · exact ⟨owned, cloned.pins, cloned.kept, cloned.root, cloned.fields.1, cloned.fields.2.2⟩
  · intro logical physical maps
    rw [cloned.fields.2.1]
    refine whole.within srcIno logical physical ?_
    show MapsTo _ _ _
    exact cloned.extents ▸ maps
  · exact (whole.indexed dstIno).kept cloned.dedupe cloned.blocks cloned.grows
  · intro block _
    rw [cloned.blocks]
    rfl
  · intro other _ logical
    rw [cloned.checksums]
    rfl

/-- Taking node blocks leaves a whole image whole. -/
theorem Files.Whole.shares (whole : files.Whole outside) (shares : (files.work ino).Shares next)
    (same : next.disk.spill = files.disk.spill) : files.Served outside ino next := by
  obtain ⟨carries, owned, maps_iff⟩ := (whole.sound.owned ino).aside { shares with spill := same }
  refine ⟨⟨carries.leaves owned next.inode.size, ?_, ?_, ?_, ?_⟩, ?_⟩
  · intro logical physical maps
    rw [shares.inode]
    exact whole.within ino logical physical ((maps_iff _ _).mp maps)
  · exact (whole.indexed ino).kept shares.dedupe shares.blocks shares.grows
  · intro block _
    rw [shares.blocks]
    rfl
  · intro other _ logical
    rw [shares.checksums]
    rfl
  · intro logical physical maps
    rw [← whole.verified ino logical physical ((maps_iff _ _).mp maps)]
    refine Work.verifies_congr ?_ (congrFun shares.blocks physical)
    unfold Work.record
    rw [shares.inode, shares.checksums]

theorem Work.verifies_of_unrecorded (absent : work.record logical = none) :
    work.verifies outside logical physical = true := by
  unfold Work.verifies
  rw [absent]

/-- A mapped block of a whole image begins before the end of the file. -/
theorem Work.Within.inside (within : work.Within) (maps : work.Maps logical physical) :
    logical * blockSize < work.inode.size := by
  have bound := within logical physical maps
  unfold blocksFor blockSize at bound
  unfold blockSize
  omega

/-- A clone leaves the image whole exactly when the records of its destination match. -/
theorem Files.Whole.cloned_iff (whole : files.Whole outside)
    (cloned : Cloned (files.inodes srcIno) (files.work dstIno) next) :
    (files.RecordsMatch outside (.reflink srcIno dstIno) →
      (files.put dstIno next).Whole outside) ∧
    ((files.put dstIno next).ReadsReturn outside →
      files.RecordsMatch outside (.reflink srcIno dstIno)) := by
  have spares := whole.cloned cloned
  have maps_iff : ∀ logical physical,
      next.Maps logical physical ↔ files.Maps srcIno logical physical := by
    intro logical physical
    unfold Files.Maps Work.Maps
    rw [cloned.extents]
    rfl
  have verifies : ∀ logical physical, next.verifies outside logical physical =
      (files.work dstIno).verifies outside logical physical := by
    intro logical physical
    refine Work.verifies_congr ?_ (congrFun cloned.blocks physical)
    unfold Work.record
    rw [cloned.checksums, cloned.fields.1]
  constructor
  · intro records_match
    refine ((whole.but dstIno).put spares).whole fun logical physical maps => ?_
    rw [files.work_put_self] at maps ⊢
    rw [verifies]
    exact records_match logical physical ((maps_iff _ _).mp maps)
  · intro reads logical physical maps
    have maps' := (maps_iff _ _).mpr maps
    rw [← verifies]
    have returned := reads dstIno (logical * blockSize) 1
    rw [files.work_put_self] at returned
    exact verifies_of_read spares.leaves.owned
      (spares.leaves.fields.2.trans (whole.sound.plain dstIno)) maps' (spares.within.inside maps')
      returned

/-- `reflink_file_in_ctx` leaves the image whole exactly when the records of its destination
match. -/
theorem Files.Whole.reflink (whole : files.Whole outside)
    (careful : files.Careful outside (.reflink srcIno dstIno)) :
    (files.RecordsMatch outside (.reflink srcIno dstIno) →
      (files.put dstIno (files.outcome outside (.reflink srcIno dstIno)).2).Whole outside) ∧
    ((files.put dstIno (files.outcome outside (.reflink srcIno dstIno)).2).ReadsReturn outside →
      files.RecordsMatch outside (.reflink srcIno dstIno)) := by
  have still := careful.still
  obtain ⟨count, returned⟩ := isSome_iff_exists.mp careful.returns
  have source : (files.inodes srcIno).Sound (files.work dstIno).disk.spill :=
    (whole.sound.owned srcIno).sound
  obtain ⟨-, empty | cloned⟩ := (post_of_returns
    (reflinkFile_spec (whole.sound.owned dstIno) source) returned).resolve_left
      fun moved => moved still
  · refine ⟨fun _ => whole.put (whole.shares empty.2.1 empty.2.2),
      fun _ logical physical maps => ?_⟩
    have bound : logical * blockSize < (files.inodes srcIno).size :=
      (whole.within srcIno).inside maps
    rw [empty.1] at bound
    exact absurd bound (Nat.not_lt_zero _)
  · exact whole.cloned_iff cloned

theorem Work.Owned.mono {fewer : Nat → Prop} (owned : work.Owned foreign)
    (less : ∀ block, fewer block → foreign block) : work.Owned fewer :=
  { owned with
    abroad := fun block others => owned.abroad block (less block others)
    apart := fun logical block others => owned.apart logical block (less block others) }

theorem Files.Whole.create (whole : files.Whole outside) (ino : Nat) :
    (files.put ino ⟨files.disk, blankInode ino⟩).Whole outside := by
  have unmapped : ∀ logical physical,
      ¬ (files.put ino ⟨files.disk, blankInode ino⟩).Maps ino logical physical := by
    intro logical physical maps
    exact mapsTo_nil (maps_put_self.mp maps)
  have same : ∀ {other}, other ≠ ino →
      (files.put ino ⟨files.disk, blankInode ino⟩).work other = files.work other :=
    fun apart => files.work_put_of_ne apart _
  have fewer : ∀ other block, (files.put ino ⟨files.disk, blankInode ino⟩).Foreign other block →
      files.Foreign other block := by
    rintro other block ⟨third, apart, logical, maps⟩
    by_cases created : third = ino
    · exact absurd (created ▸ maps) (unmapped logical block)
    · refine ⟨third, apart, logical, ?_⟩
      unfold Files.Maps at maps ⊢
      rwa [same created] at maps
  refine ⟨⟨fun other => ?_, fun other => ?_, fun one two rooted same_root => ?_, fun other => ?_⟩,
    fun other => ?_, fun other => ?_, fun other => ?_⟩
  · refine forall_put (fun other work => work.inode.ino = other) ?_
      (fun other _ => whole.sound.numbered other) other
    rfl
  · exact forall_put (fun _ work => work.inode.compressionAlgo = 0) rfl
      (fun other _ => whole.sound.plain other) other
  · by_cases first : one = ino
    · rw [first, files.inodes_put_self] at rooted
      exact absurd rfl rooted
    · by_cases second : two = ino
      · rw [second, files.inodes_put_self] at same_root
        exact absurd same_root rooted
      · rw [files.inodes_put_of_ne first] at rooted same_root
        rw [files.inodes_put_of_ne second] at same_root
        exact whole.sound.roots one two rooted same_root
  · have own := whole.sound.owned ino
    refine forall_put (fun other work => work.Owned (Foreign _ other)) ?_
      (fun other _ => (whole.sound.owned other).mono (fewer other)) other
    exact Work.owned_blank own.still own.fresh ⟨own.covered.tree, own.covered.disjoint⟩ own.zero
      (fun block others => own.abroad block (fewer ino block others)) ino
  · refine forall_put (fun _ work => work.Within) ?_ (fun other _ => whole.within other) other
    exact fun _ _ maps => absurd maps mapsTo_nil
  · exact whole.indexed other
  · refine forall_put (fun _ work => work.Verified outside) ?_
      (fun other _ => whole.verified other) other
    exact fun _ _ maps => absurd maps mapsTo_nil

theorem Files.Whole.act (whole : files.Whole outside) {action : Action} {after : Files}
    (careful : files.Careful outside action) (taken : files.act outside action = some after) :
    (files.RecordsMatch outside action → after.Whole outside) ∧
      (after.ReadsReturn outside → files.RecordsMatch outside action) := by
  obtain rfl := some.inj taken
  cases action with
  | call ino call =>
    exact ⟨fun _ => whole.put (whole.served (careful.safe ino call rfl)), fun _ => trivial⟩
  | writeRuns ino runs =>
    refine ⟨fun _ => ?_, fun _ => trivial⟩
    have still := careful.still
    obtain ⟨done, returned⟩ := isSome_iff_exists.mp careful.returns
    exact (post_of_returns (writeFileRuns_spec whole) returned).resolve_left
      fun moved => moved still
  | reflink srcIno dstIno => exact whole.reflink careful
  | create ino => exact ⟨fun _ => whole.create ino, fun _ => trivial⟩

end Checking

theorem careful_call {outside : Outside SpillStore} {files : Files} {ino : Nat} {call : Call}
    (unpinned : files.disk.coverage = none) (off : files.disk.dedupe = none)
    (returns : files.Returns outside (ino, call))
    (still : (files.called outside (ino, call)).2.disk.spill.rootCell = none)
    (clean : files.CutsCleanly (ino, call)) : files.Careful outside (.call ino call) := by
  refine ⟨?_, still, fun other made same => ?_⟩
  · show (files.called outside (ino, call)).1.isSome = true
    rw [returns]
    rfl
  · cases same
    refine { returns, still, clean, alike := fun newSize _ _ run _ => .inr ?_, unindexed := ?_ }
    · intro block _ _ pinned
      unfold Volume.pinned at pinned
      rw [show (files.work ino).disk.coverage = none from unpinned] at pinned
      cases pinned
    · rintro newSize _ _ run _ block _ hash ⟨record, found, -⟩
      rw [show (files.work ino).disk.dedupe = none from off] at found
      cases found

/-- The first byte as the digest. -/
def firstByteOutside : Outside SpillStore :=
  { nothingOutside with digest := fun page => (page 0).toNat }

/-- An image without files that has a checksum tree. -/
def checkedFiles : Files :=
  ⟨{ (blankFiles fun _ => zeroPage).disk with checksums := some [] }, blankInode⟩

theorem checkedFiles_whole (outside : Outside SpillStore) : checkedFiles.Whole outside := by
  have owned := (blankFiles_unshared fun _ => zeroPage).sound.owned 0
  refine blank_whole outside owned.still owned.fresh ⟨owned.covered.tree, owned.covered.disjoint⟩
    owned.zero ?_
  rintro hash block ⟨record, found, -⟩
  cases found

/-- A file is written and cloned into a new inode. -/
def cloneActions : List Action := [.call 1 (.write 0 ⟨1, fun _ => 66⟩), .reflink 1 2]

/-- An inode is written and cut back, and another file is cloned into it. -/
def recloneActions : List Action :=
  [.call 2 (.write 0 ⟨1, fun _ => 65⟩), .call 2 (.truncate 0),
    .call 1 (.write 0 ⟨1, fun _ => 66⟩), .reflink 1 2]

end LionFS.File
