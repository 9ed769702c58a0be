import LionFS.File.Ownership

/-!
# What the files hold

Besides owning its blocks an inode has checksum records that match what the blocks
hold, and the dedup index names no free block as one to share. A call that
returns, moves no root of an extent tree and truncates cleanly keeps all this for
every inode: it changes no block of another inode and no record of another inode.
-/
namespace LionFS.File
open Assoc
variable (outside : Outside SpillStore)

/-- Every mapped block has the digest of its record, if it has one. -/
def Work.Verified (work : Work SpillStore) : Prop :=
  ∀ logical physical, work.Maps logical physical → work.verifies outside logical physical = true

/-- No block that shrinking to a size frees has the content that the index names it for. -/
def Work.FreesUnindexed (work : Work SpillStore) (newSize : Nat) : Prop :=
  newSize < work.inode.size → ∀ run ∈ work.handed newSize, ∀ block, work.Frees run block →
    ∀ hash, work.disk.Indexed hash block → outside.hash (work.disk.blocks block) ≠ hash

namespace Files
variable (files : Files)

/-- The inodes are sound, map nothing past their sizes and have matching records, and the index
names blocks in use. -/
structure Whole : Prop where
  sound : files.Sound
  within : ∀ ino, (files.work ino).Within
  indexed : ∀ ino, (files.work ino).IndexUsed outside
  verified : ∀ ino, (files.work ino).Verified outside

/-- A call returns, moves no root of an extent tree, and if it shrinks a file it leaves no extent
of the tree behind the end and frees neither pinned blocks nor blocks that the index names. -/
structure Safe (event : Nat × Call) : Prop where
  returns : files.Returns outside event
  still : (files.called outside event).2.disk.spill.rootCell = none
  clean : files.CutsCleanly event
  alike : ∀ newSize, event.2 = .truncate newSize → (files.work event.1).RunsPinnedAlike newSize
  unindexed : ∀ newSize, event.2 = .truncate newSize →
    (files.work event.1).FreesUnindexed outside newSize

/-- The image is whole but for the records of one inode. -/
structure WholeBut (ino : Nat) : Prop where
  sound : files.Sound
  within : ∀ other, (files.work other).Within
  indexed : (files.work ino).IndexUsed outside
  verified : ∀ other, other ≠ ino → (files.work other).Verified outside

/-- What a call on an inode leaves of an image: the rest of it alone, with its blocks and records,
and its own inode in order, but for the records. -/
structure Spares (ino : Nat) (next : Work SpillStore) : Prop where
  leaves : (files.work ino).Leaves (files.Foreign ino) next
  /-- No block of the inode is mapped past its size. -/
  within : next.Within
  indexed : next.IndexUsed outside
  blocks : ∀ block, files.Foreign ino block → next.disk.blocks block = files.disk.blocks block
  records : ∀ other, other ≠ ino → ∀ logical,
    next.disk.checksums.bind (find (checksumKey other logical)) =
      files.disk.checksums.bind (find (checksumKey other logical))

/-- A call leaves the rest of an image alone, and its own inode in order. -/
structure Served (ino : Nat) (next : Work SpillStore) :
    Prop extends Files.Spares outside files ino next where
  /-- The records of the inode match. -/
  verified : next.Verified outside

end Files

section Keeping
variable {outside : Outside SpillStore} {files : Files} {foreign : Nat → Prop}
  {work start now next : Work SpillStore} {lastBlock : Option Nat} {ino offset finish newSize : Nat}
  {data : Slice}

theorem Complete.verified (prog : Complete outside foreign start offset data now)
    (recorded : Recorded outside start offset (endBlock offset data.length) now)
    (verified : start.Verified outside) : now.Verified outside := by
  intro lba pba maps
  by_cases touched : Touched offset (endBlock offset data.length) lba
  · exact recorded.agree lba touched pba maps
  · rw [← verified lba pba ((prog.maps_iff touched pba).mp maps)]
    refine Work.verifies_congr ?_ (prog.quiet lba touched pba maps)
    unfold Work.record
    rw [prog.carries.reshaped.fields.1]
    refine recorded.others _ fun other other_touched same => touched ?_
    have equal : lba = other := congrArg (fun key => (ofLex key).2) same
    exact equal ▸ other_touched

theorem Files.Whole.but (whole : files.Whole outside) (ino : Nat) : files.WholeBut outside ino :=
  ⟨whole.sound, whole.within, whole.indexed ino, fun other _ => whole.verified other⟩

/-- An image that is whole but for the records of one inode, when they match as well. -/
theorem Files.WholeBut.whole (but : files.WholeBut outside ino)
    (verified : (files.work ino).Verified outside) : files.Whole outside := by
  refine ⟨but.sound, but.within, fun _ => but.indexed, fun other => ?_⟩
  by_cases same : other = ino
  · rw [same]
    exact verified
  · exact but.verified other same

/-- A call that leaves the rest of the image alone keeps it whole but for its own records. -/
theorem Files.WholeBut.put (but : files.WholeBut outside ino)
    (spares : files.Spares outside ino next) : (files.put ino next).WholeBut outside ino := by
  refine ⟨but.sound.put spares.leaves,
    spares.leaves.within but.sound but.within spares.within, spares.indexed, ?_⟩
  intro other apart lba pba maps
  have before := (spares.leaves.maps_of_ne but.sound apart lba pba).mp maps
  rw [← but.verified other apart lba pba before, files.work_put_of_ne apart]
  refine Work.verifies_congr ?_ ?_
  · unfold Work.record
    show next.disk.checksums.bind (find (checksumKey (files.inodes other).ino lba)) = _
    rw [but.sound.numbered other]
    show _ = files.disk.checksums.bind (find (checksumKey (files.inodes other).ino lba))
    rw [but.sound.numbered other]
    exact spares.records other apart lba
  · exact spares.blocks pba ⟨other, apart, lba, before⟩

/-- A call that leaves the rest of the image alone and its own records matching keeps the image
whole. -/
theorem Files.Whole.put (whole : files.Whole outside) (served : files.Served outside ino next) :
    (files.put ino next).Whole outside := by
  refine ((whole.but ino).put served.toSpares).whole ?_
  rw [files.work_put_self]
  exact served.verified

/-- The data part of a write leaves the rest of the image alone. -/
theorem Complete.spares (but : files.WholeBut outside ino)
    (prog : Complete outside (files.Foreign ino) (files.work ino) offset data now)
    (records : ∀ other, other ≠ ino → ∀ lba,
      now.disk.checksums.bind (find (checksumKey other lba)) =
        files.disk.checksums.bind (find (checksumKey other lba))) :
    files.Spares outside ino (now.sized (max (files.inodes ino).size (offset + data.length))) := by
  refine ⟨prog.carries.leaves prog.owned _, prog.within (but.within ino),
    prog.indexed, fun block others => ?_, records⟩
  have owned := but.sound.owned ino
  have pos : 0 < block := by
    obtain ⟨other, -, lba, maps⟩ := others
    exact ((but.sound.owned other).maps_iff.mp maps).1
  exact prog.others block pos (owned.abroad block others)
    fun lba _ maps => owned.apart lba block others maps

/-- The index names blocks in use after a truncation that frees none of its blocks. -/
theorem Freed.indexUsed (freed : Freed work now (work.handed newSize))
    (shrinks : newSize < work.inode.size) (indexed : work.IndexUsed outside)
    (unindexed : work.FreesUnindexed outside newSize) : now.IndexUsed outside := by
  intro hash block names same_hash
  unfold Disk.Indexed at names
  rw [freed.dedupe] at names
  rw [freed.blocks] at same_hash
  obtain ⟨nonzero, used⟩ := indexed hash block names same_hash
  refine ⟨nonzero, freed.kept block used fun run mem frees => ?_⟩
  exact unindexed shrinks run mem block frees hash names same_hash

namespace Files
section
variable (whole : files.Whole outside)
include whole

theorem Whole.wrote (safe : files.Safe outside (ino, .write offset data)) :
    ∃ mid, Complete outside (files.Foreign ino) (files.work ino) offset data mid ∧
      Recorded outside (files.work ino) offset (endBlock offset data.length) mid ∧
      (files.called outside (ino, .write offset data)).2 =
        mid.sized (max (files.inodes ino).size (offset + data.length)) :=
  whole.sound.wrote (whole.within ino) (whole.indexed ino) safe.returns
    fun moved => moved safe.still

/-- A safe call of `write_file` leaves the rest of the image alone. -/
theorem Whole.write (safe : files.Safe outside (ino, .write offset data)) :
    files.Served outside ino (files.called outside (ino, .write offset data)).2 := by
  obtain ⟨mid, prog, recorded, after⟩ := whole.wrote safe
  rw [after]
  refine ⟨prog.spares (whole.but ino) ?_, prog.verified recorded (whole.verified ino)⟩
  intro other apart lba
  refine recorded.others _ fun touched _ same => apart ?_
  have equal : other = (files.inodes ino).ino := congrArg (fun key => (ofLex key).1) same
  rw [equal]
  exact whole.sound.numbered ino

/-- A growing call of `truncate_file` leaves the rest of the image alone. -/
theorem Whole.grow (grows : (files.inodes ino).size ≤ newSize) :
    files.Served outside ino (files.called outside (ino, .truncate newSize)).2 := by
  rw [whole.sound.grows grows]
  have owned := whole.sound.owned ino
  refine ⟨⟨owned.carries.leaves owned newSize, ?_, whole.indexed ino, fun _ _ => rfl,
    fun _ _ _ => rfl⟩, whole.verified ino⟩
  intro lba pba maps
  exact (whole.within ino lba pba maps).trans_le (blocksFor_le grows)

/-- A safe shrinking call of `truncate_file` leaves the rest of the image alone. -/
theorem Whole.shrink (shrinks : newSize < (files.inodes ino).size)
    (safe : files.Safe outside (ino, .truncate newSize)) :
    files.Served outside ino (files.called outside (ino, .truncate newSize)).2 := by
  have truncated := whole.sound.truncated shrinks safe.returns fun moved => moved safe.still
  obtain ⟨bits, disk, freed⟩ := truncated.freed
  have maps_iff := truncated.maps_iff shrinks safe.clean
  refine ⟨⟨truncated.leaves (truncated.owned (whole.sound.owned ino) shrinks safe.clean
    (safe.alike newSize rfl)), ?_, ?_, ?_, ?_⟩, ?_⟩
  · intro lba pba maps
    rw [truncated.fields.2.1]
    exact ((maps_iff _ _).mp maps).2
  · have used := freed.indexUsed shrinks (whole.indexed ino) (safe.unindexed newSize rfl)
    unfold Work.IndexUsed at used ⊢
    rwa [disk]
  · intro block _
    rw [disk, freed.blocks]
    rfl
  · intro other _ lba
    rw [disk, freed.checksums]
    rfl
  · intro lba pba maps
    rw [← whole.verified ino lba pba ((maps_iff _ _).mp maps).1]
    refine Work.verifies_congr ?_ ?_
    · unfold Work.record
      rw [disk, freed.checksums, truncated.fields.1]
    · rw [disk, freed.blocks]

/-- A safe call leaves the rest of the image alone. -/
theorem Whole.served {event : Nat × Call} (safe : files.Safe outside event) :
    files.Served outside event.1 (files.called outside event).2 := by
  obtain ⟨ino, call⟩ := event
  cases call with
  | write offset data => exact whole.write safe
  | truncate newSize =>
    by_cases shrinks : newSize < (files.inodes ino).size
    · exact whole.shrink shrinks safe
    · exact whole.grow (Nat.not_lt.mp shrinks)

end
end Files
end Keeping

theorem Files.safe_write {outside : Outside SpillStore} {files : Files} {ino offset : Nat}
    {data : Slice} (returns : files.Returns outside (ino, .write offset data))
    (still : (files.called outside (ino, .write offset data)).2.disk.spill.rootCell = none) :
    files.Safe outside (ino, .write offset data) :=
  { returns, still, clean := trivial, alike := fun _ same => (nomatch same),
    unindexed := fun _ same => (nomatch same) }

/-- An inode as it is created. -/
def blankInode (ino : Nat) : Inode := ⟨ino, 0, 0, [], 0⟩

/-- An image without files is whole when its volume is in order and the index is empty. -/
theorem blank_whole (outside : Outside SpillStore) {disk : Disk SpillStore}
    (still : disk.spill.rootCell = none) (fresh : disk.spill.Fresh)
    (covered : Work.Covered ⟨disk, blankInode 0⟩) (zero : disk.bitmap.used 0 = true)
    (unnamed : ∀ hash block, ¬ disk.Indexed hash block) :
    Files.Whole outside ⟨disk, blankInode⟩ := by
  have unmapped : ∀ ino lba pba, ¬ Files.Maps ⟨disk, blankInode⟩ ino lba pba :=
    fun _ _ _ => mapsTo_nil
  refine ⟨⟨fun _ => rfl, fun _ => rfl, fun _ _ rooted _ => absurd rfl rooted, fun ino => ?_⟩,
    ?_, ?_, ?_⟩
  · refine Work.owned_blank still fresh ⟨covered.tree, covered.disjoint⟩ zero ?_ ino
    rintro pba ⟨other, -, lba, maps⟩
    exact absurd maps (unmapped other lba pba)
  · exact fun ino lba pba maps => absurd maps (unmapped ino lba pba)
  · exact fun _ hash block indexed => absurd indexed (unnamed hash block)
  · exact fun ino lba pba maps => absurd maps (unmapped ino lba pba)

end LionFS.File
