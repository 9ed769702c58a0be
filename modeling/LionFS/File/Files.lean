import LionFS.Data.Machine
import LionFS.File.Shrink
import LionFS.File.Written

/-!
# The files of an image

An image with several inodes, on which calls of `write_file` and `truncate_file`
are made one after another. A call works on the volume and on one inode; both are
stored back as the call leaves them, also when it fails. The inodes are sound when
each one owns its blocks against the others and no two have one extent tree. A
call keeps this when it leaves its own inode an owner and the other extent trees
alone.
-/
namespace LionFS.File
open SpillStore

/-- The volume and the inodes of an image. -/
structure Files where
  /-- The volume. -/
  disk : Disk SpillStore
  /-- The inodes by number; one that is not in use has no blocks. -/
  inodes : Nat → Inode

/-- A call of the file layer on an inode. -/
inductive Call
  /-- `write_file`. -/
  | write (offset : Nat) (data : Slice)
  /-- `truncate_file`. -/
  | truncate (newSize : Nat)

variable (outside : Outside SpillStore)

/-- What a call runs. -/
def Call.command : Call → Run (Work SpillStore) PUnit
  | .write offset data => writeFile operations outside offset data
  | .truncate newSize => truncateFile operations outside newSize

namespace Files
variable (files : Files)

/-- The state of a call on an inode. -/
def work (ino : Nat) : Work SpillStore := ⟨files.disk, files.inodes ino⟩

/-- The state of a call is stored back. -/
def put (ino : Nat) (work : Work SpillStore) : Files :=
  ⟨work.disk, Function.update files.inodes ino work.inode⟩

variable (event : Nat × Call)

/-- The state that a call on an inode leaves behind, with its outcome. -/
def called : Option PUnit × Work SpillStore :=
  event.2.command outside (files.work event.1)

/-- The call returns without an error. -/
def Returns : Prop :=
  (files.called outside event).1 = some ⟨⟩

instance : Decidable (files.Returns outside event) := inferInstanceAs (Decidable (_ = _))

/-- One call after another. -/
def step : Option Files :=
  some (files.put event.1 (files.called outside event).2)

/-- An inode maps a logical block to a physical one. -/
def Maps (ino logical physical : Nat) : Prop :=
  (files.work ino).Maps logical physical

/-- Some other inode maps a block. -/
def Foreign (ino physical : Nat) : Prop :=
  ∃ other, other ≠ ino ∧ ∃ logical, files.Maps other logical physical

/-- The inodes are numbered and not compressed, have trees of their own, and own their blocks. -/
structure Sound : Prop where
  numbered : ∀ ino, (files.inodes ino).ino = ino
  plain : ∀ ino, (files.inodes ino).compressionAlgo = 0
  roots : ∀ one two, (files.inodes one).spillExtentRoot ≠ 0 →
    (files.inodes one).spillExtentRoot = (files.inodes two).spillExtentRoot → one = two
  owned : ∀ ino, (files.work ino).Owned (files.Foreign ino)

theorem inodes_put_self (ino : Nat) (work : Work SpillStore) :
    (files.put ino work).inodes ino = work.inode := Function.update_self _ _ _

theorem inodes_put_of_ne {ino other : Nat} (apart : other ≠ ino) (work : Work SpillStore) :
    (files.put ino work).inodes other = files.inodes other :=
  Function.update_of_ne apart _ _

/-- A call on the same inode starts from what was stored back. -/
theorem work_put_self (ino : Nat) (work : Work SpillStore) :
    (files.put ino work).work ino = work := by
  unfold Files.work
  rw [inodes_put_self]
  rfl

/-- A call on another inode starts from the new volume. -/
theorem work_put_of_ne {ino other : Nat} (apart : other ≠ ino) (work : Work SpillStore) :
    (files.put ino work).work other = ⟨work.disk, files.inodes other⟩ := by
  unfold Files.work
  rw [inodes_put_of_ne files apart]
  rfl

/-- What holds of the inode of a call and of the others holds of all. -/
theorem forall_put (property : Nat → Work SpillStore → Prop) {files : Files} {ino : Nat}
    {next : Work SpillStore} (own : property ino next)
    (rest : ∀ other, other ≠ ino → property other ⟨next.disk, files.inodes other⟩) (other : Nat) :
    property other ((files.put ino next).work other) := by
  by_cases same : other = ino
  · rw [same, work_put_self]
    exact own
  · rw [work_put_of_ne files same]
    exact rest other same

end Files

/-- What a call on an inode leaves to the rest of the image. -/
structure Work.Leaves (foreign : Nat → Prop) (work next : Work SpillStore) : Prop where
  owned : next.Owned foreign
  pins : ∀ block, work.disk.pinned block = true → next.disk.pinned block = true
  kept : SpillStore.Kept next.inode.spillExtentRoot work.disk.spill next.disk.spill
  /-- The inode has the tree it had, or got one. -/
  root : next.inode.spillExtentRoot = work.inode.spillExtentRoot ∨
    work.inode.spillExtentRoot = 0 ∧ work.disk.spill.trees next.inode.spillExtentRoot = none
  /-- The inode has its number and is not compressed. -/
  fields : next.inode.ino = work.inode.ino ∧
    next.inode.compressionAlgo = work.inode.compressionAlgo

section Leaving
variable {outside : Outside SpillStore} {foreign : Nat → Prop} {files : Files}
  {work next : Work SpillStore} {ino : Nat}

/-- The parts of a write leave the rest of the image alone. -/
theorem Work.Carries.leaves (carries : work.Carries next) (owned : next.Owned foreign)
    (size : Nat) : work.Leaves foreign (next.sized size) :=
  ⟨owned.sized size, carries.pins, carries.reshaped.kept, carries.reshaped.root,
    carries.reshaped.fields.1, carries.reshaped.fields.2.2⟩

variable {newSize : Nat}

/-- A clean truncation leaves the rest of the image alone. -/
theorem Truncated.leaves (truncated : Truncated work newSize next) (owned : next.Owned foreign) :
    work.Leaves foreign next := by
  obtain ⟨now, disk, freed⟩ := truncated.freed
  obtain ⟨number, -, algorithm, root⟩ := truncated.fields
  refine ⟨owned, ?_, root ▸ truncated.kept, .inl root, number, algorithm⟩
  intro block pinned
  unfold Volume.pinned at pinned ⊢
  rwa [disk, freed.coverage]

variable {other : Nat}
section
variable (leaves : (files.work ino).Leaves foreign next)
include leaves
variable (sound : files.Sound) (apart : other ≠ ino)
include sound apart

/-- The tree of another inode is not the one the call may have changed. -/
theorem Work.Leaves.root_ne (rooted : (files.inodes other).spillExtentRoot ≠ 0) :
    (files.inodes other).spillExtentRoot ≠ next.inode.spillExtentRoot := by
  intro same
  rcases leaves.root with unchanged | ⟨-, absent⟩
  · exact apart (sound.roots other ino rooted (same.trans unchanged))
  · have still : files.disk.spill.rootCell = none := (sound.owned other).still
    obtain ⟨bindings, read, -⟩ := (sound.owned other).sound.tree rooted
    have none_there : files.disk.spill.read (files.inodes other).spillExtentRoot = none := by
      unfold SpillStore.read
      rw [viewRoot_of_still still, same]
      exact congrArg (Option.map SpillTree.bindings) absent
    cases none_there.symm.trans read

/-- Another inode with a tree reads it as before. -/
theorem Work.Leaves.read_eq (rooted : (files.inodes other).spillExtentRoot ≠ 0) :
    next.disk.spill.read (files.inodes other).spillExtentRoot =
      files.disk.spill.read (files.inodes other).spillExtentRoot := by
  have still : files.disk.spill.rootCell = none := (sound.owned other).still
  unfold SpillStore.read
  rw [viewRoot_of_still still, viewRoot_of_still leaves.kept.still,
    leaves.kept.others _ (.inl (leaves.root_ne sound apart rooted))]
  rfl

theorem Work.Leaves.allExtents :
    (files.inodes other).allExtents next.disk.spill =
      (files.inodes other).allExtents files.disk.spill := by
  unfold Inode.allExtents
  split_ifs with rootless
  · rfl
  · rw [leaves.read_eq sound apart rootless]

/-- What another inode maps stays mapped. -/
theorem Work.Leaves.maps_of_ne (lba pba : Nat) :
    (files.put ino next).Maps other lba pba ↔ files.Maps other lba pba := by
  unfold Files.Maps
  rw [files.work_put_of_ne apart]
  unfold Work.Maps
  dsimp only
  rw [leaves.allExtents sound apart]
  rfl

end

/-- The inode of the call maps what the call leaves it. -/
theorem Files.maps_put_self {lba pba : Nat} :
    (files.put ino next).Maps ino lba pba ↔ next.Maps lba pba := by
  unfold Files.Maps
  rw [files.work_put_self]

/-- Another inode owns its blocks after a call. -/
theorem Work.Leaves.owned_of_ne (leaves : (files.work ino).Leaves (files.Foreign ino) next)
    (sound : files.Sound) (apart : other ≠ ino) :
    ((files.put ino next).work other).Owned ((files.put ino next).Foreign other) := by
  have own := sound.owned other
  have maps_other := leaves.maps_of_ne sound apart
  have used_other : ∀ {third}, third ≠ ino → ∀ {lba pba}, files.Maps third lba pba →
      next.disk.bitmap.used pba = true := fun {third} third_apart {lba pba} maps =>
    leaves.owned.abroad pba ⟨third, third_apart, lba, maps⟩
  constructor
  · exact leaves.kept.still
  · exact leaves.owned.fresh
  · rw [files.work_put_of_ne apart]
    refine ⟨?_, own.sound.room, fun rooted => ?_⟩
    · rw [leaves.allExtents sound apart]
      exact own.sound.tidy
    · obtain ⟨bindings, read, ordered⟩ := own.sound.tree rooted
      exact ⟨bindings, (leaves.read_eq sound apart rooted).trans read, ordered⟩
  · exact ⟨leaves.owned.covered.tree, leaves.owned.covered.disjoint⟩
  · exact leaves.owned.zero
  · exact fun lba pba maps => used_other apart ((maps_other _ _).mp maps)
  · rintro pba ⟨third, -, lba, maps⟩
    by_cases same : third = ino
    · subst same
      exact leaves.owned.used _ _ (Files.maps_put_self.mp maps)
    · exact used_other same ((leaves.maps_of_ne sound same _ _).mp maps)
  · intro one two pba first second
    refine (own.single one two pba ((maps_other _ _).mp first)
      ((maps_other _ _).mp second)).imp_right (leaves.pins pba)
  · rintro lba pba ⟨third, third_apart, there, maps⟩ here
    have own_maps := (maps_other _ _).mp here
    by_cases same : third = ino
    · subst same
      exact leaves.owned.apart _ _ ⟨other, apart, lba, own_maps⟩ (Files.maps_put_self.mp maps)
    · exact leaves.pins pba (own.apart _ _
        ⟨third, third_apart, there, (leaves.maps_of_ne sound same _ _).mp maps⟩ own_maps)

/-- A call that leaves the rest of the image alone keeps the inodes sound. -/
theorem Files.Sound.put (sound : files.Sound)
    (leaves : (files.work ino).Leaves (files.Foreign ino) next) : (files.put ino next).Sound := by
  constructor
  · exact Files.forall_put (fun other work => work.inode.ino = other)
      (leaves.fields.1.trans (sound.numbered ino)) fun other _ => sound.numbered other
  · exact Files.forall_put (fun _ work => work.inode.compressionAlgo = 0)
      (leaves.fields.2.trans (sound.plain ino)) fun other _ => sound.plain other
  · intro one two rooted same_root
    by_cases first : one = ino
    · by_cases second : two = ino
      · rw [first, second]
      · rw [first, files.inodes_put_self] at rooted same_root
        rw [files.inodes_put_of_ne second] at same_root
        rw [same_root] at rooted
        exact absurd same_root.symm (leaves.root_ne sound second rooted)
    · rw [files.inodes_put_of_ne first] at rooted same_root
      by_cases second : two = ino
      · rw [second, files.inodes_put_self] at same_root
        exact absurd same_root (leaves.root_ne sound first rooted)
      · rw [files.inodes_put_of_ne second] at same_root
        exact sound.roots one two rooted same_root
  · intro other
    by_cases same : other = ino
    · rw [same, files.work_put_self]
      have foreign_eq : (files.put ino next).Foreign ino = files.Foreign ino := by
        funext pba
        refine propext (exists_congr fun other => and_congr_right fun apart => ?_)
        exact exists_congr fun lba => leaves.maps_of_ne sound apart lba pba
      rw [foreign_eq]
      exact leaves.owned
    · exact leaves.owned_of_ne sound same

theorem Files.Sound.grows (sound : files.Sound) (grows : (files.inodes ino).size ≤ newSize) :
    files.called outside (ino, .truncate newSize) = (some ⟨⟩, (files.work ino).sized newSize) := by
  have plain : (files.work ino).inode.compressionAlgo = 0 := sound.plain ino
  have larger : (files.work ino).inode.size ≤ newSize := grows
  show truncateFile operations outside newSize (files.work ino) = _
  unfold truncateFile
  rw [Run.bind_some (show Run.get (files.work ino) = (some _, _) from rfl),
    if_neg (not_not.mpr plain), if_pos larger]
  rfl

theorem Files.Sound.wrote (sound : files.Sound) {offset : Nat} {data : Slice}
    (within : (files.work ino).Within) (indexed : (files.work ino).IndexUsed outside)
    (returns : files.Returns outside (ino, .write offset data))
    (still : ¬ (files.called outside (ino, .write offset data)).2.Moved) :
    ∃ mid, Complete outside (files.Foreign ino) (files.work ino) offset data mid ∧
      Recorded outside (files.work ino) offset (endBlock offset data.length) mid ∧
      (files.called outside (ino, .write offset data)).2 =
        mid.sized (max (files.inodes ino).size (offset + data.length)) :=
  (Run.post_of_returns (writeFile_spec (sound.owned ino) indexed (sound.plain ino) within)
    returns).resolve_left still

theorem Files.Sound.truncated (sound : files.Sound) (shrinks : newSize < (files.inodes ino).size)
    (returns : files.Returns outside (ino, .truncate newSize))
    (still : ¬ (files.called outside (ino, .truncate newSize)).2.Moved) :
    Truncated (files.work ino) newSize (files.called outside (ino, .truncate newSize)).2 :=
  (Run.post_of_returns (truncateFile_spec outside (sound.owned ino) (sound.plain ino) shrinks)
    returns).resolve_left still

end Leaving
end LionFS.File
