import LionFS.Data.Words
import LionFS.File.Ownership

/-!
# Removing a file

`unlink` takes a name out of its directory and a link off the inode, which is
marked as free with its last link. The directory is a file: `remove_entry` reads it
whole, looks for the entry and writes it back with inode zero. None of this clears
a bit of the bitmap, so a file gives back the blocks it alone used exactly when it
used none.
-/
namespace LionFS.File
open Run SpillStore

/-- The bytes of a slice from a position on. -/
def Slice.bytes (data : Slice) (offset count : Nat) : List UInt8 :=
  (List.range' offset count).map data.byte

/-- `DirEntryHeader`, with the fields that are looked at. -/
structure DirEntryHeader where
  ino : Nat
  recLen : Nat
  nameLen : Nat
deriving DecidableEq

/-- The header at a position of a directory. -/
def headerAt (data : Slice) (offset : Nat) : DirEntryHeader where
  ino := Words.decode (data.bytes offset 8)
  recLen := Words.decode (data.bytes (offset + 8) 2)
  nameLen := (data.byte (offset + 10)).toNat

/-- The loop of `remove_entry`: the entry of a name, if there is one. A name that runs past the
data is an index out of range. -/
def findEntry (name : List UInt8) (data : Slice) :
    (fuel offset : Nat) → Option (Option (Nat × DirEntryHeader))
  | 0, _ => some none
  | fuel + 1, offset =>
    let header := headerAt data offset
    if data.length < offset + 16 ∨ header.recLen = 0 then some none
    else if header.ino ≠ 0 ∧ header.nameLen = name.length then
      if data.length < offset + 16 + header.nameLen then none
      else if data.bytes (offset + 16) header.nameLen = name then some (some (offset, header))
      else findEntry name data fuel (offset + header.recLen)
    else findEntry name data fuel (offset + header.recLen)

/-- An entry with inode zero, the rest of its header and an empty name. -/
def freeEntry (data : Slice) (offset : Nat) (header : DirEntryHeader) : Slice :=
  ⟨header.recLen, fun index => if 8 ≤ index ∧ index < 16 then data.byte (offset + index) else 0⟩

/-- A call on a directory: without coverage tree and dedup index. -/
def onDirectory {α : Type} (command : Run (Work SpillStore) α) : Run (Work SpillStore) α :=
  Run.focus (fun work => { work with disk := { work.disk with coverage := none, dedupe := none } })
    (fun work next => { next with disk := { next.disk with
      coverage := work.disk.coverage, dedupe := work.disk.dedupe } }) command

/-- `DirManager::remove_entry`: the inode that the name stood for. -/
def removeEntry (outside : Outside SpillStore) (name : List UInt8) :
    Run (Work SpillStore) (Option Nat) := do
  let work ← Run.get
  match (readFile operations outside 0 work.inode.size work).1 with
  | none => Run.fail
  | some data =>
    match findEntry name data data.length 0 with
    | none => Run.fail
    | some none => pure none
    | some (some (offset, header)) =>
      if header.recLen < 16 then Run.fail
      else do
        onDirectory (writeFile operations outside offset (freeEntry data offset header))
        pure (some header.ino)

/-- The fields of an inode that `unlink` changes. -/
structure Attributes where
  mode : Nat
  linksCount : Nat
deriving DecidableEq

/-- The files of an image and the inodes of its inode tree. -/
structure Image where
  files : Files
  attributes : Nat → Option Attributes

/-- One link less, wrapping around, and no mode without links. -/
def Attributes.unlinked (attributes : Attributes) : Attributes :=
  let links := (attributes.linksCount + 4294967295) % 4294967296
  ⟨if links = 0 then 0 else attributes.mode, links⟩

/-- `LionFS::unlink`, with the inode it removed a link of. The target's inode is stored first,
then the directory's. -/
def Image.unlink (outside : Outside SpillStore) (image : Image) (parent : Nat)
    (name : List UInt8) : Option Nat × Image :=
  let (found, work) := removeEntry outside name (image.files.work parent)
  match image.attributes parent, found with
  | some directory, some (some target) =>
    match image.attributes target with
    | some attributes =>
      (some target, ⟨image.files.put parent work,
        Function.update (Function.update image.attributes target (some attributes.unlinked))
          parent (some directory)⟩)
    | none => (none, { image with files := { image.files with disk := work.disk } })
  | some _, _ => (none, { image with files := { image.files with disk := work.disk } })
  | none, _ => (none, image)

/-- An inode maps a block that no other inode maps. -/
def Files.MapsAlone (files : Files) (ino block : Nat) : Prop :=
  (∃ logical, files.Maps ino logical block) ∧ ¬ files.Foreign ino block

/-- A file gave its space back: what it alone used was freed, and nothing of another file. -/
structure Files.GaveBack (before : Files) (ino : Nat) (after : Files) : Prop where
  freed : ∀ block, before.MapsAlone ino block → before.disk.bitmap.used block = true →
    after.disk.bitmap.used block = false
  kept : ∀ block, before.Foreign ino block → before.disk.bitmap.used block = true →
    after.disk.bitmap.used block = true

section Unlinking
variable {outside : Outside SpillStore} {image after : Image} {parent target : Nat}
  {name : List UInt8}

theorem removeEntry_grows (outside : Outside SpillStore) (name : List UInt8)
    {work : Work SpillStore} (plain : work.inode.compressionAlgo = 0) :
    wp (removeEntry outside name)
      (fun _ next => Allocator.Grows work.disk.bitmap next.disk.bitmap) anyhow work := by
  unfold removeEntry
  rw [wp_bind, wp_get]
  cases (readFile operations outside 0 work.inode.size work).1 with
  | none => trivial
  | some data =>
    dsimp only
    cases findEntry name data data.length 0 with
    | none => trivial
    | some entry =>
      cases entry with
      | none => exact .refl _
      | some found =>
        dsimp only
        split_ifs
        · trivial
        · rw [wp_bind, onDirectory, wp_focus]
          refine writeFile_keeps (Work.stable_bits work.disk.bitmap) outside ?_ ?_ _ _
          · exact plain
          · exact .refl _

/-- Removing a name frees no block. -/
theorem Image.unlink_grows (plain : (image.files.inodes parent).compressionAlgo = 0)
    (returns : image.unlink outside parent name = (some target, after)) :
    Allocator.Grows image.files.disk.bitmap after.files.disk.bitmap := by
  have grows := removeEntry_grows outside name (show (image.files.work parent).inode.compressionAlgo
    = 0 from plain)
  unfold Image.unlink at returns
  unfold wp at grows
  cases ran : removeEntry outside name (image.files.work parent) with
  | mk found work =>
    rw [ran] at returns grows
    dsimp only at returns
    split at returns
    · split at returns
      · cases returns
        exact grows
      · cases returns
    · cases returns
    · cases returns

/-- However an image came about, `unlink` gives the space of a file back exactly when the file
alone used no block. -/
theorem unlink_gives_back_iff (outside : Outside SpillStore) (image : Image) (parent : Nat)
    (name : List UInt8) (plain : (image.files.inodes parent).compressionAlgo = 0)
    (returns : image.unlink outside parent name = (some target, after)) :
    image.files.GaveBack target after.files ↔
      ∀ block, image.files.MapsAlone target block →
        image.files.disk.bitmap.used block = false := by
  have grows := Image.unlink_grows plain returns
  constructor
  · intro gave block alone
    cases used : image.files.disk.bitmap.used block with
    | false => rfl
    | true =>
      rw [← gave.freed block alone used]
      exact (grows.used block used).symm
  · intro none_used
    refine ⟨fun block alone used => ?_, fun block _ used => grows.used block used⟩
    rw [none_used block alone] at used
    cases used

end Unlinking

/-- Inode 1 is a directory with one entry, inode 2 its file of one byte. -/
def namedFiles : Image where
  files :=
    let entry : Slice := ⟨24, fun index =>
      if index = 0 then 2 else if index = 8 then 24 else if index = 10 then 1
      else if index = 16 then 97 else 0⟩
    let blank := blankFiles fun _ => zeroPage
    let named := blank.put 1 (blank.called nothingOutside (1, .write 0 entry)).2
    named.put 2 (named.called nothingOutside (2, .write 0 oneByte)).2
  attributes := fun ino => if ino < 3 then some ⟨1, 1⟩ else none

theorem namedFiles_unshared : namedFiles.files.Unshared := by
  refine Files.Unshared.write ?_ (by decide +kernel)
  exact (blankFiles_unshared _).write (by decide +kernel)

theorem namedFiles_plain : (namedFiles.files.inodes 1).compressionAlgo = 0 :=
  namedFiles_unshared.sound.plain 1

theorem namedFiles_unlink : namedFiles.unlink nothingOutside 1 [97] =
    (some 2, (namedFiles.unlink nothingOutside 1 [97]).2) := by
  have returns : (namedFiles.unlink nothingOutside 1 [97]).1 = some 2 := by decide +kernel
  rw [← returns]

/-- The file of one byte uses a block of its own. -/
theorem namedFiles_alone : namedFiles.files.MapsAlone 2 2 ∧
    namedFiles.files.disk.bitmap.used 2 = true := by
  have mapped : (namedFiles.files.inodes 2).blockOf namedFiles.files.disk.spill 0 = 2 := by
    decide +kernel
  have maps := Inode.mapsTo_blockOf (show (namedFiles.files.inodes 2).blockOf
    namedFiles.files.disk.spill 0 ≠ 0 by omega)
  rw [mapped] at maps
  have disj := namedFiles_unshared.disjoint
  refine ⟨⟨⟨0, maps⟩, ?_⟩, disj.used 2 0 2 maps⟩
  rintro ⟨other, apart, lba, also⟩
  exact apart (disj.single _ _ _ _ _ also maps).1

/-- The last link of the file goes and its block is in use. -/
theorem unlink_keeps_block :
    ¬ namedFiles.files.GaveBack 2 (namedFiles.unlink nothingOutside 1 [97]).2.files := by
  intro gave
  have unused := (unlink_gives_back_iff nothingOutside namedFiles 1 [97] namedFiles_plain
    namedFiles_unlink).mp gave 2 namedFiles_alone.1
  rw [namedFiles_alone.2] at unused
  cases unused

/-- On an image without sharing a file with one link does not give its space back. -/
theorem unlinked_file_keeps_blocks :
    ¬ ∀ (outside : Outside SpillStore) (image after : Image) (parent target : Nat)
      (name : List UInt8), image.files.Unshared → image.attributes target = some ⟨1, 1⟩ →
        image.unlink outside parent name = (some target, after) →
          image.files.GaveBack target after.files := by
  intro gives_back
  have gave := gives_back nothingOutside namedFiles _ 1 2 [97] namedFiles_unshared rfl
    namedFiles_unlink
  have freed := gave.freed 2 namedFiles_alone.1 namedFiles_alone.2
  rw [(Image.unlink_grows namedFiles_plain namedFiles_unlink).used 2 namedFiles_alone.2] at freed
  cases freed

end LionFS.File
