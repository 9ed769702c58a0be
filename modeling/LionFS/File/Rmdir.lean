import LionFS.File.Unlink

/-!
# Removing a directory

`rmdir` looks the name up, tests that the directory is empty and goes on with `unlink`. The
entries it tests are the ones it has at hand: those of the parent, among which is the directory
to be removed. So no directory is ever removed.
-/
namespace LionFS.File

/-- `DirEntry`. -/
structure DirEntry where
  ino : Nat
  name : List UInt8
  fileType : Nat
deriving DecidableEq

/-- `posix`, the errors of `rmdir`. -/
inductive Errno where
  | enoent
  | eio
  | enotdir
  | enotempty
deriving DecidableEq

/-- The loop of `read_entries`; a name becomes a string by `String::from_utf8_lossy`. -/
def entriesFrom (lossy : List UInt8 → List UInt8) (data : Slice) :
    (fuel offset : Nat) → List DirEntry
  | 0, _ => []
  | fuel + 1, offset =>
    let header := headerAt data offset
    if data.length < offset + 16 ∨ header.recLen = 0 then []
    else
      let rest := entriesFrom lossy data fuel (offset + header.recLen)
      if header.ino ≠ 0 ∧ offset + 16 + header.nameLen ≤ data.length then
        ⟨header.ino, lossy (data.bytes (offset + 16) header.nameLen),
          (data.byte (offset + 11)).toNat⟩ :: rest
      else rest

/-- `DirManager::read_entries` of a directory. -/
def Image.readEntries (outside : Outside SpillStore) (lossy : List UInt8 → List UInt8)
    (image : Image) (ino : Nat) : Option (List DirEntry) :=
  let work := image.files.work ino
  (readFile SpillStore.operations outside 0 work.inode.size work).1.map fun data =>
    entriesFrom lossy data data.length 0

/-- `LionFS::rmdir`. -/
def Image.rmdir (outside : Outside SpillStore) (lossy : List UInt8 → List UInt8) (image : Image)
    (parent : Nat) (name : List UInt8) : Except Errno Unit × Image :=
  match image.attributes parent with
  | none => (.error .enoent, image)
  | some _ =>
    match image.readEntries outside lossy parent with
    | none => (.error .eio, image)
    | some entries =>
      match entries.find? (·.name = name) with
      | none => (.error .enoent, image)
      | some entry =>
        if entry.fileType ≠ 2 then (.error .enotdir, image)
        else if !entries.isEmpty then (.error .enotempty, image)
        else
          match image.unlink outside parent name with
          | (some _, next) => (.ok (), next)
          | (none, next) => (.error .enoent, next)

section Removing
variable (outside : Outside SpillStore) (lossy : List UInt8 → List UInt8) (image : Image)
  (parent : Nat) (name : List UInt8)

/-- The name is an entry of directory type, of a directory without entries. -/
def Image.EmptyDirectory (ino : Nat) : Prop :=
  image.attributes parent ≠ none ∧ ∃ entries entry,
    image.readEntries outside lossy parent = some entries ∧
    entries.find? (·.name = name) = some entry ∧ entry.fileType = 2 ∧ entry.ino = ino ∧
    image.attributes ino ≠ none ∧ image.readEntries outside lossy ino = some []

/-- What `rmdir` is to do: it removes exactly the empty directories. -/
structure Image.RemovesEmpty : Prop where
  succeeds : (image.rmdir outside lossy parent name).1 = .ok () ↔
    ∃ ino, image.EmptyDirectory outside lossy parent name ino
  /-- The entry is gone and the inode of the directory released. -/
  removed : ∀ ino next, image.rmdir outside lossy parent name = (.ok (), next) →
    image.EmptyDirectory outside lossy parent name ino →
      (∀ entries, next.readEntries outside lossy parent = some entries →
        ∀ entry ∈ entries, entry.name ≠ name) ∧
      (next.attributes ino).map Attributes.mode = some 0
  unchanged : ∀ errno next, image.rmdir outside lossy parent name = (.error errno, next) →
    next = image

/-- A name that is found is an entry, so the entries are never empty. -/
theorem Image.rmdir_fails :
    ∃ errno, image.rmdir outside lossy parent name = (.error errno, image) := by
  unfold Image.rmdir
  cases image.attributes parent with
  | none => exact ⟨_, rfl⟩
  | some _ =>
    cases image.readEntries outside lossy parent with
    | none => exact ⟨_, rfl⟩
    | some entries =>
      dsimp only
      cases found : entries.find? (·.name = name) with
      | none => exact ⟨_, rfl⟩
      | some entry =>
        have filled : entries ≠ [] := List.ne_nil_of_mem (List.mem_of_find?_eq_some found)
        dsimp only
        split_ifs with other
        · exact ⟨_, rfl⟩
        · exact ⟨_, rfl⟩
        · simp_all

/-- `rmdir` does its work exactly where there is none: unless the name is an empty directory. -/
theorem rmdir_removes_empty_iff : image.RemovesEmpty outside lossy parent name ↔
    ¬ ∃ ino, image.EmptyDirectory outside lossy parent name ino := by
  obtain ⟨errno, fails⟩ := image.rmdir_fails outside lossy parent name
  constructor
  · intro removes empty
    have succeeds := removes.succeeds.mpr empty
    rw [fails] at succeeds
    cases succeeds
  · intro none_empty
    refine ⟨?_, fun ino next succeeds => ?_, fun other next failed => ?_⟩
    · rw [fails]
      simp [none_empty]
    · rw [fails] at succeeds
      cases succeeds
    · rw [fails] at failed
      cases failed
      rfl

end Removing

/-- Inode 1 is a directory with one entry, inode 2 its directory without entries. -/
def emptyDirectory : Image where
  files :=
    let entry : Slice := ⟨24, fun index =>
      if index = 0 then 2 else if index = 8 then 24 else if index = 10 then 1
      else if index = 11 then 2 else if index = 16 then 97 else 0⟩
    let blank := blankFiles fun _ => zeroPage
    blank.put 1 (blank.called nothingOutside (1, .write 0 entry)).2
  attributes := fun ino => if ino < 3 then some ⟨1, 1⟩ else none

/-- The directory of an empty directory alone: `rmdir` says that it is not empty. -/
theorem empty_directory_stays :
    emptyDirectory.EmptyDirectory nothingOutside id 1 [97] 2 ∧
      (emptyDirectory.rmdir nothingOutside id 1 [97]).1 = .error .enotempty ∧
      ¬ emptyDirectory.RemovesEmpty nothingOutside id 1 [97] := by
  have empty : emptyDirectory.EmptyDirectory nothingOutside id 1 [97] 2 :=
    ⟨by decide, [⟨2, [97], 2⟩], ⟨2, [97], 2⟩, by decide +kernel, rfl, rfl, rfl, by decide,
      by decide +kernel⟩
  refine ⟨empty, by decide +kernel, fun removes => ?_⟩
  obtain ⟨errno, fails⟩ := emptyDirectory.rmdir_fails nothingOutside id 1 [97]
  have succeeds := removes.succeeds.mpr ⟨2, empty⟩
  rw [fails] at succeeds
  cases succeeds

end LionFS.File
