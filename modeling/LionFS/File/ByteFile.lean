import LionFS.Data.Words
import LionFS.File.Bytes

/-!
# The file layer refines byte arrays

Each file is followed by an array of bytes to which the calls are applied as they
are meant. A call that partly fills a fresh block, or that moves the end of the
file over bytes left in its last block, adds to the file whatever the device holds
there. In a run of safe calls every read returns the bytes of the array in every
state exactly when these bytes of the device are zero before each call.
-/
namespace LionFS.File
open Nat Function Files

/-- The bytes of a file as they are meant to be; zero past the size. -/
structure ByteFile where
  size : Nat
  /-- The bytes. -/
  byte : Nat → UInt8

/-- What a call is meant to do. -/
def Call.apply : Call → ByteFile → ByteFile
  | .write offset data, file =>
    ⟨max file.size (offset + data.length), fun position =>
      if offset ≤ position ∧ position < offset + data.length then data.byte (position - offset)
      else file.byte position⟩
  | .truncate newSize, file =>
    ⟨newSize, fun position => if position < newSize then file.byte position else 0⟩

/-- A call writes the byte at a position. -/
def Call.Writes : Call → Nat → Prop
  | .write offset data, position => offset ≤ position ∧ position < offset + data.length
  | .truncate _, _ => False

/-- An image with what its files are meant to hold. -/
structure Traced where
  /-- The image. -/
  files : Files
  /-- The bytes of each file. -/
  contents : Nat → ByteFile

namespace Traced
variable (outside : Outside SpillStore) (traced : Traced)

/-- A call, on the image and as it is meant. -/
def step (event : Nat × Call) : Option Traced :=
  some ⟨traced.files.put event.1 (traced.files.called outside event).2,
    update traced.contents event.1 (event.2.apply (traced.contents event.1))⟩

/-- Every read returns the bytes that are meant, up to the size. -/
def Reads : Prop :=
  ∀ ino offset count, ∃ slice,
    (readFile SpillStore.operations outside offset count (traced.files.work ino)).1 = some slice ∧
      slice.length = min count ((traced.contents ino).size - offset) ∧
      ∀ index, index < slice.length → slice.byte index = (traced.contents ino).byte (offset + index)

/-- The call is safe on the image. -/
def Safe (event : Nat × Call) : Prop :=
  traced.files.Safe outside event

/-- The call adds to the file, without writing it, a byte of a block of the device: behind the
old end one of the block that is mapped there, in a hole one of the block it allocates. -/
def Adds (event : Nat × Call) (position physical : Nat) : Prop :=
  ¬ event.2.Writes position ∧
    ((traced.files.inodes event.1).size ≤ position ∧
        traced.files.Maps event.1 (position / blockSize) physical ∨
      (∀ other, ¬ traced.files.Maps event.1 (position / blockSize) other) ∧
        (traced.files.called outside event).2.Maps (position / blockSize) physical)

/-- The bytes that the call adds are zero on the device before it. -/
def AddsZeros (event : Nat × Call) : Prop :=
  ∀ position, position < (event.2.apply (traced.contents event.1)).size →
    ∀ physical, traced.Adds outside event position physical →
      traced.files.disk.blocks physical (position % blockSize) = 0

/-- The image is whole and holds what is meant. -/
structure Holds : Prop where
  whole : traced.files.Whole outside
  sizes : ∀ ino, (traced.contents ino).size = (traced.files.inodes ino).size
  bytes : ∀ ino position, position < (traced.files.inodes ino).size →
    (traced.files.work ino).byteAt position = (traced.contents ino).byte position
  zeros : ∀ ino position, (traced.files.inodes ino).size ≤ position →
    (traced.contents ino).byte position = 0

section Refining
variable {outside : Outside SpillStore} {traced : Traced} {event : Nat × Call}

theorem Holds.reads (holds : traced.Holds outside) : traced.Reads outside := by
  intro ino offset count
  obtain ⟨slice, returned, length, bytes⟩ := readFile_spec (holds.whole.sound.owned ino)
    (holds.whole.verified ino) (holds.whole.sound.plain ino) offset count
  refine ⟨slice, returned, by rw [length, holds.sizes ino]; rfl, fun index mem => ?_⟩
  rw [bytes index mem]
  refine holds.bytes ino _ ?_
  rw [length] at mem
  have bound : index < min count ((traced.files.inodes ino).size - offset) := mem
  omega

theorem Reads.byteAt (reads : traced.Reads outside) (whole : traced.files.Whole outside)
    {ino position : Nat} (mem : position < (traced.files.inodes ino).size) :
    (traced.files.work ino).byteAt position = (traced.contents ino).byte position := by
  obtain ⟨slice, returned, -, meant⟩ := reads ino position 1
  obtain ⟨other, returned', length, bytes⟩ := readFile_spec (whole.sound.owned ino)
    (whole.verified ino) (whole.sound.plain ino) position 1
  have same : slice = other := Option.some.inj (returned.symm.trans returned')
  subst same
  have one : 0 < slice.length := by
    rw [length]
    have bound : 0 < (traced.files.inodes ino).size - position := by omega
    show 0 < min 1 ((traced.files.inodes ino).size - position)
    omega
  have first := bytes 0 one
  rw [meant 0 one, add_zero] at first
  exact first.symm

variable {position : Nat} (holds : traced.Holds outside)
include holds

/-- The size that a safe call leaves, the bytes that it writes, and those of the file that it
keeps. -/
theorem Holds.called (collisionless : outside.Collisionless) (safe : traced.Safe outside event) :
    (event.2.apply (traced.contents event.1)).size =
        (traced.files.called outside event).2.inode.size ∧
      ∀ position, position < (traced.files.called outside event).2.inode.size →
        (event.2.Writes position ∨ position < (traced.files.inodes event.1).size ∧
          ∃ pba, traced.files.Maps event.1 (position / blockSize) pba) →
        (traced.files.called outside event).2.byteAt position =
          (event.2.apply (traced.contents event.1)).byte position := by
  obtain ⟨ino, call⟩ := event
  have owned := holds.whole.sound.owned ino
  cases call with
  | write offset data =>
    obtain ⟨mid, prog, -, after⟩ := holds.whole.wrote safe
    rw [after]
    constructor
    · show max (traced.contents ino).size _ = max (traced.files.inodes ino).size _
      rw [holds.sizes ino]
    · intro position _ old
      show mid.byteAt position = if _ then _ else _
      split_ifs with written
      · exact prog.byteAt_written collisionless written.1 written.2
      · obtain ⟨within_size, pba, maps⟩ := old.resolve_left written
        rw [prog.byteAt_kept collisionless owned written maps]
        exact holds.bytes ino position within_size
  | truncate newSize =>
    by_cases shrinks : newSize < (traced.files.inodes ino).size
    · have truncated := holds.whole.sound.truncated shrinks safe.returns
        fun moved => moved safe.still
      refine ⟨truncated.fields.2.1.symm, fun position mem old => ?_⟩
      obtain ⟨within_size, -⟩ := old.resolve_left fun no => no
      have cut : position < newSize := by
        rw [truncated.fields.2.1] at mem
        exact mem
      obtain ⟨bits, disk, freed⟩ := truncated.freed
      show _ = if position < newSize then _ else _
      rw [if_pos cut, ← holds.bytes ino position within_size]
      refine (truncated.owned owned shrinks safe.clean (safe.alike newSize rfl)).byteAt_congr owned
        (fun other => ?_) fun other _ => ?_
      · rw [truncated.maps_iff shrinks safe.clean]
        refine and_iff_left ?_
        unfold blocksFor blockSize
        omega
      · rw [disk, freed.blocks]
    · rw [holds.whole.sound.grows (not_lt.mp shrinks)]
      refine ⟨rfl, fun position _ old => ?_⟩
      obtain ⟨within_size, -⟩ := old.resolve_left fun no => no
      show (traced.files.work ino).byteAt position = if position < newSize then _ else _
      rw [if_pos (lt_of_lt_of_le within_size (not_lt.mp shrinks))]
      exact holds.bytes ino position within_size

/-- The bytes that a call is meant to add to the file without writing them are zero. -/
theorem Holds.apply_zero (unwritten : ¬ event.2.Writes position)
    (new : (traced.files.inodes event.1).size ≤ position ∨
      ∀ pba, ¬ traced.files.Maps event.1 (position / blockSize) pba) :
    (event.2.apply (traced.contents event.1)).byte position = 0 := by
  have zero : (traced.contents event.1).byte position = 0 := by
    by_cases past : (traced.files.inodes event.1).size ≤ position
    · exact holds.zeros _ _ past
    · rw [← holds.bytes _ _ (not_le.mp past)]
      exact (holds.whole.sound.owned _).byteAt_of_hole (new.resolve_left past)
  obtain ⟨ino, call⟩ := event
  cases call with
  | write offset data => exact (if_neg unwritten).trans zero
  | truncate newSize =>
    show (if position < newSize then _ else _) = _
    split_ifs
    · exact zero
    · rfl

/-- Past the size that a call gives the file, nothing is meant to be. -/
theorem Holds.apply_past (past : (event.2.apply (traced.contents event.1)).size ≤ position) :
    (event.2.apply (traced.contents event.1)).byte position = 0 := by
  obtain ⟨ino, call⟩ := event
  cases call with
  | write offset data =>
    have bound : max (traced.contents ino).size (offset + data.length) ≤ position := past
    rw [holds.sizes ino] at bound
    refine (if_neg (by omega)).trans (holds.zeros ino position (by omega))
  | truncate newSize => exact if_neg (not_lt.mpr past)

/-- A byte that a call adds is the one the device held before it. -/
theorem Holds.byteAt_added (collisionless : outside.Collisionless)
    (safe : traced.Safe outside event)
    (inside : position < (event.2.apply (traced.contents event.1)).size) {physical : Nat}
    (adds : traced.Adds outside event position physical) :
    (traced.files.called outside event).2.byteAt position =
      traced.files.disk.blocks physical (position % blockSize) := by
  obtain ⟨ino, call⟩ := event
  have owned := holds.whole.sound.owned ino
  obtain ⟨unwritten, source⟩ := adds
  cases call with
  | write offset data =>
    obtain ⟨mid, prog, -, after⟩ := holds.whole.wrote safe
    rw [after] at source ⊢
    change mid.byteAt position = _
    rcases source with ⟨-, maps⟩ | ⟨hole, maps⟩
    · rw [prog.byteAt_kept collisionless owned unwritten maps]
      exact owned.byteAt_of_maps maps
    · refine prog.byteAt_fresh collisionless unwritten ?_ hole maps
      change position < max (traced.contents ino).size _ at inside
      rwa [holds.sizes ino] at inside
  | truncate newSize =>
    change position < newSize at inside
    by_cases shrinks : newSize < (traced.files.inodes ino).size
    · have truncated := holds.whole.sound.truncated shrinks safe.returns
        fun moved => moved safe.still
      rcases source with ⟨past, -⟩ | ⟨hole, maps⟩
      · exact absurd past (not_le.mpr (inside.trans shrinks))
      · exact absurd ((truncated.maps_iff shrinks safe.clean _ _).mp maps).1 (hole physical)
    · rw [holds.whole.sound.grows (not_lt.mp shrinks)] at source ⊢
      rcases source with ⟨-, maps⟩ | ⟨hole, maps⟩
      · exact owned.byteAt_of_maps maps
      · exact absurd maps (hole physical)

/-- A safe call keeps an image that holds what is meant exactly when it adds only zeros. -/
theorem Holds.step (collisionless : outside.Collisionless) {after : Traced}
    (safe : traced.Safe outside event) (taken : traced.step outside event = some after) :
    (traced.AddsZeros outside event → after.Holds outside) ∧
      (after.Reads outside → traced.AddsZeros outside event) := by
  obtain rfl := Option.some.inj taken
  have served := holds.whole.served safe
  obtain ⟨size, bytes⟩ := holds.called collisionless safe
  have whole := holds.whole.put served
  have contents_self : update traced.contents event.1
      (event.2.apply (traced.contents event.1)) event.1 =
        event.2.apply (traced.contents event.1) := update_self _ _ _
  constructor
  · intro zeros
    refine ⟨whole, fun ino => ?_, fun ino position mem => ?_, fun ino position past => ?_⟩
    · dsimp only
      by_cases same : ino = event.1
      · rw [same, contents_self, inodes_put_self]
        exact size
      · rw [update_of_ne same, inodes_put_of_ne _ same]
        exact holds.sizes ino
    · dsimp only at mem ⊢
      by_cases same : ino = event.1
      · rw [same, inodes_put_self] at mem
        rw [same, contents_self, work_put_self]
        by_cases old : event.2.Writes position ∨ position < (traced.files.inodes event.1).size ∧
            ∃ pba, traced.files.Maps event.1 (position / blockSize) pba
        · exact bytes position mem old
        · have new : (traced.files.inodes event.1).size ≤ position ∨
              ∀ pba, ¬ traced.files.Maps event.1 (position / blockSize) pba := by
            by_contra neither
            obtain ⟨before, mapped⟩ := not_or.mp neither
            exact old (.inr ⟨not_le.mp before, not_forall_not.mp mapped⟩)
          have unwritten : ¬ event.2.Writes position := fun written => old (.inl written)
          have zero : (traced.files.called outside event).2.byteAt position = 0 := by
            by_cases added : ∃ physical, traced.Adds outside event position physical
            · obtain ⟨physical, adds⟩ := added
              rw [← size] at mem
              rw [holds.byteAt_added collisionless safe mem adds]
              exact zeros position mem physical adds
            · have hole : ∀ pba, ¬ (traced.files.called outside event).2.Maps
                  (position / blockSize) pba := by
                intro pba maps
                refine added ?_
                by_cases before : ∃ other, traced.files.Maps event.1 (position / blockSize) other
                · obtain ⟨other, there⟩ := before
                  exact ⟨other, unwritten, .inl ⟨new.resolve_right fun none => none _ there, there⟩⟩
                · exact ⟨pba, unwritten, .inr ⟨not_exists.mp before, maps⟩⟩
              have owned := whole.sound.owned event.1
              rw [work_put_self] at owned
              exact owned.byteAt_of_hole hole
          rw [zero, holds.apply_zero unwritten new]
      · rw [inodes_put_of_ne _ same] at mem
        rw [update_of_ne same, ← holds.bytes ino position mem]
        exact served.byteAt_of_ne holds.whole.sound same position
    · dsimp only at past ⊢
      by_cases same : ino = event.1
      · rw [same, inodes_put_self, ← size] at past
        rw [same, contents_self]
        exact holds.apply_past past
      · rw [inodes_put_of_ne _ same] at past
        rw [update_of_ne same]
        exact holds.zeros ino position past
  · intro reads position mem physical adds
    have new : (traced.files.inodes event.1).size ≤ position ∨
        ∀ pba, ¬ traced.files.Maps event.1 (position / blockSize) pba :=
      adds.2.imp And.left And.left
    rw [← holds.byteAt_added collisionless safe mem adds]
    rw [size] at mem
    have read := reads.byteAt whole
      (show position < ((traced.files.put event.1 (traced.files.called outside event).2).inodes
        event.1).size by rw [inodes_put_self]; exact mem)
    dsimp only at read
    rw [contents_self, work_put_self, holds.apply_zero adds.1 new] at read
    exact read

end Refining
end Traced

/-- A hash that tells all blocks apart: the number whose digits are the bytes. -/
def digitsOutside : Outside SpillStore :=
  { nothingOutside with hash := Words.ofBytes blockSize }

/-- The digits tell all blocks apart. -/
theorem digitsOutside_collisionless : digitsOutside.Collisionless := by
  intro one two same
  exact Words.ofBytes_inj same

theorem blankFiles_whole (outside : Outside SpillStore) (blocks : Nat → Page) :
    (blankFiles blocks).Whole outside := by
  have owned := (blankFiles_unshared blocks).sound.owned 0
  refine blank_whole outside owned.still owned.fresh owned.covered owned.zero ?_
  rintro hash block ⟨record, found, -⟩
  cases found

/-- An image without files, and the empty files. -/
def blankTraced (blocks : Nat → Page) : Traced :=
  ⟨blankFiles blocks, fun _ => ⟨0, fun _ => 0⟩⟩

/-- An image without files holds the empty files. -/
theorem blankTraced_holds (outside : Outside SpillStore) (blocks : Nat → Page) :
    (blankTraced blocks).Holds outside where
  whole := blankFiles_whole outside blocks
  sizes := fun _ => rfl
  bytes := fun _ _ mem => absurd mem (not_lt_zero _)
  zeros := fun _ _ _ => rfl

end LionFS.File
