import LionFS.File.Remap
import LionFS.File.Work
import LionFS.Integrity.Pins

/-!
# Owning blocks

An inode owns its blocks when they are in use and when it shares none of them,
with itself or with the other inodes of the image, but pinned ones. The parts of
a write clear no bit and no pin and keep the inode a mapping (`Work.Carries`); so
an inode still owns its blocks after a block moved to one that was free, and
after blocks were added that were free or are pinned.
-/
namespace LionFS.File

/-- The coverage tree has runs that do not overlap, and there is one when blocks may be shared. -/
structure Work.Covered (work : Work SpillStore) : Prop where
  tree : work.disk.dedupe.isSome → work.disk.coverage.isSome
  disjoint : ∀ runs, work.disk.coverage = some runs → Integrity.Disjoint runs

/-- What every part of a write keeps: bits and pins stay set, and the inode is a mapping in its own
extent tree. -/
structure Work.Carries (work next : Work SpillStore) : Prop where
  grows : Allocator.Grows work.disk.bitmap next.disk.bitmap
  pins : ∀ block, work.disk.pinned block = true → next.disk.pinned block = true
  covered : work.Covered → next.Covered
  reshaped : Reshaped work.inode work.disk.spill next.inode next.disk.spill

theorem Work.Carries.trans {first second third : Work SpillStore} (one : first.Carries second)
    (two : second.Carries third) : first.Carries third := by
  constructor
  · exact one.grows.trans two.grows
  · exact fun block pinned => two.pins block (one.pins block pinned)
  · exact fun formed => two.covered (one.covered formed)
  · exact one.reshaped.trans two.reshaped

/-- An inode owns the blocks it maps: they are in use, and those it has in common with another
logical block or with the blocks of other inodes, given by a predicate, are pinned. -/
structure Work.Owned (foreign : Nat → Prop) (work : Work SpillStore) : Prop where
  still : work.disk.spill.rootCell = none
  fresh : work.disk.spill.Fresh
  sound : work.inode.Sound work.disk.spill
  covered : work.Covered
  zero : work.disk.bitmap.used 0 = true
  used : ∀ logical physical, work.Maps logical physical →
    work.disk.bitmap.used physical = true
  abroad : ∀ physical, foreign physical → work.disk.bitmap.used physical = true
  single : ∀ one two physical, work.Maps one physical → work.Maps two physical →
    one = two ∨ work.disk.pinned physical = true
  /-- A block that others map as well is pinned. -/
  apart : ∀ logical physical, foreign physical → work.Maps logical physical →
    work.disk.pinned physical = true

section Ownership
variable {foreign : Nat → Prop} {work next : Work SpillStore}
section
variable (owned : work.Owned foreign)
include owned

theorem Work.Owned.unmapped {block : Nat} (free : work.disk.bitmap.used block = false) :
    ¬ foreign block ∧ ∀ lba, ¬ work.Maps lba block := by
  constructor
  · intro others
    rw [owned.abroad block others] at free
    cases free
  · intro lba maps
    rw [owned.used lba block maps] at free
    cases free

/-- Where the inode of an owner maps a block is where lookup finds it. -/
theorem Work.Owned.maps_iff {lba pba : Nat} :
    work.Maps lba pba ↔
      0 < pba ∧ work.inode.blockOf work.disk.spill lba = pba :=
  owned.sound.mapsTo_iff

theorem Work.Owned.carries : work.Carries work := by
  constructor
  · exact .refl _
  · exact fun _ pinned => pinned
  · exact fun formed => formed
  · exact ⟨owned.sound, .refl owned.still _, .inl rfl, rfl, rfl, rfl⟩

/-- Mapping blocks that nobody had, or that are pinned now, keeps the ownership. -/
theorem Work.Owned.more (carries : work.Carries next) {more : Nat → Nat → Prop}
    (maps : ∀ lba pba, next.Maps lba pba → work.Maps lba pba ∨ more lba pba)
    (taken : ∀ {lba pba}, more lba pba → next.disk.bitmap.used pba = true)
    (nobody : ∀ {lba pba}, more lba pba →
      next.disk.pinned pba = true ∨ ¬ foreign pba ∧ ∀ other, ¬ work.Maps other pba)
    (injective : ∀ {one two pba}, more one pba → more two pba → one = two) :
    next.Owned foreign := by
  constructor
  · exact carries.reshaped.kept.still
  · exact carries.reshaped.kept.fresh owned.fresh
  · exact carries.reshaped.sound
  · exact carries.covered owned.covered
  · exact carries.grows.used 0 owned.zero
  · intro lba pba there
    rcases maps lba pba there with old | new
    · exact carries.grows.used pba (owned.used lba pba old)
    · exact taken new
  · exact fun pba others => carries.grows.used pba (owned.abroad pba others)
  · intro one two pba first second
    rcases maps one pba first with old | new
    · rcases maps two pba second with other | other
      · exact (owned.single one two pba old other).imp_right (carries.pins pba)
      · exact .inr ((nobody other).resolve_right fun alone => alone.2 one old)
    · rcases maps two pba second with other | other
      · exact .inr ((nobody new).resolve_right fun alone => alone.2 two other)
      · exact .inl (injective new other)
  · intro lba pba others there
    rcases maps lba pba there with old | new
    · exact carries.pins pba (owned.apart lba pba others old)
    · exact (nobody new).resolve_right fun alone => alone.1 others

theorem Work.Owned.same (carries : work.Carries next)
    (maps : ∀ lba pba, next.Maps lba pba → work.Maps lba pba) : next.Owned foreign :=
  owned.more carries (fun lba pba there => .inl (maps lba pba there)) False.elim False.elim
    False.elim

/-- Moving a block to one that was free keeps the ownership. -/
theorem Work.Owned.moves (carries : work.Carries next) {target moved : Nat}
    (moves : Moves target moved (work.inode.allExtents work.disk.spill)
      (next.inode.allExtents next.disk.spill))
    (free : work.disk.bitmap.used moved = false) (taken : next.disk.bitmap.used moved = true) :
    next.Owned foreign := by
  have maps : ∀ lba pba, next.Maps lba pba → work.Maps lba pba ∨ lba = target ∧ pba = moved :=
    fun lba pba there => ((moves.mapsTo lba pba).mp there).symm.imp_left And.right
  refine owned.more carries maps ?_ ?_ ?_
  · rintro _ _ ⟨-, rfl⟩
    exact taken
  · rintro _ _ ⟨-, rfl⟩
    exact .inr (owned.unmapped free)
  · rintro _ _ _ ⟨rfl, -⟩ ⟨rfl, -⟩
    rfl

end

theorem Extent.Sends.maps {extent : Extent} {lba pba : Nat}
    (sends : extent.Sends lba pba) : extent.Maps pba := by
  obtain ⟨covers, rfl⟩ := sends
  unfold Extent.Covers Extent.logicalEnd at covers
  unfold Extent.Maps Extent.block Extent.physicalEnd
  omega

theorem Extent.Sends.injective {extent : Extent} {one two pba : Nat}
    (first : extent.Sends one pba) (second : extent.Sends two pba) : one = two := by
  obtain ⟨one_covers, one_block⟩ := first
  obtain ⟨two_covers, two_block⟩ := second
  unfold Extent.Covers at one_covers two_covers
  unfold Extent.block at one_block two_block
  omega

/-- Mapping blocks that were free, or are pinned from now on, keeps the ownership. -/
theorem Work.Owned.adds (owned : work.Owned foreign) (carries : work.Carries next) {added : Extent}
    (adds : Adds added (work.inode.allExtents work.disk.spill)
      (next.inode.allExtents next.disk.spill))
    (taken : ∀ block, added.Maps block → next.disk.bitmap.used block = true)
    (free : ∀ block, added.Maps block →
      work.disk.bitmap.used block = false ∨ next.disk.pinned block = true) :
    next.Owned foreign := by
  refine owned.more carries (fun lba pba => (adds.mapsTo lba pba).mp)
    (fun sends => taken _ sends.maps)
    (fun sends => ?_) Extent.Sends.injective
  rcases free _ sends.maps with unused | pinned
  · exact .inr (owned.unmapped unused)
  · exact .inl pinned

end Ownership
end LionFS.File
