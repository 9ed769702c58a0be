import LionFS.File.Owned
import LionFS.File.Roots

/-!
# Placing a piece of data

What the loop body of a write does to an inode that owns its blocks. The block
that is written is the block of the inode, unpinned, or one that was free; so no
other mapping sees the bytes change, and the inode still owns its blocks
afterwards. As for the extents, all this is up to the point where the root of an
extent tree is moved.
-/
namespace LionFS.File
open Run Option Assoc Function Allocator
open SpillStore (operations)

/-- The dedup index has a block under a hash. -/
def Disk.Indexed {τ : Type} (disk : Disk τ) (hash block : Nat) : Prop :=
  ∃ record, disk.dedupe.bind (find hash) = some record ∧ record.physicalBlock = block

/-- A part of a write that maps blocks. -/
structure Work.Quiet (work next : Work SpillStore) : Prop where
  carries : work.Carries next
  blocks : next.disk.blocks = work.disk.blocks
  coverage : next.disk.coverage = work.disk.coverage
  dedupe : next.disk.dedupe = work.disk.dedupe
  checksums : next.disk.checksums = work.disk.checksums

/-- A part of a write that leaves the mapping and the data alone. -/
structure Work.Aside (work next : Work SpillStore) : Prop where
  grows : Allocator.Grows work.disk.bitmap next.disk.bitmap
  pins : ∀ block, work.disk.pinned block = true → next.disk.pinned block = true
  covered : work.Covered → next.Covered
  inode : next.inode = work.inode
  spill : next.disk.spill = work.disk.spill
  blocks : next.disk.blocks = work.disk.blocks
  checksums : next.disk.checksums = work.disk.checksums

/-- Without dedup nothing is pinned. -/
def Work.Unshared (work next : Work SpillStore) : Prop :=
  work.disk.dedupe = none →
    next.disk.dedupe = none ∧ next.disk.coverage = work.disk.coverage

variable {lba : Nat} {record : DedupeRecord} {foreign : Nat → Prop} {work next : Work SpillStore}
section Parts

theorem Work.Unshared.trans {first second third : Work SpillStore} (one : first.Unshared second)
    (two : second.Unshared third) : first.Unshared third := by
  intro off
  obtain ⟨still_off, coverage⟩ := one off
  obtain ⟨finally_off, coverage'⟩ := two still_off
  exact ⟨finally_off, coverage'.trans coverage⟩

theorem Work.Aside.refl (work : Work SpillStore) : work.Aside work :=
  ⟨.refl _, fun _ pinned => pinned, fun formed => formed, rfl, rfl, rfl, rfl⟩

/-- A part that leaves the mapping alone carries it over. -/
theorem Work.Aside.carries (aside : work.Aside next) (still : work.disk.spill.rootCell = none)
    (sound : work.inode.Sound work.disk.spill) : work.Carries next := by
  refine ⟨aside.grows, aside.pins, aside.covered, ?_⟩
  rw [aside.inode, aside.spill]
  exact ⟨sound, .refl still _, .inl rfl, rfl, rfl, rfl⟩

theorem incrementRef_spec {hash : Nat} (found : work.disk.dedupe.bind (find hash) = some record) :
    wp (incrementRef hash record)
      (fun _ next => work.Aside next ∧ next.disk.coverage = work.disk.coverage ∧
        ∀ key block, next.disk.Indexed key block → work.disk.Indexed key block)
      anyhow work := by
  unfold incrementRef
  refine wp_growMeta fun bitmap insertions grows => ?_
  rw [wp_modify]
  obtain ⟨index, here, look⟩ := bind_eq_some_iff.mp found
  refine ⟨⟨grows, fun _ pinned => pinned, fun formed => ⟨fun _ => ?_, formed.disjoint⟩, rfl, rfl,
    rfl, rfl⟩, rfl, ?_⟩
  · exact formed.tree (by rw [here]; rfl)
  · rintro key block ⟨other, indexed, rfl⟩
    have indexed' : (some (insert hash { record with refCount := record.refCount + 1 }
        index)).bind (find key) = some other := by
      rw [← indexed]
      show _ = (work.disk.dedupe.map _).bind _
      rw [here]
      rfl
    rw [Option.bind_some, find_insert] at indexed'
    split_ifs at indexed' with same
    · rw [some.injEq] at indexed'
      subst indexed'
      exact ⟨record, same ▸ found, rfl⟩
    · exact ⟨other, by rw [here]; exact indexed', rfl⟩

theorem pinShared_spec (formed : work.Covered) (has_tree : work.disk.coverage.isSome)
    (block : Nat) :
    wp (pinShared block)
      (fun _ next => work.Aside next ∧ next.disk.dedupe = work.disk.dedupe ∧
        next.disk.pinned block = true)
      anyhow work := by
  unfold pinShared
  rw [wp_bind, wp_get]
  obtain ⟨runs, here⟩ := isSome_iff_exists.mp has_tree
  have disj := formed.disjoint runs here
  rw [here]
  dsimp only
  split_ifs with unpinned
  · refine wp_growMeta fun bitmap insertions grows => ?_
    rw [wp_modify]
    refine ⟨⟨grows, ?_, fun _ => ⟨fun _ => rfl, ?_⟩, rfl, rfl, rfl, rfl⟩, rfl, ?_⟩
    · intro other pinned
      unfold Volume.pinned at pinned
      rw [here] at pinned
      exact (disj.isPinned_pinRange block 1 other).mpr (.inl pinned)
    · intro others same
      cases same
      exact (disj.pinRange block 1).1
    · exact (disj.isPinned_pinRange block 1 block).mpr (.inr (by omega))
  · refine ⟨.refl work, rfl, ?_⟩
    unfold Volume.pinned
    rw [here]
    exact decide_eq_true (Nat.pos_of_ne_zero unpinned)

theorem Work.indexed_of_shareable {τ : Type} {outside : Outside τ} {work : Work τ} {data : Slice}
    {chunk : Chunk} (found : work.shareable outside data chunk = some record) :
    work.disk.dedupe.bind (find (outside.hash (overwrite zeroPage data chunk))) = some record ∧
      outside.hash (work.disk.blocks record.physicalBlock) =
        outside.hash (overwrite zeroPage data chunk) := by
  unfold Work.shareable at found
  split_ifs at found with whole
  dsimp only at found
  rw [filter_eq_some_iff] at found
  exact ⟨found.1, of_decide_eq_true found.2⟩

/-- A written block enters the index at most. -/
theorem indexBlock_spec (outside : Outside SpillStore) (chunk : Chunk) (block : Nat) (page : Page) :
    wp (indexBlock outside chunk block page)
      (fun _ next => work.Aside next ∧ work.Unshared next ∧
        ∀ key other, next.disk.Indexed key other → work.disk.Indexed key other ∨
          key = outside.hash page ∧ other = block)
      anyhow work := by
  have nothing : work.Aside work ∧ work.Unshared work ∧ ∀ key other, work.disk.Indexed key other →
      work.disk.Indexed key other ∨ key = outside.hash page ∧ other = block :=
    ⟨.refl work, fun off => ⟨off, rfl⟩, fun _ _ indexed => .inl indexed⟩
  unfold indexBlock
  rw [wp_bind, wp_get]
  cases here : work.disk.dedupe with
  | none => exact nothing
  | some index =>
    dsimp only
    split_ifs with enters
    · refine wp_growMeta fun bitmap insertions grows => ?_
      rw [wp_modify]
      refine ⟨⟨grows, fun _ pinned => pinned, fun formed => ⟨fun _ => ?_, formed.disjoint⟩, rfl,
        rfl, rfl, rfl⟩, fun off => ?_, ?_⟩
      · exact formed.tree (by rw [here]; rfl)
      · rw [here] at off
        cases off
      · rintro key other ⟨record, indexed, rfl⟩
        have indexed' : find key (insert (outside.hash page) ⟨block, 1⟩ index) =
          some record := indexed
        rw [find_insert] at indexed'
        split_ifs at indexed' with same
        · rw [some.injEq] at indexed'
          subst indexed'
          exact .inr ⟨same, rfl⟩
        · exact .inl ⟨record, by rw [here]; exact indexed', rfl⟩
    · exact nothing

variable (owned : work.Owned foreign)
include owned

/-- A part that leaves the mapping alone keeps the owner. -/
theorem Work.Owned.aside (aside : work.Aside next) :
    work.Carries next ∧ next.Owned foreign ∧
      ∀ lba pba, next.Maps lba pba ↔ work.Maps lba pba := by
  have carries := aside.carries owned.still owned.sound
  have same : ∀ lba pba, next.Maps lba pba ↔ work.Maps lba pba := by
    intro lba pba
    unfold Work.Maps
    rw [aside.inode, aside.spill]
  exact ⟨carries, owned.same carries fun lba pba => (same lba pba).mp, same⟩

theorem Work.Owned.pos_of_free {block : Nat} (free : work.disk.bitmap.used block = false) :
    0 < block := by
  rcases Nat.eq_zero_or_pos block with rfl | pos
  · rw [owned.zero] at free
    cases free
  · exact pos

theorem mapExtent_spec {added : Extent} (pos : 0 < added.length) (nonzero : 0 < added.physicalStart)
    (unmapped : added.Unmapped (work.inode.allExtents work.disk.spill)) :
    wp (mapExtent operations added)
      (fun _ next => next.Moved ∨ work.Quiet next ∧
        Adds added (work.inode.allExtents work.disk.spill) (next.inode.allExtents next.disk.spill))
      anyhow work := by
  unfold mapExtent
  refine wp_growMeta fun bitmap insertions grows => ?_
  rw [wp_bind, wp_get, wp_bind, onTrees, wp_focus]
  refine wp_mono (addExtent_adds (fun _ => ⟨owned.still, owned.fresh⟩) owned.sound pos nonzero
    unmapped) ?_ fun _ _ => trivial
  rintro inode spill ⟨reworked, adds⟩
  rcases reworked.reshaped with moved | reshaped
  · exact .inl moved
  · exact .inr ⟨⟨⟨grows, fun _ pinned => pinned, fun formed => ⟨formed.tree, formed.disjoint⟩,
      reshaped⟩, rfl, rfl, rfl, rfl⟩, adds⟩

/-- What `redirect` does: nothing, or the block moves with its content to one that was free. -/
inductive Redirected (work : Work SpillStore) (logical physical : Nat) :
    Nat → Work SpillStore → Prop
  /-- The block may be written in place, or there is none. -/
  | stays (in_place : work.redirects operations logical physical = false) :
      Redirected work logical physical physical work
  | moves {block : Nat} {next : Work SpillStore}
      (protected_block : work.redirects operations logical physical = true)
      (free : work.disk.bitmap.used block = false) (taken : next.disk.bitmap.used block = true)
      (carries : work.Carries next)
      (moves : Moves logical block (work.inode.allExtents work.disk.spill)
        (next.inode.allExtents next.disk.spill))
      (blocks : next.disk.blocks =
        update work.disk.blocks block (work.disk.blocks physical))
      (coverage : next.disk.coverage = work.disk.coverage)
      (dedupe : next.disk.dedupe = work.disk.dedupe)
      (checksums : next.disk.checksums = work.disk.checksums) :
      Redirected work logical physical block next

theorem redirect_spec (lba pba : Nat) :
    wp (redirect operations lba pba)
      (fun block next => next.Moved ∨ Redirected work lba pba block next)
      anyhow work := by
  unfold redirect
  rw [wp_bind, wp_get]
  split_ifs with protected_block
  · rw [wp_bind, onBits, wp_focus]
    refine wp_mono (allocateExtents_allocates 1 work.disk.bitmap) ?_
      fun _ _ => trivial
    intro block marked taken
    have free := taken.free block le_rfl (by omega)
    have pos := owned.pos_of_free free
    have now_used : marked.used block = true := by
      rw [taken.used]
      exact if_pos ⟨le_rfl, by omega⟩
    rw [wp_bind, writeBlock, wp_modify, wp_bind]
    refine wp_mono (growTrees_spec allocateExtents_allocates _) ?_ fun _ _ => trivial
    rintro _ _ ⟨bitmap, insertions, rfl, grows, -⟩
    rw [wp_bind, onTrees, wp_focus]
    refine wp_mono (remapBlock_moves (fun _ => ⟨owned.still, owned.fresh⟩) owned.sound lba pos) ?_
      fun _ _ => trivial
    rintro inode spill ⟨reworked, moves⟩
    rcases reworked.reshaped with moved | reshaped
    · exact .inl moved
    · exact .inr (.moves protected_block free (grows.used block now_used)
        ⟨taken.grows.trans grows, fun _ pinned => pinned,
          fun formed => ⟨formed.tree, formed.disjoint⟩, reshaped⟩
        moves rfl rfl rfl rfl)
  · exact .inr (.stays (Bool.eq_false_iff.mpr protected_block))

/-- The logical blocks that an allocation for a hole maps. -/
def holeLength (lastBlock : Option Nat) (logical : Nat) : Nat :=
  match lastBlock with
  | some lastBlock => lastBlock - logical + 1
  | none => 1

/-- Logical blocks are mapped to blocks that were free. -/
structure Work.Fills (work : Work SpillStore) (lba block count : Nat) (next : Work SpillStore) :
    Prop where
  quiet : work.Quiet next
  adds : Adds ⟨lba, block, count⟩ (work.inode.allExtents work.disk.spill)
    (next.inode.allExtents next.disk.spill)
  taken : ∀ other, block ≤ other → other < block + count →
    work.disk.bitmap.used other = false ∧ next.disk.bitmap.used other = true

/-- Mapping blocks that an allocation took. -/
theorem mapExtent_taken {block count : Nat} {marked : Allocator.Bitmap}
    (taken : Allocator.Taken work.disk.bitmap block count marked) (pos : 0 < count)
    (hole : ∀ other, lba ≤ other → other < lba + count → ∀ pba, ¬ work.Maps other pba) :
    wp (mapExtent operations ⟨lba, block, count⟩)
      (fun _ next => next.Moved ∨ work.Fills lba block count next) anyhow
      { work with disk := { work.disk with bitmap := marked } } := by
  have nonzero := owned.pos_of_free (taken.free block le_rfl (by omega))
  have carried : work.Carries { work with disk := { work.disk with bitmap := marked } } :=
    ⟨taken.grows, fun _ pinned => pinned, fun formed => ⟨formed.tree, formed.disjoint⟩,
      owned.carries.reshaped⟩
  have marked_owned := owned.same carried fun _ _ maps => maps
  refine wp_imp (mapExtent_spec marked_owned pos nonzero
    fun other pba covers maps => hole other covers.1 covers.2 pba maps) ?_
  rintro _ next (moved | ⟨quiet, adds⟩)
  · exact .inl moved
  · refine .inr ⟨{ quiet with carries := carried.trans quiet.carries }, adds,
      fun other low high => ⟨taken.free other low high, ?_⟩⟩
    refine quiet.carries.grows.used other ?_
    show marked.used other = true
    rw [taken.used]
    exact if_pos ⟨low, high⟩

/-- The allocation for a hole maps it, and for an appending call the blocks up to the last one, to
blocks that were free. -/
theorem fillHole_spec {lastBlock : Option Nat} (localityHint : Option Nat)
    (hole : ∀ other, lba ≤ other → other < lba + holeLength lastBlock lba →
      ∀ pba, ¬ work.Maps other pba) : wp (fillHole operations lastBlock localityHint lba)
      (fun result next => next.Moved ∨ work.Fills lba result.1 (holeLength lastBlock lba) next)
      anyhow work := by
  unfold fillHole
  cases lastBlock with
  | some lastBlock =>
    dsimp only
    rw [wp_bind, onBits, wp_focus]
    refine wp_mono (allocateExtentsReserved_allocates _ _ _ work.disk.bitmap) ?_
      fun _ _ => trivial
    intro block marked taken
    exact wp_seq (mapExtent_taken owned taken (Nat.succ_pos _) hole) (fun _ _ done => done)
  | none =>
    dsimp only
    rw [wp_bind, onBits, wp_focus]
    have allocates : Allocator.Allocates (match localityHint with
        | some hint => allocateExtentsHinted 1 hint
        | none => allocateExtents 1) 1 := by
      cases localityHint with
      | some hint => exact allocateExtentsHinted_allocates 1 hint
      | none => exact allocateExtents_allocates 1
    refine wp_mono (allocates work.disk.bitmap) ?_ fun _ _ => trivial
    intro block marked taken
    exact wp_seq (mapExtent_taken owned taken Nat.one_pos hole) (fun _ _ done => done)

/-- What the dedup probe does: nothing, or the hole is mapped to the block of the record, which is
pinned from then on. -/
inductive Probed (outside : Outside SpillStore) (work : Work SpillStore) (data : Slice)
    (chunk : Chunk) : Option (Nat × Page) → Work SpillStore → Prop
  /-- There is no block to share. -/
  | misses (absent : work.shareable outside data chunk = none) :
      Probed outside work data chunk none work
  /-- A block is shared. -/
  | shares {record : DedupeRecord} {next : Work SpillStore}
      (found : work.shareable outside data chunk = some record) (carries : work.Carries next)
      (adds : Adds ⟨chunk.logicalBlock, record.physicalBlock, 1⟩
        (work.inode.allExtents work.disk.spill) (next.inode.allExtents next.disk.spill))
      (blocks : next.disk.blocks = work.disk.blocks)
      (checksums : next.disk.checksums = work.disk.checksums)
      (pinned : next.disk.pinned record.physicalBlock = true)
      (index : ∀ key block, next.disk.Indexed key block → work.disk.Indexed key block) :
      Probed outside work data chunk
        (some (record.physicalBlock, work.disk.blocks record.physicalBlock)) next

theorem share_spec (outside : Outside SpillStore) {data : Slice} {chunk : Chunk}
    (hole : ∀ pba, ¬ work.Maps chunk.logicalBlock pba)
    (shares : ∀ record, work.shareable outside data chunk = some record →
      0 < record.physicalBlock) :
    wp (share operations outside data chunk)
      (fun result next => next.Moved ∨ Probed outside work data chunk result next)
      anyhow work := by
  unfold share
  rw [wp_bind, wp_get]
  cases found : work.shareable outside data chunk with
  | none => exact .inr (.misses found)
  | some record =>
    have indexed := (Work.indexed_of_shareable found).1
    have has_tree : work.disk.coverage.isSome := by
      obtain ⟨index, here, -⟩ := bind_eq_some_iff.mp indexed
      exact owned.covered.tree (by rw [here]; rfl)
    have unmapped : Extent.Unmapped ⟨chunk.logicalBlock, record.physicalBlock, 1⟩
        (work.inode.allExtents work.disk.spill) := by
      intro lba pba covers maps
      have here : lba = chunk.logicalBlock := by
        unfold Extent.Covers Extent.logicalEnd at covers
        dsimp only at covers
        omega
      exact hole pba (here ▸ maps)
    dsimp only
    refine wp_bind_or (mapExtent_spec owned Nat.one_pos (shares record found) unmapped) ?_ ?_
    · rintro _ first ⟨quiet, adds⟩
      have still_indexed : first.disk.dedupe.bind (find (outside.hash
          (overwrite zeroPage data chunk))) = some record := by
        rw [quiet.dedupe]
        exact indexed
      refine wp_seq (incrementRef_spec still_indexed) ?_
      rintro _ second ⟨aside, coverage, index⟩
      rw [wp_bind]
      have carries := aside.carries quiet.carries.reshaped.kept.still quiet.carries.reshaped.sound
      have both := quiet.carries.trans carries
      refine wp_mono (pinShared_spec (both.covered owned.covered)
        (by rw [coverage, quiet.coverage]; exact has_tree) record.physicalBlock) ?_
        fun _ _ => trivial
      rintro _ third ⟨aside', dedupe, pinned⟩
      have carries' := aside'.carries both.reshaped.kept.still both.reshaped.sound
      refine .inr (.shares found (both.trans carries') ?_ ?_ ?_ pinned ?_)
      · rw [aside'.inode, aside'.spill, aside.inode, aside.spill]
        exact adds
      · rw [aside'.blocks, aside.blocks, quiet.blocks]
      · rw [aside'.checksums, aside.checksums, quiet.checksums]
      · intro key block indexed
        have before := index key block
          (by unfold Disk.Indexed at indexed ⊢; rwa [dedupe] at indexed)
        unfold Disk.Indexed at before ⊢
        rwa [quiet.dedupe] at before
    · exact fun _ state moved => ((keeps_incrementRef Work.stable_moved _ _).bind fun _ =>
        (keeps_pinShared Work.stable_moved _).bind fun _ => keeps_pure _) state moved

theorem writeChunk_spec (outside : Outside SpillStore) (data : Slice) (chunk : Chunk) (block : Nat)
    :
    wp (writeChunk outside data chunk block)
      (fun page next => page = work.merged data chunk block ∧ next.Owned foreign ∧
        work.Carries next ∧ (∀ lba pba, next.Maps lba pba ↔
          work.Maps lba pba) ∧
        next.disk.blocks = update work.disk.blocks block page ∧
        next.disk.checksums = work.disk.checksums ∧ work.Unshared next ∧
        ∀ key other, next.disk.Indexed key other → work.disk.Indexed key other ∨
          key = outside.hash page ∧ other = block)
      anyhow work := by
  unfold writeChunk
  rw [wp_bind, wp_get, wp_bind, writeBlock, wp_modify, wp_bind]
  have written : work.Carries { work with disk := { work.disk with
      blocks := update work.disk.blocks block (work.merged data chunk block) } } :=
    ⟨.refl _, fun _ pinned => pinned, fun formed => ⟨formed.tree, formed.disjoint⟩,
      owned.carries.reshaped⟩
  refine wp_imp (indexBlock_spec outside chunk block _) ?_
  rintro _ next ⟨aside, unshared, index⟩
  obtain ⟨carries, next_owned, same⟩ := (owned.same written fun _ _ maps => maps).aside aside
  exact ⟨rfl, next_owned, written.trans carries, same, aside.blocks, aside.checksums, unshared,
    index⟩

end Parts

/-- Where the block that a piece of data went to comes from, and what it held before. -/
inductive Source (outside : Outside SpillStore) (work : Work SpillStore) (data : Slice)
    (chunk : Chunk) (block : Nat) (page : Page) : Prop
  /-- The block of the inode, written in place. -/
  | inPlace (maps : work.Maps chunk.logicalBlock block)
      (unprotected : work.redirects operations chunk.logicalBlock block = false)
      (page_eq : page = work.merged data chunk block)
  /-- A copy of the block of the inode. -/
  | moved (old : Nat) (maps : work.Maps chunk.logicalBlock old)
      (protected_block : work.redirects operations chunk.logicalBlock old = true)
      (free : work.disk.bitmap.used block = false)
      (page_eq : page =
        overwrite (if chunk.size < blockSize then work.disk.blocks old else zeroPage) data chunk)
  /-- A block for a hole. -/
  | fresh (hole : ∀ physical, ¬ work.Maps chunk.logicalBlock physical)
      (free : work.disk.bitmap.used block = false)
      (page_eq : page = work.merged data chunk block)
  /-- A block of the index for a hole. -/
  | shared (hole : ∀ physical, ¬ work.Maps chunk.logicalBlock physical) (record : DedupeRecord)
      (found : work.shareable outside data chunk = some record)
      (block_eq : block = record.physicalBlock) (page_eq : page = work.disk.blocks block)

/-- What placing a piece of data does. -/
structure ChunkPlaced (outside : Outside SpillStore) (work : Work SpillStore)
    (lastBlock : Option Nat) (data : Slice) (chunk : Chunk) (placed : Placed)
    (next : Work SpillStore) : Prop where
  carries : work.Carries next
  source : Source outside work data chunk placed.block placed.page
  here : next.Maps chunk.logicalBlock placed.block
  held : next.disk.blocks placed.block = placed.page
  blocks : ∀ block, block ≠ placed.block → next.disk.blocks block = work.disk.blocks block
  /-- The other blocks of the inode stay where they are. -/
  kept : ∀ logical, logical ≠ chunk.logicalBlock → ∀ physical, work.Maps logical physical →
    next.Maps logical physical
  /-- Only an appending call maps more, up to its last block and to blocks that were free. -/
  added : ∀ logical, logical ≠ chunk.logicalBlock → ∀ physical, next.Maps logical physical →
    work.Maps logical physical ∨ (∀ other, ¬ work.Maps logical other) ∧
      work.disk.bitmap.used physical = false ∧ physical ≠ placed.block ∧
        ∃ last, lastBlock = some last ∧ chunk.logicalBlock < logical ∧ logical ≤ last
  /-- If it maps more, it maps all up to its last block. -/
  reserved : (∀ logical, logical ≠ chunk.logicalBlock → ∀ physical, next.Maps logical physical →
      work.Maps logical physical) ∨
    ∀ last, lastBlock = some last → ∀ logical, chunk.logicalBlock ≤ logical → logical ≤ last →
      ∃ physical, next.Maps logical physical
  checksums : next.disk.checksums = work.disk.checksums
  unshared : work.Unshared next
  index : ∀ key block, next.disk.Indexed key block → work.disk.Indexed key block ∨
    key = outside.hash placed.page ∧ block = placed.block

section Placing
variable {outside : Outside SpillStore} {lastBlock : Option Nat} {data : Slice} {chunk : Chunk}
  {localityHint : Option Nat}

/-- The same call with another handle. -/
def Work.opened (work : Work SpillStore) (handle : Nat) : Work SpillStore :=
  { work with disk := { work.disk with spill := { work.disk.spill with handle := handle } } }

variable {block : Nat}

theorem placed_of_mapped {mid : Work SpillStore} (carries : work.Carries mid)
    (owned : mid.Owned foreign) (here : mid.Maps chunk.logicalBlock block)
    (kept : ∀ lba, lba ≠ chunk.logicalBlock → ∀ pba, work.Maps lba pba →
      mid.Maps lba pba)
    (added : ∀ lba, lba ≠ chunk.logicalBlock → ∀ pba, mid.Maps lba pba →
      work.Maps lba pba ∨ (∀ other, ¬ work.Maps lba other) ∧
        work.disk.bitmap.used pba = false ∧ pba ≠ block ∧
          ∃ last, lastBlock = some last ∧ chunk.logicalBlock < lba ∧ lba ≤ last)
    (reserved : (∀ lba, lba ≠ chunk.logicalBlock → ∀ pba, mid.Maps lba pba →
        work.Maps lba pba) ∨
      ∀ last, lastBlock = some last → ∀ lba, chunk.logicalBlock ≤ lba → lba ≤ last →
        ∃ pba, mid.Maps lba pba)
    (blocks : ∀ other, other ≠ block → mid.disk.blocks other = work.disk.blocks other)
    (checksums : mid.disk.checksums = work.disk.checksums)
    (coverage : mid.disk.coverage = work.disk.coverage)
    (dedupe : mid.disk.dedupe = work.disk.dedupe)
    (source : Source outside work data chunk block (mid.merged data chunk block))
    (localityHint : Option Nat) :
    wp (do
        let page ← writeChunk outside data chunk block
        pure ⟨block, page, localityHint⟩)
      (fun placed next => next.Owned foreign ∧
        ChunkPlaced outside work lastBlock data chunk placed next)
      anyhow mid := by
  refine wp_seq (writeChunk_spec owned outside data chunk block) ?_
  rintro page next ⟨rfl, next_owned, carries', same, written, unrecorded, unshared, index⟩
  refine ⟨next_owned, ?_⟩
  constructor
  · exact carries.trans carries'
  · exact source
  · exact (same _ _).mpr here
  · show next.disk.blocks block = _
    rw [written, update_self]
  · intro other apart
    rw [written, update_of_ne apart]
    exact blocks other apart
  · exact fun lba apart pba maps => (same _ _).mpr (kept lba apart pba maps)
  · exact fun lba apart pba maps => added lba apart pba ((same _ _).mp maps)
  · refine reserved.imp (fun no_more lba apart pba maps => ?_)
      fun all last is_last lba low high => ?_
    · exact no_more lba apart pba ((same _ _).mp maps)
    · obtain ⟨pba, maps⟩ := all last is_last lba low high
      exact ⟨pba, (same _ _).mpr maps⟩
  · exact unrecorded.trans checksums
  · intro off
    rw [← dedupe] at off
    rw [← coverage]
    exact unshared off
  · intro key other indexed
    refine (index key other indexed).imp_left fun before => ?_
    unfold Disk.Indexed at before ⊢
    rwa [dedupe] at before

section
variable (owned : work.Owned foreign)
include owned

theorem Work.Owned.opened (handle : Nat) :
    work.Carries (work.opened handle) ∧ (work.opened handle).Owned foreign := by
  have carries : work.Carries (work.opened handle) :=
    ⟨.refl _, fun _ pinned => pinned, fun formed => ⟨formed.tree, formed.disjoint⟩,
      ⟨owned.sound.tidy, owned.sound.room, owned.sound.tree⟩, .handle owned.still _ handle,
      .inl rfl, rfl, rfl, rfl⟩
  exact ⟨carries, owned.same carries fun _ _ maps => maps⟩

theorem lookupBlock_spec (lba : Nat) :
    wp (lookupBlock operations lba)
      (fun found next => found = work.inode.blockOf work.disk.spill lba ∧
        ∃ handle, next = work.opened handle)
      never work := by
  unfold lookupBlock
  rw [wp_bind, wp_get, wp_bind, wp_attempt, onTrees, wp_focus]
  refine wp_total (getPhysicalBlock_spec owned.sound lba) ?_
  rintro found _ ⟨rfl, handle, rfl⟩
  exact ⟨rfl, handle, rfl⟩

variable {placed : Placed}

theorem ChunkPlaced.unopen {handle : Nat}
    (after : ChunkPlaced outside (work.opened handle) lastBlock data chunk placed next) :
    ChunkPlaced outside work lastBlock data chunk placed next := by
  refine { after with carries := (owned.opened handle).1.trans after.carries, source := ?_ }
  cases after.source with
  | inPlace maps unprotected page_eq => exact .inPlace maps unprotected page_eq
  | moved old maps protected_block free page_eq =>
    exact .moved old maps protected_block free page_eq
  | fresh hole free page_eq => exact .fresh hole free page_eq
  | shared hole record found block_eq page_eq => exact .shared hole record found block_eq page_eq

theorem placeHole_spec (room : ∀ last, lastBlock = some last → chunk.logicalBlock ≤ last)
    (hole : ∀ lba, chunk.logicalBlock ≤ lba →
      lba < chunk.logicalBlock + holeLength lastBlock chunk.logicalBlock →
        ∀ pba, ¬ work.Maps lba pba) :
    wp (do
        let (block, localityHint) ←
          fillHole operations lastBlock localityHint chunk.logicalBlock
        let page ← writeChunk outside data chunk block
        pure ⟨block, page, localityHint⟩)
      (fun placed next => next.Moved ∨ next.Owned foreign ∧
        ChunkPlaced outside work lastBlock data chunk placed next)
      anyhow work := by
  refine wp_bind_or (fillHole_spec owned localityHint hole) ?_ ?_
  · rintro ⟨block, hint⟩ mid ⟨quiet, adds, taken⟩
    dsimp only at adds taken ⊢
    have sends : ∀ lba pba, Extent.Sends
        ⟨chunk.logicalBlock, block, holeLength lastBlock chunk.logicalBlock⟩ lba pba ↔
          chunk.logicalBlock ≤ lba ∧
            lba < chunk.logicalBlock + holeLength lastBlock chunk.logicalBlock ∧
              block + (lba - chunk.logicalBlock) = pba :=
      fun _ _ => and_assoc
    have pos : 0 < holeLength lastBlock chunk.logicalBlock := by
      unfold holeLength
      cases lastBlock with
      | none => exact Nat.one_pos
      | some last => exact Nat.succ_pos _
    have mid_owned := owned.adds quiet.carries adds
      (fun other maps => (taken other maps.1 maps.2).2)
      fun other maps => .inl (taken other maps.1 maps.2).1
    have free : work.disk.bitmap.used block = false := (taken block le_rfl (by omega)).1
    have here : mid.Maps chunk.logicalBlock block :=
      (adds.mapsTo _ _).mpr (.inr ((sends _ _).mpr ⟨le_rfl, by omega, by omega⟩))
    refine wp_imp (placed_of_mapped quiet.carries mid_owned here ?_ ?_ (.inr ?_) ?_
      quiet.checksums quiet.coverage quiet.dedupe ?_ hint) (fun _ _ done => .inr done)
    · exact fun lba apart pba maps => (adds.mapsTo _ _).mpr (.inl maps)
    · intro lba apart pba maps
      rcases (adds.mapsTo _ _).mp maps with old | new
      · exact .inl old
      · obtain ⟨low, high, is_there⟩ := (sends _ _).mp new
        refine .inr ⟨hole lba low high, (taken pba (by omega) (by omega)).1, by omega, ?_⟩
        cases lastBlock with
        | none =>
          unfold holeLength at high
          dsimp only at high
          omega
        | some last =>
          have reaches := room last rfl
          unfold holeLength at high
          dsimp only at high
          exact ⟨last, rfl, by omega, by omega⟩
    · rintro last rfl lba low high
      exact ⟨_, (adds.mapsTo _ _).mpr (.inr ((sends _ _).mpr
        ⟨low, by unfold holeLength; dsimp only; omega, rfl⟩))⟩
    · exact fun other _ => by rw [quiet.blocks]
    · refine .fresh (hole _ le_rfl (by omega)) free ?_
      unfold Work.merged
      rw [quiet.blocks]
  · intro result mid moved
    exact ((keeps_writeChunk Work.stable_moved outside data chunk result.1).bind fun _ =>
      keeps_pure _) mid moved

theorem placed_of_shared (hole : ∀ pba, ¬ work.Maps chunk.logicalBlock pba)
    (shares : ∀ record, work.shareable outside data chunk = some record →
      0 < record.physicalBlock ∧ work.disk.bitmap.used record.physicalBlock = true) {page : Page}
    (probed : Probed outside work data chunk (some (block, page)) next) :
    next.Owned foreign ∧
      ChunkPlaced outside work lastBlock data chunk ⟨block, page, localityHint⟩ next := by
  obtain - | @⟨record, _, shareable, carries, adds, blocks, checksums, pinned, index⟩ := probed
  have used := (shares record shareable).2
  have only : ∀ block, Extent.Maps ⟨chunk.logicalBlock, record.physicalBlock, 1⟩ block →
      block = record.physicalBlock := by
    intro block maps
    unfold Extent.Maps Extent.physicalEnd at maps
    dsimp only at maps
    omega
  have no_more : ∀ lba, lba ≠ chunk.logicalBlock → ∀ pba, next.Maps lba pba →
      work.Maps lba pba := by
    intro lba apart pba maps
    rcases (adds.mapsTo _ _).mp maps with old | new
    · exact old
    · have range := new.1
      unfold Extent.Covers Extent.logicalEnd at range
      dsimp only at range
      omega
  constructor
  · exact owned.adds carries adds
      (fun block maps => by rw [only block maps]; exact carries.grows.used _ used)
      fun block maps => .inr (by rw [only block maps]; exact pinned)
  · constructor
    · exact carries
    · exact .shared hole record shareable rfl rfl
    · refine (adds.mapsTo _ _).mpr (.inr ⟨⟨le_rfl, Nat.lt_succ_self _⟩, ?_⟩)
      unfold Extent.block
      exact (congrArg (record.physicalBlock + ·) (Nat.sub_self _)).trans (Nat.add_zero _)
    · rw [blocks]
    · exact fun block _ => by rw [blocks]
    · exact fun lba _ pba maps => (adds.mapsTo _ _).mpr (.inl maps)
    · exact fun lba apart pba maps => .inl (no_more lba apart pba maps)
    · exact .inl no_more
    · exact checksums
    · intro off
      rw [Work.shareable] at shareable
      split_ifs at shareable
      rw [off] at shareable
      cases shareable
    · exact fun key block indexed => .inl (index key block indexed)

/-- What the loop body of a write needs: its block lies before the last one of an appending call,
which has a hole there when it has one here, and a block of the index to share is in use. -/
structure Work.Ready (outside : Outside SpillStore) (work : Work SpillStore)
    (lastBlock : Option Nat) (data : Slice) (chunk : Chunk) : Prop where
  reaches : ∀ last, lastBlock = some last → chunk.logicalBlock ≤ last
  room : ∀ last, lastBlock = some last → (∀ physical, ¬ work.Maps chunk.logicalBlock physical) →
    ∀ logical, chunk.logicalBlock ≤ logical → logical ≤ last →
      ∀ physical, ¬ work.Maps logical physical
  shares : (∀ physical, ¬ work.Maps chunk.logicalBlock physical) →
    ∀ record, work.shareable outside data chunk = some record →
      0 < record.physicalBlock ∧ work.disk.bitmap.used record.physicalBlock = true

theorem placeUnmapped_spec (ready : work.Ready outside lastBlock data chunk)
    (hole : ∀ pba, ¬ work.Maps chunk.logicalBlock pba) :
    wp (do
        let shared ← share operations outside data chunk
        match shared with
        | some (block, probe) => pure ⟨block, probe, localityHint⟩
        | none => do
          let (block, localityHint) ←
            fillHole operations lastBlock localityHint chunk.logicalBlock
          let page ← writeChunk outside data chunk block
          pure ⟨block, page, localityHint⟩)
      (fun placed next => next.Moved ∨ next.Owned foreign ∧
        ChunkPlaced outside work lastBlock data chunk placed next)
      anyhow work := by
  refine wp_bind_or (share_spec owned outside hole fun record shareable =>
    (ready.shares hole record shareable).1) ?_ ?_
  · intro result mid probed
    cases probed with
    | misses absent =>
      refine placeHole_spec owned ready.reaches fun lba low high => ?_
      cases lastBlock with
      | none =>
        have same : lba = chunk.logicalBlock := by
          unfold holeLength at high
          dsimp only at high
          omega
        exact same ▸ hole
      | some last =>
        have reaches := ready.reaches last rfl
        unfold holeLength at high
        dsimp only at high
        exact ready.room last rfl hole lba low (by omega)
    | shares shareable carries adds blocks checksums pinned index =>
      exact .inr (placed_of_shared owned hole (ready.shares hole)
        (.shares shareable carries adds blocks checksums pinned index))
  · intro result mid moved
    cases result with
    | some shared => exact moved
    | none => exact keeps_placeHole Work.stable_moved _ _ _ _ _ mid moved

/-- The loop body of a write behind the lookup places its piece of data. -/
theorem placeFound_spec {found : Nat}
    (finds : found = work.inode.blockOf work.disk.spill chunk.logicalBlock)
    (ready : work.Ready outside lastBlock data chunk) :
    wp (placeFound operations outside lastBlock data localityHint chunk found)
      (fun placed next => next.Moved ∨ next.Owned foreign ∧
        ChunkPlaced outside work lastBlock data chunk placed next)
      anyhow work := by
  unfold placeFound
  refine wp_bind_or (redirect_spec owned chunk.logicalBlock found) ?_ ?_
  · intro block mid redirected
    cases redirected with
    | stays in_place =>
      by_cases none_yet : found = 0
      · have hole : ∀ pba, ¬ work.Maps chunk.logicalBlock pba := by
          intro pba maps
          have there := owned.maps_iff.mp maps
          omega
        rw [if_pos none_yet]
        exact placeUnmapped_spec owned ready hole
      · rw [if_neg none_yet]
        have here : work.Maps chunk.logicalBlock found :=
          owned.maps_iff.mpr ⟨Nat.pos_of_ne_zero none_yet, finds.symm⟩
        refine wp_imp (placed_of_mapped owned.carries owned here (fun _ _ _ maps => maps)
          (fun _ _ _ maps => .inl maps) (.inl fun _ _ _ maps => maps) (fun _ _ => rfl) rfl rfl rfl
          (.inPlace here in_place rfl) localityHint) (fun _ _ done => .inr done)
    | moves protected_block free taken carries moves blocks coverage dedupe checksums =>
      have mid_owned := owned.moves carries moves free taken
      have here : mid.Maps chunk.logicalBlock block := (moves.mapsTo _ _).mpr (.inl ⟨rfl, rfl⟩)
      have nonzero : block ≠ 0 := (mid_owned.maps_iff.mp here).1.ne'
      have old_nonzero : found ≠ 0 := by
        intro none_there
        unfold Work.redirects at protected_block
        simp [none_there] at protected_block
      have old : work.Maps chunk.logicalBlock found :=
        owned.maps_iff.mpr ⟨Nat.pos_of_ne_zero old_nonzero, finds.symm⟩
      have no_more : ∀ lba, lba ≠ chunk.logicalBlock → ∀ pba,
          mid.Maps lba pba → work.Maps lba pba := by
        intro lba apart pba maps
        rcases (moves.mapsTo _ _).mp maps with ⟨same, -⟩ | ⟨-, old⟩
        · exact absurd same apart
        · exact old
      rw [if_neg nonzero]
      refine wp_imp (placed_of_mapped carries mid_owned here ?_
        (fun lba apart pba maps => .inl (no_more lba apart pba maps))
        (.inl no_more) ?_ checksums coverage dedupe ?_ localityHint) (fun _ _ done => .inr done)
      · exact fun lba apart pba maps => (moves.mapsTo _ _).mpr (.inr ⟨apart, maps⟩)
      · intro other apart
        rw [blocks, update_of_ne apart]
      · refine .moved found old protected_block free ?_
        unfold Work.merged
        rw [blocks, update_self]
  · intro block mid moved
    by_cases none_there : block = 0
    · rw [if_pos none_there]
      refine ((keeps_share Work.stable_moved outside data chunk).bind fun shared => ?_) mid moved
      cases shared with
      | some placed => exact keeps_pure _
      | none => exact keeps_placeHole Work.stable_moved _ _ _ _ _
    · rw [if_neg none_there]
      exact ((keeps_writeChunk Work.stable_moved outside data chunk block).bind fun _ =>
        keeps_pure _) mid moved

theorem placeChunk_spec (ready : work.Ready outside lastBlock data chunk) :
    wp (placeChunk operations outside lastBlock data localityHint chunk)
      (fun placed next => next.Moved ∨ next.Owned foreign ∧
        ChunkPlaced outside work lastBlock data chunk placed next)
      anyhow work := by
  unfold placeChunk
  rw [wp_bind]
  refine wp_total (lookupBlock_spec owned chunk.logicalBlock) ?_
  rintro found _ ⟨finds, handle, rfl⟩
  refine wp_imp (placeFound_spec (owned.opened handle).2 finds
    ⟨ready.reaches, ready.room, ready.shares⟩) (fun placed next done => ?_)
  exact done.imp_right fun both => ⟨both.1, both.2.unopen owned⟩

end

theorem ChunkPlaced.maps_of_lt (after : ChunkPlaced outside work lastBlock data chunk placed next)
    {pba : Nat} (before : lba < chunk.logicalBlock) (maps : next.Maps lba pba) :
    work.Maps lba pba := by
  refine (after.added lba (by omega) pba maps).resolve_right ?_
  rintro ⟨-, -, -, last, -, ahead, -⟩
  omega

/-- Placing a piece of data changes no block in use but the block of the inode, unpinned. -/
theorem ChunkPlaced.untouched (after : ChunkPlaced outside work lastBlock data chunk placed next)
    (used : work.disk.bitmap.used block = true)
    (other : work.Maps chunk.logicalBlock block → work.disk.pinned block = true)
    (nonzero : 0 < block) : next.disk.blocks block = work.disk.blocks block := by
  by_cases same : block = placed.block
  · cases after.source with
    | inPlace maps unprotected page_eq =>
      have pinned := other (same ▸ maps)
      unfold Work.redirects at unprotected
      rw [← same, pinned, decide_eq_true nonzero.ne'] at unprotected
      cases unprotected
    | moved old maps protected_block free page_eq =>
      rw [← same, used] at free
      cases free
    | fresh hole free page_eq =>
      rw [← same, used] at free
      cases free
    | shared hole record found block_eq page_eq =>
      rw [same, after.held, page_eq]
  · exact after.blocks block same

end Placing
end LionFS.File
