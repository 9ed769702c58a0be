import LionFS.File.Owned
import LionFS.File.Roots

/-!
# What a truncation leaves behind

A shrinking call cuts the extents in the inode at the new end. In the extent tree
it cuts the extent the end falls into; an extent behind the end stays there
although its blocks are freed. When there is no such extent, and when no run that
is freed has a pinned block, the inode still owns what is left of its blocks.
-/
namespace LionFS.File
open Run List SpillStore
open SpillStore (operations)

/-- How much of a spilled extent stays in the tree. -/
def Extent.cutLength (extent : Extent) (newBlocks : Nat) : Nat :=
  if newBlocks ≤ extent.logicalStart then extent.length
  else min extent.length (newBlocks - extent.logicalStart)

/-- What stays of a binding of the extent tree. -/
def cutBinding (newBlocks : Nat) (binding : Nat × ExtentTreeValue) : Nat × ExtentTreeValue :=
  (binding.1, { binding.2 with length := (spilledExtent binding).cutLength newBlocks })

theorem Extent.mapsTo_before (extent : Extent) (newBlocks lba pba : Nat) :
    MapsTo (extent.before newBlocks) lba pba ↔
      extent.Sends lba pba ∧ lba < newBlocks := by
  unfold Extent.before
  split_ifs with behind cut
  · constructor
    · exact fun maps => absurd maps mapsTo_nil
    · rintro ⟨sends, before⟩
      have start := sends.1.1
      omega
  · rw [mapsTo_cons, or_iff_left mapsTo_nil]
    unfold Extent.Sends Extent.Covers Extent.logicalEnd Extent.block Extent.keep
    unfold Extent.logicalEnd at cut
    dsimp only
    omega
  · rw [mapsTo_cons, or_iff_left mapsTo_nil]
    unfold Extent.Sends Extent.Covers
    omega

theorem Extent.tidy_before {extent : Extent} (pos : 0 < extent.length)
    (nonzero : 0 < extent.physicalStart) (newBlocks : Nat) : Tidy (extent.before newBlocks) := by
  have alone : ∀ piece : Extent, 0 < piece.length → 0 < piece.physicalStart → Tidy [piece] :=
    fun piece long start => tidy_nil.cons long start fun _ _ _ maps => mapsTo_nil maps
  unfold Extent.before
  split_ifs with behind cut
  · exact tidy_nil
  · refine alone _ ?_ nonzero
    show 0 < newBlocks - extent.logicalStart
    omega
  · exact alone extent pos nonzero

theorem length_flatMap_before (extents : List Extent) (newBlocks : Nat) :
    (extents.flatMap (Extent.before · newBlocks)).length ≤ extents.length := by
  induction extents with
  | nil => exact le_rfl
  | cons extent rest ih =>
    have one : (extent.before newBlocks).length ≤ 1 := by
      unfold Extent.before
      split_ifs <;> simp
    rw [flatMap_cons, length_append, length_cons]
    omega

/-- What stays in the tree maps the blocks before the end, and those of an extent behind it. -/
theorem Extent.sends_cut (extent : Extent) (newBlocks lba pba : Nat) :
    (extent.keep (extent.cutLength newBlocks)).Sends lba pba ↔
      extent.Sends lba pba ∧ (lba < newBlocks ∨ newBlocks ≤ extent.logicalStart) := by
  unfold Extent.cutLength Extent.Sends Extent.Covers Extent.logicalEnd Extent.block Extent.keep
  dsimp only
  split_ifs <;> omega

/-- The keys stay. -/
theorem map_fst_cutBinding (newBlocks : Nat) (bindings : List (Nat × ExtentTreeValue)) :
    (bindings.map (cutBinding newBlocks)).map Prod.fst = bindings.map Prod.fst := by
  rw [map_map]
  rfl

theorem cutBinding_eq_self {newBlocks : Nat} {binding : Nat × ExtentTreeValue}
    (uncut : newBlocks ≤ (spilledExtent binding).logicalStart ∨
      (spilledExtent binding).logicalEnd ≤ newBlocks) : cutBinding newBlocks binding = binding := by
  have same : (spilledExtent binding).cutLength newBlocks = binding.2.length := by
    unfold Extent.cutLength
    unfold Extent.logicalEnd at uncut
    have length : (spilledExtent binding).length = binding.2.length := rfl
    split_ifs with behind <;> omega
  unfold cutBinding
  rw [same]

section Cutting
variable {work : Work SpillStore} {root newBlocks : Nat}

/-- The loop over the spilled extents cuts each of them. -/
theorem truncateSpilled_cuts (rooted : root ≠ 0) {done rest : List (Nat × ExtentTreeValue)}
    (ordered : Assoc.Ordered (done.map (cutBinding newBlocks) ++ rest))
    (views : Views root (done.map (cutBinding newBlocks) ++ rest) work.disk.spill) :
    wp (truncateSpilled operations newBlocks (rest.map spilledExtent))
      (fun _ next => Views root ((done ++ rest).map (cutBinding newBlocks)) next.disk.spill ∧
        Settled root work.disk.spill next.disk.spill)
      anyhow work := by
  induction rest generalizing done work with
  | nil =>
    rw [append_nil] at views ⊢
    exact ⟨views, .handle _ _ work.disk.spill.handle⟩
  | cons binding rest ih =>
    have regroup : done ++ binding :: rest = done ++ [binding] ++ rest := by
      rw [append_assoc, singleton_append]
    have uncut : cutBinding newBlocks binding = binding →
        (done ++ [binding]).map (cutBinding newBlocks) ++ rest =
          done.map (cutBinding newBlocks) ++ binding :: rest := by
      intro same
      rw [map_append, map_singleton, same, append_assoc, singleton_append]
    rw [map_cons, regroup]
    unfold truncateSpilled
    split_ifs with behind cut
    · have same := uncut (cutBinding_eq_self (.inl behind))
      rw [wp_bind, wp_of_eq (freeRangeBirthAware_eq _ _ _)]
      exact ih (same ▸ ordered) (same ▸ views)
    · rw [wp_bind, wp_of_eq (freeRangeBirthAware_eq _ _ _), wp_bind]
      refine wp_mono (growTrees_spec Allocator.allocateExtents_allocates _) ?_
        fun _ _ => trivial
      rintro _ _ ⟨bitmap, insertions, rfl, -, -⟩
      have kept_length : (spilledExtent binding).cutLength newBlocks =
          newBlocks - (spilledExtent binding).logicalStart := by
        unfold Extent.cutLength
        unfold Extent.logicalEnd at cut
        rw [if_neg behind]
        omega
      have rebound : withSpilled ((spilledExtent binding).keep
          (newBlocks - (spilledExtent binding).logicalStart))
          (Assoc.erase binding.1 (done.map (cutBinding newBlocks) ++ binding :: rest)) =
            (done ++ [binding]).map (cutBinding newBlocks) ++ rest := by
        rw [← kept_length, map_append, map_singleton, append_assoc, singleton_append]
        exact Assoc.insert_erase ordered
      have still_ordered : Assoc.Ordered
          ((done ++ [binding]).map (cutBinding newBlocks) ++ rest) := by
        refine ordered.of_keys ?_
        rw [map_append, map_fst_cutBinding, map_append, map_append,
          map_fst_cutBinding, append_assoc]
        rfl
      rw [wp_bind, onTrees, wp_focus]
      refine wp_total (views.removeWithAlloc rooted binding.1) ?_
      rintro _ first ⟨removed, settled⟩
      rw [wp_bind, onTrees, wp_focus]
      refine wp_total (removed.change rooted _) ?_
      rintro _ second ⟨inserted, again⟩
      refine wp_imp (ih still_ordered (rebound ▸ inserted)) ?_
      rintro _ next ⟨views, later⟩
      exact ⟨views, (settled.trans again (.inl rfl)).trans later (.inl rfl)⟩
    · have same := uncut (cutBinding_eq_self (.inr (Nat.not_lt.mp cut)))
      exact ih (same ▸ ordered) (same ▸ views)

theorem truncateTree_cuts {inode : Inode} (still : work.disk.spill.rootCell = none)
    (sound : inode.Sound work.disk.spill) :
    wp (truncateTree operations newBlocks inode.spillExtentRoot)
      (fun _ next => next.Moved ∨
        (inode.spilled next.disk.spill = (inode.spilled work.disk.spill).map
          fun extent => extent.keep (extent.cutLength newBlocks)) ∧
        (inode.spillExtentRoot ≠ 0 → ∃ bindings,
          next.disk.spill.read inode.spillExtentRoot = some bindings ∧ Assoc.Ordered bindings) ∧
        SpillStore.Kept inode.spillExtentRoot work.disk.spill next.disk.spill)
      anyhow work := by
  unfold truncateTree Inode.spilled
  split_ifs with rootless
  · exact .inr ⟨rfl, absurd rootless, .refl still _⟩
  · obtain ⟨bindings, read, ordered⟩ := sound.tree rootless
    have views : Views inode.spillExtentRoot bindings
        { work.disk.spill with handle := inode.spillExtentRoot } := ⟨rfl, read⟩
    rw [wp_bind, onTrees, wp_focus]
    show wp (_ >>= _) _ _ _
    rw [wp_bind, onTrees, wp_focus]
    have iterated : operations.iterExtents
        { work.disk.spill with handle := inode.spillExtentRoot } =
          (some bindings, { work.disk.spill with handle := inode.spillExtentRoot }) :=
      views.reading id
    rw [wp_of_eq iterated, read]
    have cuts := @truncateSpilled_cuts { work with disk := { work.disk with
      spill := { work.disk.spill with handle := inode.spillExtentRoot } } } inode.spillExtentRoot
      newBlocks rootless [] bindings ordered views
    refine wp_imp cuts ?_
    rintro _ next ⟨closed, moved | ⟨-, kept⟩⟩
    · exact .inl moved
    · refine .inr ⟨?_, fun _ => ⟨_, closed.read, ?_⟩, ?_⟩
      · rw [closed.read]
        show (bindings.map _).map _ = (bindings.map _).map _
        rw [map_map, map_map]
        rfl
      · exact ordered.of_keys (map_fst_cutBinding newBlocks bindings)
      · exact (SpillStore.Kept.handle still _ _).trans kept (.inl rfl)

end Cutting

/-- What a shrinking call leaves behind. -/
structure Truncated (work : Work SpillStore) (newSize : Nat) (next : Work SpillStore) : Prop where
  fields : next.inode.ino = work.inode.ino ∧ next.inode.size = newSize ∧
    next.inode.compressionAlgo = work.inode.compressionAlgo ∧
      next.inode.spillExtentRoot = work.inode.spillExtentRoot
  sound : next.inode.Sound next.disk.spill
  kept : SpillStore.Kept work.inode.spillExtentRoot work.disk.spill next.disk.spill
  /-- The blocks before the end are mapped, and those of spilled extents behind it. -/
  maps : ∀ logical physical, next.Maps logical physical ↔ work.Maps logical physical ∧
    (logical < blocksFor newSize ∨ ∃ extent ∈ work.inode.spilled work.disk.spill,
      blocksFor newSize ≤ extent.logicalStart ∧ extent.Sends logical physical)
  freed : ∃ now, next.disk = now.disk ∧ Freed work now (work.handed newSize)

section Shrinking
variable {foreign : Nat → Prop} {work next : Work SpillStore} {newSize : Nat}

theorem mapsTo_cut (inline spilled : List Extent) (newBlocks lba pba : Nat) :
    MapsTo (inline.flatMap (Extent.before · newBlocks) ++
        spilled.map fun extent => extent.keep (extent.cutLength newBlocks)) lba pba ↔
      MapsTo (inline ++ spilled) lba pba ∧ (lba < newBlocks ∨
        ∃ extent ∈ spilled, newBlocks ≤ extent.logicalStart ∧ extent.Sends lba pba) := by
  rw [mapsTo_append, mapsTo_flatMap]
  constructor
  · rintro (⟨extent, mem, maps⟩ | ⟨_, mem, sends⟩)
    · rw [Extent.mapsTo_before] at maps
      exact ⟨⟨extent, mem_append_left _ mem, maps.1⟩, .inl maps.2⟩
    · obtain ⟨extent, inside, rfl⟩ := mem_map.mp mem
      obtain ⟨there, before | behind⟩ := (extent.sends_cut newBlocks _ _).mp sends
      · exact ⟨⟨extent, mem_append_right _ inside, there⟩, .inl before⟩
      · exact ⟨⟨extent, mem_append_right _ inside, there⟩, .inr ⟨extent, inside, behind, there⟩⟩
  · rintro ⟨⟨extent, mem, sends⟩, before | ⟨stale, inside, behind, there⟩⟩
    · rcases mem_append.mp mem with inline_member | spilled_member
      · exact .inl ⟨extent, inline_member, (extent.mapsTo_before _ _ _).mpr ⟨sends, before⟩⟩
      · exact .inr ⟨_, mem_map_of_mem spilled_member,
          (extent.sends_cut newBlocks _ _).mpr ⟨sends, .inl before⟩⟩
    · exact .inr ⟨_, mem_map_of_mem inside,
        (stale.sends_cut newBlocks _ _).mpr ⟨there, .inr behind⟩⟩

theorem tidy_cut {inline spilled : List Extent} (tidy : Tidy (inline ++ spilled))
    (newBlocks : Nat) :
    Tidy (inline.flatMap (Extent.before · newBlocks) ++
      spilled.map fun extent => extent.keep (extent.cutLength newBlocks)) := by
  obtain ⟨inline_tidy, spilled_tidy, disj⟩ := tidy_append.mp tidy
  refine tidy_append.mpr ⟨?_, ?_, ?_⟩
  · refine inline_tidy.flatMap fun extent mem => ⟨?_, fun lba pba maps => ?_⟩
    · exact Extent.tidy_before (inline_tidy.positive extent mem)
        (inline_tidy.nonzero extent mem) newBlocks
    · exact ((extent.mapsTo_before _ _ _).mp maps).1.1
  · rw [← flatMap_pure_eq_map]
    refine spilled_tidy.flatMap fun extent mem => ⟨?_, fun lba pba maps => ?_⟩
    · have pos := spilled_tidy.positive extent mem
      refine tidy_nil.cons ?_ (spilled_tidy.nonzero extent mem) fun _ _ _ maps => mapsTo_nil maps
      show 0 < extent.cutLength newBlocks
      unfold Extent.cutLength
      split_ifs <;> omega
    · have sends := (mapsTo_cons.mp maps).resolve_right mapsTo_nil
      exact ((extent.sends_cut _ _ _).mp sends).1.1
  · rintro lba one two first ⟨_, mem, sends⟩
    obtain ⟨extent, inside, maps⟩ := mapsTo_flatMap.mp first
    obtain ⟨other, other_inside, rfl⟩ := mem_map.mp mem
    exact disj lba one two ⟨extent, inside, ((extent.mapsTo_before _ _ _).mp maps).1⟩
      ⟨other, other_inside, ((other.sends_cut _ _ _).mp sends).1⟩

/-- A shrinking call cuts the extents and frees what lies behind the end. -/
theorem truncateFile_spec (outside : Outside SpillStore) (owned : work.Owned foreign)
    (plain : work.inode.compressionAlgo = 0) (shrinks : newSize < work.inode.size) :
    wp (truncateFile operations outside newSize)
      (fun _ next => next.Moved ∨ Truncated work newSize next) anyhow work := by
  have bits := truncateFile_freed outside plain shrinks
  have cuts : wp (truncateFile operations outside newSize)
      (fun _ next => next.Moved ∨
        next.inode = { work.inode with
          extents := work.inode.extents.flatMap (Extent.before · (blocksFor newSize))
          size := newSize } ∧
        (work.inode.spilled next.disk.spill = (work.inode.spilled work.disk.spill).map
          fun extent => extent.keep (extent.cutLength (blocksFor newSize))) ∧
        (work.inode.spillExtentRoot ≠ 0 → ∃ bindings,
          next.disk.spill.read work.inode.spillExtentRoot = some bindings ∧
            Assoc.Ordered bindings) ∧
        SpillStore.Kept work.inode.spillExtentRoot work.disk.spill next.disk.spill)
      anyhow work := by
    unfold truncateFile
    rw [wp_bind, wp_get, if_neg (not_not.mpr plain), if_neg (Nat.not_le.mpr shrinks),
      wp_bind, wp_of_eq (truncateInline_eq _ _ _ _), wp_bind]
    have tree := @truncateTree_cuts (work.freed (work.runsBehind operations
      (blocksFor newSize) work.inode.extents)) (blocksFor newSize) work.inode
      owned.still owned.sound
    have frees := (Freed.refl work).freed
      (work.runsBehind operations (blocksFor newSize) work.inode.extents)
    refine wp_mono (wp_and tree (frees.truncateTree rfl (blocksFor newSize))) ?_
      fun _ _ => trivial
    rintro _ now ⟨moved | done, freed⟩
    · exact .inl moved
    · refine .inr ⟨?_, done⟩
      dsimp only
      rw [freed.inode]
  refine wp_mono (wp_and cuts bits) ?_ fun _ _ => trivial
  rintro _ next ⟨moved | ⟨inode, spilled, tree, kept⟩, freed⟩
  · exact .inl moved
  · have all : next.inode.allExtents next.disk.spill =
        work.inode.extents.flatMap (Extent.before · (blocksFor newSize)) ++
          (work.inode.spilled work.disk.spill).map
            fun extent => extent.keep (extent.cutLength (blocksFor newSize)) := by
      rw [← spilled, inode]
      rfl
    refine .inr ⟨?_, ⟨?_, ?_, ?_⟩, kept, ?_, freed⟩
    · rw [inode]
      exact ⟨rfl, rfl, rfl, rfl⟩
    · rw [all]
      exact tidy_cut owned.sound.tidy _
    · rw [inode]
      exact (length_flatMap_before _ _).trans owned.sound.room
    · rw [inode]
      exact tree
    · intro lba pba
      unfold Work.Maps
      rw [all]
      exact mapsTo_cut _ _ _ _ _

theorem Extent.beyond_sends {extent range : Extent} {newBlocks block : Nat}
    (mem : range ∈ extent.beyond newBlocks) (low : range.physicalStart ≤ block)
    (high : block < range.physicalEnd) : ∃ lba, newBlocks ≤ lba ∧ extent.Sends lba block := by
  unfold Extent.beyond at mem
  split_ifs at mem with behind cut
  · rw [mem_singleton.mp mem] at low high
    refine ⟨extent.logicalStart + (block - extent.physicalStart), by omega, ?_⟩
    unfold Extent.Sends Extent.Covers Extent.logicalEnd Extent.block
    unfold Extent.physicalEnd at high
    omega
  · rw [mem_singleton.mp mem] at low high
    unfold Extent.drop at low
    unfold Extent.drop Extent.physicalEnd at high
    dsimp only at low high
    refine ⟨extent.logicalStart + (block - extent.physicalStart), by omega, ?_⟩
    unfold Extent.Sends Extent.Covers Extent.logicalEnd Extent.block
    omega
  · cases mem

/-- A block of a run that is handed over is mapped behind the end. -/
theorem Work.handed_maps {run : Nat × Nat} (mem : run ∈ work.handed newSize) {block : Nat}
    (low : run.1 ≤ block) (high : block < run.1 + run.2) :
    ∃ lba, blocksFor newSize ≤ lba ∧ work.Maps lba block := by
  unfold Work.handed Work.runsBehind at mem
  obtain ⟨extent, inside, mem⟩ := mem_flatMap.mp mem
  obtain ⟨range, behind, mem⟩ := mem_flatMap.mp mem
  have bounds := work.freeRuns_inside operations range run mem
  obtain ⟨lba, past, sends⟩ := Extent.beyond_sends behind (bounds.1.trans low)
    (high.trans_le bounds.2)
  exact ⟨lba, past, extent, inside, sends⟩

theorem Work.Owned.frees (owned : work.Owned foreign) (shrinks : newSize < work.inode.size)
    (alike : work.RunsPinnedAlike newSize) {run : Nat × Nat} (mem : run ∈ work.handed newSize)
    {block : Nat} (frees : work.Frees run block) :
    ¬ foreign block ∧ 0 < block ∧ ∀ lba, work.Maps lba block →
      blocksFor newSize ≤ lba := by
  obtain ⟨unpinned_run, low, high⟩ := frees
  obtain ⟨lba, past, maps⟩ := Work.handed_maps mem low high
  have unpinned : work.disk.pinned block ≠ true := by
    intro pinned
    rcases alike shrinks run mem with whole | free
    · rw [unpinned_run] at whole
      cases whole
    · have used := owned.used _ _ maps
      rw [free block low high pinned] at used
      cases used
  refine ⟨fun others => unpinned (owned.apart _ _ others maps), (owned.maps_iff.mp maps).1, ?_⟩
  intro other there
  rw [(owned.single _ _ _ there maps).resolve_right unpinned]
  exact past

/-- No extent of the tree lies behind the end of a shrinking call. -/
def Work.CutsCleanly (work : Work SpillStore) (newSize : Nat) : Prop :=
  newSize < work.inode.size → ∀ extent ∈ work.inode.spilled work.disk.spill,
    extent.logicalStart < blocksFor newSize

/-- Without an extent of the tree behind the end, the blocks before the end are mapped. -/
theorem Truncated.maps_iff (truncated : Truncated work newSize next)
    (shrinks : newSize < work.inode.size) (clean : work.CutsCleanly newSize) (lba pba : Nat) :
    next.Maps lba pba ↔ work.Maps lba pba ∧ lba < blocksFor newSize := by
  rw [truncated.maps]
  refine and_congr_right fun _ => or_iff_left ?_
  rintro ⟨extent, mem, behind, -⟩
  have before := clean shrinks extent mem
  omega

theorem Truncated.owned (truncated : Truncated work newSize next) (owned : work.Owned foreign)
    (shrinks : newSize < work.inode.size) (clean : work.CutsCleanly newSize)
    (alike : work.RunsPinnedAlike newSize) : next.Owned foreign := by
  obtain ⟨now, disk, freed⟩ := truncated.freed
  have maps_iff := truncated.maps_iff shrinks clean
  have used : ∀ block, work.disk.bitmap.used block = true →
      (foreign block ∨ block = 0 ∨ ∃ lba, work.Maps lba block ∧
        lba < blocksFor newSize) → next.disk.bitmap.used block = true := by
    intro block before held
    rw [disk]
    refine freed.kept block before fun run mem frees => ?_
    obtain ⟨not_foreign, nonzero, behind⟩ := owned.frees shrinks alike mem frees
    rcases held with others | zero | ⟨lba, maps, inside⟩
    · exact not_foreign others
    · omega
    · have past := behind lba maps
      omega
  have pinned : ∀ block, next.disk.pinned block = work.disk.pinned block := by
    intro block
    unfold Volume.pinned
    rw [disk, freed.coverage]
  constructor
  · exact truncated.kept.still
  · exact truncated.kept.fresh owned.fresh
  · exact truncated.sound
  · constructor
    · rw [disk, freed.dedupe, freed.coverage]
      exact owned.covered.tree
    · rw [disk, freed.coverage]
      exact owned.covered.disjoint
  · exact used 0 owned.zero (.inr (.inl rfl))
  · intro lba pba maps
    obtain ⟨before, inside⟩ := (maps_iff _ _).mp maps
    exact used pba (owned.used _ _ before) (.inr (.inr ⟨lba, before, inside⟩))
  · exact fun pba others => used pba (owned.abroad _ others) (.inl others)
  · intro one two pba first second
    rw [pinned]
    exact owned.single one two pba ((maps_iff _ _).mp first).1 ((maps_iff _ _).mp second).1
  · intro lba pba others maps
    rw [pinned]
    exact owned.apart lba pba others ((maps_iff _ _).mp maps).1

end Shrinking
end LionFS.File
