import LionFS.File.Truncate
import LionFS.File.Write

/-!
# What the calls keep

A condition that the operations on the extent trees and the marking of blocks keep
(`Work.Stable`) is kept by each part of a write that returns; one on the extent
trees is kept by a truncation as well. It is used for what cannot be undone in a
transaction, that the root of some tree was moved, for what cannot happen without
a snapshot, and for the blocks in use, of which a write frees none.
-/
namespace LionFS.File
open Allocator
open SpillStore (operations)

/-- A condition on the extent trees of a call. -/
def Work.Trees (kept : SpillStore → Prop) (work : Work SpillStore) : Prop := kept work.disk.spill

/-- The root of some extent tree was moved in this transaction. -/
def Work.Moved : Work SpillStore → Prop := Work.Trees SpillStore.Moved

/-- A condition that depends on the extent trees and the bitmap only, and holds on when a tree
operation is run or blocks are marked. -/
structure Work.Stable (good : Work SpillStore → Prop) : Prop where
  beside : ∀ {work next}, next.disk.spill = work.disk.spill →
    Allocator.Grows work.disk.bitmap next.disk.bitmap → good work → good next
  trees : ∀ {α : Type} {command : Run SpillStore α},
    (∀ {kept}, operations.Preserves kept → Run.Keeps kept command) →
      Run.Keeps good (onTrees command)

section Keeping
open Run
variable {kept : SpillStore → Prop} {good : Work SpillStore → Prop}

theorem keeps_onTrees {α : Type} {command : Run SpillStore α} (keeps : Keeps kept command) :
    Keeps (Work.Trees kept) (onTrees command) := by
  intro work fine
  rw [onTrees, wp_focus]
  exact wp_mono (keeps work.disk.spill fine) (fun _ _ still => still) fun _ _ => trivial

theorem Work.stable_trees (keeps : operations.Preserves kept) : Work.Stable (Work.Trees kept) where
  beside same _ fine := by
    unfold Work.Trees
    rwa [same]
  trees each := keeps_onTrees (each keeps)

theorem Work.stable_moved : Work.Stable Work.Moved := Work.stable_trees SpillStore.preserves_moved

/-- What was in use is in use. -/
theorem Work.stable_bits (start : Allocator.Bitmap) :
    Work.Stable fun work => Allocator.Grows start work.disk.bitmap where
  beside _ more grows := grows.trans more
  trees := by
    intro α command _ work grows
    rw [onTrees, wp_focus]
    unfold wp
    cases command work.disk.spill with
    | mk result spill =>
      cases result with
      | none => trivial
      | some value => exact grows

theorem keeps_freeRangeBirthAware (range : Extent) :
    Keeps (Work.Trees kept) (freeRangeBirthAware operations range) := by
  intro work fine
  rw [wp_of_eq (freeRangeBirthAware_eq operations range work)]
  exact fine

/-- Looking a block up, found or not, changes nothing but the handle. -/
theorem getPhysicalBlock_state (inode : Inode) (lba : Nat) (store : SpillStore) :
    ∃ handle, (getPhysicalBlock operations inode lba store).2 =
      { store with handle := handle } := by
  unfold getPhysicalBlock
  cases inode.extents.find? fun extent => decide (extent.Covers lba) with
  | some extent => exact ⟨store.handle, rfl⟩
  | none =>
    dsimp only
    split_ifs
    · exact ⟨store.handle, rfl⟩
    · refine ⟨inode.spillExtentRoot, ?_⟩
      rw [bind_some (show operations.new inode.spillExtentRoot store =
        (some ⟨⟩, { store with handle := inode.spillExtentRoot }) from rfl), bind_apply]
      cases read : SpillStore.read { store with handle := inode.spillExtentRoot }
        inode.spillExtentRoot with
      | none =>
        have missed : operations.lookupFloor lba
            { store with handle := inode.spillExtentRoot } =
              (none, { store with handle := inode.spillExtentRoot }) := by
          show ((SpillStore.read _ _).map _, _) = _
          rw [read]
          rfl
        rw [missed]
      | some bindings =>
        have looked : operations.lookupFloor lba
            { store with handle := inode.spillExtentRoot } =
              (some (Assoc.floor lba bindings),
                { store with handle := inode.spillExtentRoot }) := by
          show ((SpillStore.read _ _).map _, _) = _
          rw [read]
          rfl
        rw [looked]
        rfl

section
variable (stable : Work.Stable good)
include stable

theorem keeps_onBits {command : Run Allocator.Bitmap Nat} {count : Nat}
    (allocates : Allocator.Allocates command count) : Keeps good (onBits command) := by
  intro work fine
  rw [onBits, wp_focus]
  refine wp_mono (allocates work.disk.bitmap) (fun _ after taken => ?_) fun _ _ => trivial
  have grows := taken.grows
  refine stable.beside ?_ grows fine
  rfl

theorem keeps_beside {change : Work SpillStore → Work SpillStore}
    (same : ∀ work, (change work).disk.spill = work.disk.spill ∧
      (change work).disk.bitmap = work.disk.bitmap) : Keeps good (modify change) := by
  refine keeps_modify fun work fine => stable.beside (same work).1 ?_ fine
  rw [(same work).2]
  exact .refl _

theorem keeps_growTrees {allocate : Nat → Run Allocator.Bitmap Nat}
    (allocates : ∀ count, Allocator.Allocates (allocate count) count) :
    Keeps good (growTrees allocate) := by
  unfold growTrees
  refine keeps_get.bind fun work => Keeps.bind (keeps_beside stable fun _ => ⟨rfl, rfl⟩) fun _ => ?_
  refine keeps_each fun _ _ => ?_
  unfold takeNode
  exact (keeps_onBits stable (allocates 1)).bind keeps_pure

/-- The node blocks of most trees come from the end of the group. -/
theorem keeps_growMeta : Keeps good (growTrees allocateExtentsMeta) :=
  keeps_growTrees stable allocateExtentsMeta_allocates

theorem keeps_extendSize (written : Nat) : Keeps good (extendSize written) := by
  refine keeps_beside stable fun work => ?_
  dsimp only
  split_ifs <;> exact ⟨rfl, rfl⟩

theorem keeps_incrementRef (hash : Nat) (record : DedupeRecord) :
    Keeps good (incrementRef hash record) := by
  unfold incrementRef
  exact (keeps_growMeta stable).bind fun _ => keeps_beside stable fun _ => ⟨rfl, rfl⟩

theorem keeps_pinShared (block : Nat) : Keeps good (pinShared block) := by
  unfold pinShared
  refine keeps_get.bind fun work => ?_
  cases work.disk.coverage with
  | none => exact keeps_pure _
  | some runs =>
    dsimp only
    split_ifs
    · exact (keeps_growMeta stable).bind fun _ => keeps_beside stable fun _ => ⟨rfl, rfl⟩
    · exact keeps_pure _

theorem keeps_writeChunk (outside : Outside SpillStore) (data : Slice) (chunk : Chunk)
    (block : Nat) : Keeps good (writeChunk outside data chunk block) := by
  unfold writeChunk
  refine keeps_get.bind fun work => ?_
  refine Keeps.bind (keeps_beside stable fun _ => ⟨rfl, rfl⟩) fun _ => Keeps.bind ?_ fun _ =>
    keeps_pure _
  unfold indexBlock
  refine keeps_get.bind fun work => ?_
  cases work.disk.dedupe with
  | none => exact keeps_pure _
  | some index =>
    dsimp only
    split_ifs
    · exact (keeps_growMeta stable).bind fun _ => keeps_beside stable fun _ => ⟨rfl, rfl⟩
    · exact keeps_pure _

theorem keeps_mapExtent (added : Extent) : Keeps good (mapExtent operations added) := by
  unfold mapExtent
  refine (keeps_growMeta stable).bind fun _ => keeps_get.bind fun work => ?_
  refine (stable.trees fun keeps => keeps.addExtent work.inode added).bind fun inode => ?_
  exact keeps_beside stable fun _ => ⟨rfl, rfl⟩

theorem keeps_redirect (lba pba : Nat) : Keeps good (redirect operations lba pba) := by
  unfold redirect
  refine keeps_get.bind fun work => ?_
  split_ifs
  · refine (keeps_onBits stable (allocateExtents_allocates 1)).bind fun block => ?_
    refine Keeps.bind (keeps_beside stable fun _ => ⟨rfl, rfl⟩) fun _ =>
      (keeps_growTrees stable allocateExtents_allocates).bind fun _ => ?_
    refine (stable.trees fun keeps => keeps.remapBlock work.inode lba block).bind fun inode => ?_
    exact Keeps.bind (keeps_beside stable fun _ => ⟨rfl, rfl⟩) keeps_pure
  · exact keeps_pure _

theorem keeps_share (outside : Outside SpillStore) (data : Slice) (chunk : Chunk) :
    Keeps good (share operations outside data chunk) := by
  unfold share
  refine keeps_get.bind fun work => ?_
  cases work.shareable outside data chunk with
  | none => exact keeps_pure _
  | some record =>
    refine (keeps_mapExtent stable _).bind fun _ => (keeps_incrementRef stable _ _).bind fun _ => ?_
    exact (keeps_pinShared stable _).bind keeps_pure

theorem keeps_fillHole (lastBlock localityHint : Option Nat) (lba : Nat) :
    Keeps good (fillHole operations lastBlock localityHint lba) := by
  unfold fillHole
  cases lastBlock with
  | some lastBlock =>
    refine (keeps_onBits stable (allocateExtentsReserved_allocates _ _ _)).bind ?_
    exact fun _ => (keeps_mapExtent stable _).bind keeps_pure
  | none =>
    refine Keeps.bind ?_ fun _ => (keeps_mapExtent stable _).bind keeps_pure
    cases localityHint with
    | some hint => exact keeps_onBits stable (allocateExtentsHinted_allocates 1 hint)
    | none => exact keeps_onBits stable (allocateExtents_allocates 1)

theorem keeps_lookupBlock (lba : Nat) : Keeps good (lookupBlock operations lba) := by
  unfold lookupBlock
  refine keeps_get.bind fun work => Keeps.bind ?_ keeps_pure
  intro state fine
  obtain ⟨handle, same⟩ := getPhysicalBlock_state work.inode lba state.disk.spill
  show good { state with disk := { state.disk with
    spill := (getPhysicalBlock operations work.inode lba state.disk.spill).2 } }
  rw [same]
  exact stable.trees (fun keeps => keeps.new handle) state fine

section
variable (outside : Outside SpillStore)
include outside
section
variable (lastBlock : Option Nat) (data : Slice) (localityHint : Option Nat) (chunk : Chunk)
include lastBlock data localityHint chunk

theorem keeps_placeHole :
    Keeps good (do
      let (block, localityHint) ←
        fillHole operations lastBlock localityHint chunk.logicalBlock
      let page ← writeChunk outside data chunk block
      pure (⟨block, page, localityHint⟩ : Placed)) :=
  (keeps_fillHole stable _ _ _).bind fun _ =>
    (keeps_writeChunk stable _ _ _ _).bind keeps_pure

theorem keeps_placeFound (found : Nat) :
    Keeps good (placeFound operations outside lastBlock data localityHint chunk found) := by
  unfold placeFound
  refine (keeps_redirect stable _ _).bind fun block => ?_
  split_ifs
  · refine (keeps_share stable outside data chunk).bind fun shared => ?_
    cases shared with
    | some placed => exact keeps_pure _
    | none => exact keeps_placeHole stable outside lastBlock data localityHint chunk
  · exact (keeps_writeChunk stable _ _ _ _).bind keeps_pure

theorem keeps_placeChunk :
    Keeps good (placeChunk operations outside lastBlock data localityHint chunk) := by
  unfold placeChunk
  exact (keeps_lookupBlock stable _).bind fun found => keeps_placeFound stable _ _ _ _ _ _

end

theorem keeps_storeBlockChecksum (lba block : Nat) (page : Page) :
    Keeps good (storeBlockChecksum operations outside lba block page) := by
  unfold storeBlockChecksum
  refine keeps_get.bind fun work => ?_
  cases work.disk.checksums with
  | none => exact keeps_pure _
  | some records =>
    refine (stable.trees fun keeps => keeps.nodeGenStamp).bind fun stamp => ?_
    exact (keeps_growMeta stable).bind fun _ => keeps_beside stable fun _ => ⟨rfl, rfl⟩

theorem keeps_writeChunks (lastBlock : Option Nat) (data : Slice) (localityHint : Option Nat)
    (pieces : List Chunk) :
    Keeps good (writeChunks operations outside lastBlock data localityHint pieces) := by
  induction pieces generalizing localityHint with
  | nil => exact keeps_pure _
  | cons chunk rest ih =>
    unfold writeChunks
    refine (keeps_placeChunk stable _ _ _ _ _).bind fun placed => ?_
    exact (keeps_storeBlockChecksum stable _ _ _ _).bind fun _ => ih _

theorem keeps_deferChunks (lastBlock : Option Nat) (data : Slice) (localityHint : Option Nat)
    (deferred : Deferred) (pieces : List Chunk) :
    Keeps good (deferChunks operations outside lastBlock data localityHint deferred pieces) := by
  induction pieces generalizing localityHint deferred with
  | nil => exact keeps_pure _
  | cons chunk rest ih =>
    unfold deferChunks
    exact (keeps_placeChunk stable _ _ _ _ _).bind fun placed => ih _ _

theorem keeps_deferRuns (localityHint : Option Nat) (deferred : Deferred)
    (runs : List (Nat × Slice)) :
    Keeps good (deferRuns operations outside localityHint deferred runs) := by
  induction runs generalizing localityHint deferred with
  | nil => exact keeps_pure _
  | cons run rest ih =>
    unfold deferRuns
    refine keeps_get.bind fun work => ?_
    refine (keeps_deferChunks stable _ _ _ _ _ _).bind fun result => ?_
    exact (keeps_extendSize stable _).bind fun _ => ih _ _

end

theorem writeFile_keeps (outside : Outside SpillStore) {work : Work SpillStore}
    (plain : work.inode.compressionAlgo = 0) (start : good work) (offset : Nat) (data : Slice) :
    wp (writeFile operations outside offset data) (fun _ => good) anyhow work := by
  unfold writeFile
  rw [wp_bind, wp_get, if_neg (not_not.mpr plain)]
  exact ((keeps_writeChunks stable _ _ _ _ _).bind fun _ => keeps_extendSize stable _) work start

end

variable (keeps : operations.Preserves kept)
include keeps

theorem keeps_truncateSpilled (newBlocks : Nat) (extents : List Extent) :
    Keeps (Work.Trees kept) (truncateSpilled operations newBlocks extents) := by
  induction extents with
  | nil => exact keeps_pure _
  | cons extent rest ih =>
    unfold truncateSpilled
    split_ifs
    · exact (keeps_freeRangeBirthAware _).bind fun _ => ih
    · refine (keeps_freeRangeBirthAware _).bind fun _ =>
        (keeps_growTrees (Work.stable_trees keeps) allocateExtents_allocates).bind ?_
      intro _
      refine (keeps_onTrees (keeps.removeWithAlloc _)).bind fun _ => ?_
      exact (keeps_onTrees (keeps.insert _ _)).bind fun _ => ih
    · exact ih

theorem truncateFile_keeps (outside : Outside SpillStore) {work : Work SpillStore}
    (plain : work.inode.compressionAlgo = 0) (start : work.Trees kept) (newSize : Nat) :
    wp (truncateFile operations outside newSize) (fun _ => Work.Trees kept) anyhow work := by
  have tree : ∀ newBlocks root,
      Keeps (Work.Trees kept) (truncateTree operations newBlocks root) := by
    intro newBlocks root
    unfold truncateTree
    split_ifs
    · exact keeps_pure _
    · refine (keeps_onTrees (keeps.new _)).bind fun _ => ?_
      exact (keeps_onTrees keeps.iterExtents).bind fun _ => keeps_truncateSpilled keeps _ _
  unfold truncateFile
  rw [wp_bind, wp_get, if_neg (not_not.mpr plain)]
  split_ifs
  · exact start
  · rw [wp_bind, wp_of_eq (truncateInline_eq _ _ _ _), wp_bind]
    exact wp_mono (tree _ _ _ start) (fun _ _ fine => fine) fun _ _ => trivial

end Keeping
end LionFS.File
