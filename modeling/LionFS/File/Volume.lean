import LionFS.Allocator.Bitmap
import LionFS.Integrity.Coverage
import Mathlib.Data.Prod.Lex

/-!
# What the file layer works on

An inode maps logical blocks to physical ones by extents: up to seven in the
inode itself, the rest in an extent tree of its own. The file layer reaches these
trees through few operations (`ExtentTrees`): here a tree is the extents it holds,
and its nodes are not modelled (`SpillStore`). A volume is the rest of what is
read and changed: the data blocks, the block bitmap, the checksum records and the
coverage tree.
-/
namespace LionFS.File

/-- The bytes of a block; those past the block size are never looked at. -/
abbrev Page := Nat → UInt8

/-- `BLOCK_SIZE`. -/
def blockSize : Nat := 4096

/-- `MAX_INLINE_EXTENTS`. -/
def maxInlineExtents : Nat := 7

/-- `Extent`. -/
structure Extent where
  logicalStart : Nat
  physicalStart : Nat
  length : Nat
deriving DecidableEq

variable (extent : Extent)

/-- The logical block behind an extent. -/
def Extent.logicalEnd : Nat := extent.logicalStart + extent.length

/-- The physical block behind an extent. -/
def Extent.physicalEnd : Nat := extent.physicalStart + extent.length

/-- An extent covers a logical block. -/
def Extent.Covers (logicalBlock : Nat) : Prop :=
  extent.logicalStart ≤ logicalBlock ∧ logicalBlock < extent.logicalEnd

instance (logicalBlock : Nat) : Decidable (extent.Covers logicalBlock) :=
  inferInstanceAs (Decidable (_ ∧ _))

/-- The physical block of a covered logical block. -/
def Extent.block (logicalBlock : Nat) : Nat :=
  extent.physicalStart + (logicalBlock - extent.logicalStart)

/-- An extent maps some logical block to a physical one. -/
def Extent.Maps (physicalBlock : Nat) : Prop :=
  extent.physicalStart ≤ physicalBlock ∧ physicalBlock < extent.physicalEnd

instance (physicalBlock : Nat) : Decidable (extent.Maps physicalBlock) :=
  inferInstanceAs (Decidable (_ ∧ _))

/-- `Inode`, with the fields the data path uses. -/
structure Inode where
  ino : Nat
  size : Nat
  compressionAlgo : Nat
  /-- The first `extent_count` of `extents`. -/
  extents : List Extent
  /-- `spill_extent_root`, zero when there is no extent tree. -/
  spillExtentRoot : Nat
deriving DecidableEq

/-- `ExtentTreeValue`. -/
structure ExtentTreeValue where
  physicalStart : Nat
  length : Nat
deriving DecidableEq

/-- The extent a binding of an extent tree stands for. -/
def spilledExtent (binding : Nat × ExtentTreeValue) : Extent :=
  ⟨binding.1, binding.2.physicalStart, binding.2.length⟩

/-- What the file layer asks of the extent trees of a transaction. The operations go through
the handle that was opened last. -/
structure ExtentTrees (τ : Type) where
  /-- Allocate a root block and `ExtentTree::init_empty` there. -/
  create : Run τ Nat
  /-- `ExtentTree::new`. -/
  new : Nat → Run τ PUnit
  /-- `btree.lookup_floor`. -/
  lookupFloor : Nat → Run τ (Option (Nat × ExtentTreeValue))
  insert : Nat → ExtentTreeValue → Run τ PUnit
  removeWithAlloc : Nat → Run τ Bool
  iterExtents : Run τ (List (Nat × ExtentTreeValue))
  /-- `node_gen_stamp`: the next value of the counter that also stamps tree nodes. -/
  nodeGenStamp : Run τ Nat
  /-- `effective_cow_barrier`. -/
  cowBarrier : τ → Nat

/-- The key of a checksum record: `object_id`, then `logical_block`. -/
abbrev ChecksumTreeKey := Nat ×ₗ Nat

/-- The key of a block of a file. -/
def checksumKey (objectId logicalBlock : Nat) : ChecksumTreeKey := toLex (objectId, logicalBlock)

/-- `ChecksumTreeValue`, with the fields the data path uses. -/
structure ChecksumTreeValue where
  physicalBlock : Nat
  /-- `checksum_bytes`: the digest, as a number. -/
  checksumBytes : Nat
  /-- `generation`: the stamp of the write that made the content. -/
  generation : Nat
deriving DecidableEq

/-- The checksum tree, as its bindings. -/
abbrev Checksums := List (ChecksumTreeKey × ChecksumTreeValue)

/-- The blocks and trees of an image as a transaction sees them. -/
structure Volume (τ : Type) where
  /-- The blocks of the device under the transaction's own writes. -/
  blocks : Nat → Page
  /-- The block bitmap. -/
  bitmap : Allocator.Bitmap
  /-- The checksum tree, when `checksum_tree_root` is not zero. -/
  checksums : Option Checksums
  /-- The coverage tree, when `refcount_tree_root` is not zero. -/
  coverage : Option Integrity.Coverage
  /-- The extent trees of the inodes. -/
  spill : τ

variable {τ α : Type}

/-- A command on the extent trees. -/
def onSpill (command : Run τ α) : Run (Volume τ) α :=
  Run.focus Volume.spill (fun volume spill => { volume with spill := spill }) command

/-- The coverage tree pins a block. -/
def Volume.pinned (volume : Volume τ) (block : Nat) : Bool :=
  match volume.coverage with
  | some runs => Integrity.isPinned runs block
  | none => false

/-- An extent tree as a whole. -/
structure SpillTree where
  /-- The stamp of the root node. -/
  generation : Nat
  /-- Its bindings in key order. -/
  bindings : List (Nat × ExtentTreeValue)

/-- The extent trees of an image as whole trees, by root block. Under a barrier a change of a
tree whose root is not younger goes to a copy under a fresh root, which the transaction's root
cell then names. -/
structure SpillStore where
  /-- The tree at a root block. -/
  trees : Nat → Option SpillTree
  /-- The transaction's root cell of the extent trees, one for all of them. -/
  rootCell : Option Nat
  /-- The root block of the handle opened last. -/
  handle : Nat
  nodeGen : Nat
  /-- `effective_cow_barrier`. -/
  cowBarrier : Nat
  /-- The blocks the allocator returns for roots, in order. -/
  allocator : Nat → Nat
  /-- How many it has returned. -/
  allocations : Nat

namespace SpillStore

/-- `view_root` of a handle over a root block. -/
def viewRoot (store : SpillStore) (root : Nat) : Nat := store.rootCell.getD root

/-- The bindings a handle over a root block reads. -/
def read (store : SpillStore) (root : Nat) : Option (List (Nat × ExtentTreeValue)) :=
  (store.trees (store.viewRoot root)).map SpillTree.bindings

/-- A tree is put at a root block, with a fresh stamp. -/
def put (store : SpillStore) (root : Nat) (bindings : List (Nat × ExtentTreeValue)) :
    SpillStore :=
  { store with
    trees := Function.update store.trees root (some ⟨store.nodeGen + 1, bindings⟩)
    nodeGen := store.nodeGen + 1
    handle := root }

/-- Change the bindings of the tree the handle is over. -/
def change (how : List (Nat × ExtentTreeValue) → List (Nat × ExtentTreeValue)) :
    Run SpillStore PUnit := fun store =>
  let root := store.viewRoot store.handle
  match store.trees root with
  | none => (none, store)
  | some tree =>
    if 0 < store.cowBarrier ∧ tree.generation ≤ store.cowBarrier then
      let copy := store.allocator store.allocations
      (some ⟨⟩, { store.put copy (how tree.bindings) with
        allocations := store.allocations + 1
        rootCell := some copy })
    else (some ⟨⟩, store.put root (how tree.bindings))

/-- Read the tree the handle is over. -/
def reading (query : List (Nat × ExtentTreeValue) → α) : Run SpillStore α := fun store =>
  ((store.read store.handle).map query, store)

/-- The operations on whole trees. -/
def operations : ExtentTrees SpillStore where
  create := fun store =>
    let root := store.allocator store.allocations
    (some root, { store with
      trees := Function.update store.trees root (some ⟨0, []⟩)
      allocations := store.allocations + 1 })
  new := fun root => Run.modify fun store => { store with handle := root }
  lookupFloor := fun key => reading (Assoc.floor key)
  insert := fun key value => change (Assoc.insert key value)
  removeWithAlloc := fun key => do
    let bound ← reading fun bindings => (Assoc.find key bindings).isSome
    change (Assoc.erase key)
    pure bound
  iterExtents := reading id
  nodeGenStamp := fun store =>
    (some (store.nodeGen + 1), { store with nodeGen := store.nodeGen + 1 })
  cowBarrier := SpillStore.cowBarrier

end SpillStore

/-- The extents of an inode that a reader in this transaction finds: in the inode, then in its
tree. -/
def Inode.allExtents (inode : Inode) (store : SpillStore) : List Extent :=
  inode.extents ++
    if inode.spillExtentRoot = 0 then []
    else ((store.read inode.spillExtentRoot).getD []).map spilledExtent

/-- An inode maps a physical block, at some logical block of some extent. -/
def Inode.Maps (inode : Inode) (store : SpillStore) (physicalBlock : Nat) : Prop :=
  ∃ extent ∈ inode.allExtents store, extent.Maps physicalBlock

instance (inode : Inode) (store : SpillStore) (physicalBlock : Nat) :
    Decidable (inode.Maps store physicalBlock) :=
  inferInstanceAs (Decidable (∃ extent ∈ _, _))

end LionFS.File
