import LionFS.File.Volume

/-!
# Extents of an inode

`get_physical_block`, `add_extent` and `remap_block` of `file::writer`. A new
extent is merged with an adjacent one in the inode, or takes a free slot there,
or goes to the inode's extent tree. Redirecting one block of a longer extent
takes the extent apart; in the inode all extents are then added anew.
-/
namespace LionFS.File
variable {τ : Type} (trees : ExtentTrees τ)

/-- The block of the floor of an extent tree, when the floor covers the logical block, else a
hole. -/
def spilledBlock (logicalBlock : Nat) : Option (Nat × ExtentTreeValue) → Nat
  | some binding =>
    if logicalBlock < (spilledExtent binding).logicalEnd then
      (spilledExtent binding).block logicalBlock
    else 0
  | none => 0

variable (inode : Inode)

/-- `get_physical_block`: zero for a hole. -/
def getPhysicalBlock (logicalBlock : Nat) : Run τ Nat :=
  match inode.extents.find? fun extent => decide (extent.Covers logicalBlock) with
  | some extent => pure (extent.block logicalBlock)
  | none =>
    if inode.spillExtentRoot = 0 then pure 0
    else do
      trees.new inode.spillExtentRoot
      let floor ← trees.lookupFloor logicalBlock
      pure (spilledBlock logicalBlock floor)

/-- The second extent continues the first, logically and physically. -/
def Extent.Adjoins (first second : Extent) : Prop :=
  first.logicalEnd = second.logicalStart ∧ first.physicalEnd = second.physicalStart

instance (first second : Extent) : Decidable (first.Adjoins second) :=
  inferInstanceAs (Decidable (_ ∧ _))

/-- Two adjoining extents as one. -/
def Extent.join (first second : Extent) : Extent :=
  ⟨first.logicalStart, first.physicalStart, first.length + second.length⟩

/-- The merge loop of `add_extent`: the first inline extent that adjoins takes the new one. -/
def mergeInline (added : Extent) : List Extent → Option (List Extent)
  | [] => none
  | extent :: rest =>
    if extent.Adjoins added then some (extent.join added :: rest)
    else if added.Adjoins extent then some (added.join extent :: rest)
    else (mergeInline added rest).map (extent :: ·)

/-- The inode with an extent tree, made on first use. -/
def ensureTree : Run τ Inode :=
  if inode.spillExtentRoot = 0 then do
    let root ← trees.create
    pure { inode with spillExtentRoot := root }
  else pure inode

/-- `ExtentTree::insert`. -/
def insertSpilled (extent : Extent) : Run τ PUnit :=
  trees.insert extent.logicalStart ⟨extent.physicalStart, extent.length⟩

/-- What `add_extent` inserts into the tree: the floor merged with the new extent, or the new
extent. -/
def mergeFloor (added : Extent) : Option (Nat × ExtentTreeValue) → Extent
  | some binding =>
    if (spilledExtent binding).Adjoins added then (spilledExtent binding).join added else added
  | none => added

/-- The spill half of `add_extent`. -/
def spillExtent (added : Extent) : Run τ Inode := do
  let inode ← ensureTree trees inode
  trees.new inode.spillExtentRoot
  let floor ← trees.lookupFloor added.logicalStart
  insertSpilled trees (mergeFloor added floor)
  pure inode

/-- `add_extent`. -/
def addExtent (added : Extent) : Run τ Inode :=
  match mergeInline added inode.extents with
  | some extents => pure { inode with extents := extents }
  | none =>
    if inode.extents.length < maxInlineExtents then
      pure { inode with extents := inode.extents ++ [added] }
    else spillExtent trees inode added

/-- `add_extent` of one extent after another. -/
def addExtents (inode : Inode) : List Extent → Run τ Inode
  | [] => pure inode
  | added :: rest => do
    let inode ← addExtent trees inode added
    addExtents inode rest

/-- The first inline extent that covers a block, with those before and behind it. -/
def takeCovering (logicalBlock : Nat) : List Extent → Option (List Extent × Extent × List Extent)
  | [] => none
  | extent :: rest =>
    if extent.Covers logicalBlock then some ([], extent, rest)
    else
      (takeCovering logicalBlock rest).map fun found =>
        (extent :: found.1, found.2.1, found.2.2)

/-- The pieces of an extent one of whose blocks moves. -/
def Extent.around (extent : Extent) (logicalBlock newPhysical : Nat) : List Extent :=
  let off := logicalBlock - extent.logicalStart
  (if 0 < off then [⟨extent.logicalStart, extent.physicalStart, off⟩] else []) ++
  [⟨logicalBlock, newPhysical, 1⟩] ++
  (if off + 1 < extent.length then
    [⟨logicalBlock + 1, extent.physicalStart + off + 1, extent.length - off - 1⟩]
  else [])

/-- The spill half of `remap_block`. -/
def remapSpilled (logicalBlock newPhysical : Nat) : Run τ Inode :=
  if inode.spillExtentRoot = 0 then Run.fail
  else do
    trees.new inode.spillExtentRoot
    let floor ← trees.lookupFloor logicalBlock
    match floor with
    | none => Run.fail
    | some binding =>
      if logicalBlock < (spilledExtent binding).logicalEnd then do
        let _ ← trees.removeWithAlloc binding.1
        Run.each ((spilledExtent binding).around logicalBlock newPhysical) (insertSpilled trees)
        pure inode
      else Run.fail

/-- `remap_block`. -/
def remapBlock (logicalBlock newPhysical : Nat) : Run τ Inode :=
  match takeCovering logicalBlock inode.extents with
  | some (before, extent, behind) =>
    if extent.length = 1 then
      pure { inode with
        extents := before ++ { extent with physicalStart := newPhysical } :: behind }
    else
      addExtents trees { inode with extents := [] }
        (before ++ behind ++ extent.around logicalBlock newPhysical)
  | none => remapSpilled trees inode logicalBlock newPhysical

end LionFS.File
