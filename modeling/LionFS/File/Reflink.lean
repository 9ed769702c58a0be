import LionFS.File.Runs

/-!
# Cloning a file

`reflink_file_in_ctx` of `fs::reflink` maps the blocks of a source file into an
empty destination and pins them. The destination gets the extents of the source,
those of its extent tree in a tree of its own. The checksum records of the
destination are not touched: those that an earlier content of its inode left
behind now stand for blocks they were not made for.
-/
namespace LionFS.File
open Run List SpillStore Allocator
open SpillStore (operations)

/-- An extent that has blocks to share. -/
def Extent.HasBlocks (extent : Extent) : Prop := extent.physicalStart ≠ 0 ∧ 0 < extent.length

instance (extent : Extent) : Decidable extent.HasBlocks := inferInstanceAs (Decidable (_ ∧ _))

/-- `shared_blocks`. -/
def sharedBlocks (extents : List Extent) : Nat :=
  ((extents.filter fun extent => decide extent.HasBlocks).map Extent.length).sum

/-- The coverage tree is made on its first use. -/
def initCoverage : Run (Work SpillStore) PUnit := do
  let work ← get
  match work.disk.coverage with
  | some _ => pure ⟨⟩
  | none => do
    growTrees allocateExtentsMeta
    modify fun work => { work with disk := { work.disk with coverage := some [] } }

/-- The blocks of an extent are covered once more. -/
def Work.pinBlocks (work : Work SpillStore) (extent : Extent) : Work SpillStore :=
  { work with disk := { work.disk with
    coverage := work.disk.coverage.map fun runs =>
      Integrity.pinRange runs extent.physicalStart extent.length } }

/-- `pin_range` of the blocks of an extent. -/
def pinExtent (extent : Extent) : Run (Work SpillStore) PUnit :=
  if extent.HasBlocks then do
    growTrees allocateExtentsMeta
    modify fun work => work.pinBlocks extent
  else pure ⟨⟩

/-- A spilled extent of the source goes to the tree of the destination. -/
def cloneBinding (binding : Nat × ExtentTreeValue) : Run (Work SpillStore) PUnit := do
  growTrees allocateExtentsMeta
  onTrees (operations.insert binding.1 binding.2)
  pinExtent (spilledExtent binding)

/-- An empty tree for the destination, over which a handle is opened, and the bindings of the
source's tree. -/
def startClone (sourceRoot : Nat) : Run SpillStore (List (Nat × ExtentTreeValue)) := do
  let newRoot ← operations.create
  operations.new sourceRoot
  let bindings ← operations.iterExtents
  operations.new newRoot
  pure bindings

/-- A tree for the destination with the spilled extents of the source. It returns its root, as the
handle has it in the end, and the extents. -/
def cloneTree (sourceRoot : Nat) : Run (Work SpillStore) (Nat × List Extent) :=
  if sourceRoot = 0 then pure (0, [])
  else do
    growTrees allocateExtentsMeta
    let bindings ← onTrees (startClone sourceRoot)
    each bindings cloneBinding
    let work ← get
    pure (work.disk.spill.handle, bindings.map spilledExtent)

/-- `reflink_file_in_ctx`: the destination is the inode of the call. The registry of clones and the
inode tree take node blocks at most. -/
def reflinkFile (src : Inode) : Run (Work SpillStore) Nat := do
  let work ← get
  let dst := work.inode
  if src.compressionAlgo ≠ 0 ∨ dst.compressionAlgo ≠ 0 then fail
  else if dst.size ≠ 0 ∨ dst.extents ≠ [] ∨ dst.spillExtentRoot ≠ 0 then fail
  else if src.size = 0 then do
    growTrees allocateExtents
    pure 0
  else do
    initCoverage
    growTrees allocateExtentsMeta
    each src.extents pinExtent
    let (newRoot, spilled) ← cloneTree src.spillExtentRoot
    growTrees allocateExtentsMeta
    growTrees allocateExtents
    modify fun work => { work with
      inode := { dst with size := src.size, extents := src.extents, spillExtentRoot := newRoot } }
    pure (sharedBlocks (src.extents ++ spilled))

/-- What pinning shared blocks keeps. -/
structure Work.Shares (work next : Work SpillStore) : Prop where
  grows : Allocator.Grows work.disk.bitmap next.disk.bitmap
  pins : ∀ block, work.disk.pinned block = true → next.disk.pinned block = true
  covered : work.Covered → next.Covered
  tree : work.disk.coverage.isSome → next.disk.coverage.isSome
  inode : next.inode = work.inode
  blocks : next.disk.blocks = work.disk.blocks
  checksums : next.disk.checksums = work.disk.checksums
  dedupe : next.disk.dedupe = work.disk.dedupe

/-- What cloning a file leaves: the destination has the extents of the source, all pinned, and of
the trees only its own is new. -/
structure Cloned (src : Inode) (work next : Work SpillStore) : Prop where
  grows : Allocator.Grows work.disk.bitmap next.disk.bitmap
  pins : ∀ block, work.disk.pinned block = true → next.disk.pinned block = true
  covered : work.Covered → next.Covered
  blocks : next.disk.blocks = work.disk.blocks
  checksums : next.disk.checksums = work.disk.checksums
  dedupe : next.disk.dedupe = work.disk.dedupe
  kept : SpillStore.Kept next.inode.spillExtentRoot work.disk.spill next.disk.spill
  root : next.inode.spillExtentRoot = work.inode.spillExtentRoot ∨
    work.inode.spillExtentRoot = 0 ∧ work.disk.spill.trees next.inode.spillExtentRoot = none
  /-- The size is that of the source, the other fields stay. -/
  fields : next.inode.ino = work.inode.ino ∧ next.inode.size = src.size ∧
    next.inode.compressionAlgo = work.inode.compressionAlgo
  sound : next.inode.Sound next.disk.spill
  extents : next.inode.allExtents next.disk.spill = src.allExtents work.disk.spill
  pinned : ∀ logical physical, next.Maps logical physical → next.disk.pinned physical = true

/-- What cloning the extent tree of a source leaves: a tree with the same bindings, if there was
one, whose blocks are pinned. -/
structure ClonedTree (src : Inode) (work : Work SpillStore) (root : Nat) (next : Work SpillStore) :
    Prop where
  /-- What pinning keeps. -/
  shares : work.Shares next
  /-- Other trees. -/
  kept : SpillStore.Kept root work.disk.spill next.disk.spill
  /-- There is a tree when there was one. -/
  rooted : root = 0 ↔ src.spillExtentRoot = 0
  /-- The tree is new. -/
  made : root ≠ 0 → work.disk.spill.trees root = none
  /-- Its bindings. -/
  read : root ≠ 0 → next.disk.spill.read root = work.disk.spill.read src.spillExtentRoot
  /-- Its blocks are pinned. -/
  pinned : root ≠ 0 → ∀ bindings, work.disk.spill.read src.spillExtentRoot = some bindings →
    ∀ binding ∈ bindings, 0 < binding.2.physicalStart →
      ∀ block, (spilledExtent binding).Maps block →
      next.disk.pinned block = true

section Cloning
variable {outside : Outside SpillStore} {foreign : Nat → Prop} {work mid next : Work SpillStore}
variable (work)

theorem Work.Shares.refl : work.Shares work :=
  ⟨.refl _, fun _ pinned => pinned, fun formed => formed, fun there => there, rfl, rfl, rfl, rfl⟩

theorem Work.Shares.trans {first second third : Work SpillStore} (one : first.Shares second)
    (two : second.Shares third) : first.Shares third := by
  constructor
  · exact one.grows.trans two.grows
  · exact fun block pinned => two.pins block (one.pins block pinned)
  · exact fun formed => two.covered (one.covered formed)
  · exact fun there => two.tree (one.tree there)
  · exact two.inode.trans one.inode
  · exact two.blocks.trans one.blocks
  · exact two.checksums.trans one.checksums
  · exact two.dedupe.trans one.dedupe

theorem Work.Shares.spill (spill : SpillStore) :
    work.Shares { work with disk := { work.disk with spill := spill } } :=
  ⟨.refl _, fun _ pinned => pinned, fun formed => ⟨formed.tree, formed.disjoint⟩,
    fun there => there, rfl, rfl, rfl, rfl⟩

theorem growTrees_shares {allocate : Nat → Run Allocator.Bitmap Nat}
    (allocates : ∀ count, Allocator.Allocates (allocate count) count) (work : Work SpillStore) :
    wp (growTrees allocate) (fun _ next => work.Shares next ∧ next.disk.spill = work.disk.spill)
      anyhow work := by
  refine wp_mono (growTrees_spec allocates work) ?_ fun _ _ => trivial
  rintro _ _ ⟨bitmap, insertions, rfl, grows, -⟩
  exact ⟨⟨grows, fun _ pinned => pinned, fun formed => ⟨formed.tree, formed.disjoint⟩,
    fun there => there, rfl, rfl, rfl, rfl⟩, rfl⟩

/-- There is a coverage tree after its first use. -/
theorem initCoverage_spec : wp initCoverage
      (fun _ next => work.Shares next ∧ next.disk.spill = work.disk.spill ∧
        next.disk.coverage.isSome) anyhow work := by
  unfold initCoverage
  rw [wp_bind, wp_get]
  cases here : work.disk.coverage with
  | some runs => exact ⟨.refl work, rfl, by rw [here]; rfl⟩
  | none =>
    dsimp only
    refine wp_seq (growTrees_shares allocateExtentsMeta_allocates work) ?_
    rintro _ mid ⟨shares, same⟩
    rw [wp_modify]
    have unpinned : ∀ block, work.disk.pinned block ≠ true := by
      intro block pinned
      unfold Volume.pinned at pinned
      rw [here] at pinned
      cases pinned
    refine ⟨⟨shares.grows, fun block pinned => absurd pinned (unpinned block),
      fun _ => ⟨fun _ => rfl,
      ?_⟩, fun _ => rfl, shares.inode, shares.blocks, shares.checksums, shares.dedupe⟩, same, rfl⟩
    intro runs is_empty
    cases is_empty
    exact ⟨.nil, fun _ mem => (nomatch mem), .nil⟩

theorem Work.pinBlocks_shares (covered : work.Covered) (there : work.disk.coverage.isSome)
    (extent : Extent) : work.Shares (work.pinBlocks extent) ∧
      ∀ block, extent.Maps block → (work.pinBlocks extent).disk.pinned block = true := by
  obtain ⟨runs, here⟩ := Option.isSome_iff_exists.mp there
  have disj := covered.disjoint runs here
  have coverage : (work.pinBlocks extent).disk.coverage =
      some (Integrity.pinRange runs extent.physicalStart extent.length) := by
    show work.disk.coverage.map _ = _
    rw [here]
    rfl
  have pinned_iff : ∀ block, (work.pinBlocks extent).disk.pinned block = true ↔
      work.disk.pinned block = true ∨ extent.Maps block := by
    intro block
    unfold Volume.pinned
    rw [coverage, here]
    exact disj.isPinned_pinRange _ _ block
  refine ⟨⟨.refl _, fun block pinned => (pinned_iff block).mpr (.inl pinned), fun _ => ⟨fun _ => ?_,
    ?_⟩, fun _ => ?_, rfl, rfl, rfl, rfl⟩, fun block maps => (pinned_iff block).mpr (.inr maps)⟩
  · rw [coverage]
    rfl
  · intro others is_others
    rw [coverage] at is_others
    cases is_others
    exact (disj.pinRange _ _).1
  · rw [coverage]
    rfl

variable {work}

theorem pinExtent_spec (covered : work.Covered) (there : work.disk.coverage.isSome)
    (extent : Extent) :
    wp (pinExtent extent)
      (fun _ next => work.Shares next ∧ next.disk.spill = work.disk.spill ∧
        (0 < extent.physicalStart → ∀ block, extent.Maps block → next.disk.pinned block = true))
      anyhow work := by
  unfold pinExtent
  split_ifs with has_blocks
  · refine wp_seq (growTrees_shares allocateExtentsMeta_allocates work) ?_
    rintro _ mid ⟨shares, same⟩
    rw [wp_modify]
    obtain ⟨pinning, pinned⟩ := mid.pinBlocks_shares (shares.covered covered) (shares.tree there)
      extent
    exact ⟨shares.trans pinning, same, fun _ => pinned⟩
  · refine ⟨.refl work, rfl, fun nonzero block maps => absurd ⟨nonzero.ne', ?_⟩ has_blocks⟩
    unfold Extent.Maps Extent.physicalEnd at maps
    omega

theorem pinExtents_spec (covered : work.Covered) (there : work.disk.coverage.isSome)
    (extents : List Extent) :
    wp (each extents pinExtent)
      (fun _ next => work.Shares next ∧ next.disk.spill = work.disk.spill ∧
        ∀ extent ∈ extents, 0 < extent.physicalStart → ∀ block, extent.Maps block →
          next.disk.pinned block = true)
      anyhow work := by
  induction extents generalizing work with
  | nil => exact ⟨.refl work, rfl, fun _ mem => nomatch mem⟩
  | cons first rest ih =>
    unfold each
    refine wp_seq (pinExtent_spec covered there first) ?_
    rintro _ mid ⟨shares, same, pinned⟩
    refine wp_imp (ih (shares.covered covered) (shares.tree there)) ?_
    rintro _ next ⟨later, same', all⟩
    refine ⟨shares.trans later, same'.trans same, forall_mem_cons.mpr ⟨?_, all⟩⟩
    exact fun nonzero block maps => later.pins block (pinned nonzero block maps)

/-- The loop over the spilled extents of the source. -/
theorem cloneBindings_spec {root : Nat} (rooted : root ≠ 0)
    {done rest : List (Nat × ExtentTreeValue)} (views : Views root done work.disk.spill)
    (ordered : Assoc.Ordered (done ++ rest)) (covered : work.Covered)
    (there : work.disk.coverage.isSome) :
    wp (each rest cloneBinding)
      (fun _ next => work.Shares next ∧ Views root (done ++ rest) next.disk.spill ∧
        Settled root work.disk.spill next.disk.spill ∧
        ∀ binding ∈ rest, 0 < binding.2.physicalStart →
          ∀ block, (spilledExtent binding).Maps block →
          next.disk.pinned block = true)
      anyhow work := by
  induction rest generalizing work done with
  | nil =>
    rw [append_nil]
    exact ⟨.refl work, views, .handle _ _ work.disk.spill.handle, nofun⟩
  | cons first rest ih =>
    have one : wp (cloneBinding first)
        (fun _ next => work.Shares next ∧ Views root (done ++ [first]) next.disk.spill ∧
          Settled root work.disk.spill next.disk.spill ∧
          (0 < first.2.physicalStart → ∀ block, (spilledExtent first).Maps block →
            next.disk.pinned block = true))
        anyhow work := by
      unfold cloneBinding
      refine wp_seq (growTrees_shares allocateExtentsMeta_allocates work) ?_
      rintro _ grown ⟨shares, same⟩
      rw [← same] at views
      rw [wp_bind, onTrees, wp_focus]
      refine wp_total (views.change rooted _) ?_
      rintro _ spill ⟨inserted, settled⟩
      rw [Assoc.insert_eq_append _ fun binding mem =>
        (pairwise_append.mp ordered).2.2 binding mem first mem_cons_self] at inserted
      have shares' := shares.trans (Work.Shares.spill grown spill)
      refine wp_imp (pinExtent_spec (shares'.covered covered) (shares'.tree there)
        (spilledExtent first)) ?_
      rintro _ next ⟨pinning, same_spill, pinned⟩
      refine ⟨shares'.trans pinning, ?_, ?_, pinned⟩
      · rw [same_spill]
        exact inserted
      · rw [same_spill, ← same]
        exact settled
    unfold each
    refine wp_seq one ?_
    rintro _ mid ⟨shares, views_mid, settled, pinned⟩
    rw [append_cons] at ordered
    rw [append_cons]
    refine wp_imp (ih views_mid ordered (shares.covered covered) (shares.tree there)) ?_
    rintro _ next ⟨later_shares, views_next, later, all⟩
    refine ⟨shares.trans later_shares, views_next, settled.trans later (.inl rfl),
      forall_mem_cons.mpr ⟨fun nonzero block maps => ?_, all⟩⟩
    exact later_shares.pins block (pinned nonzero block maps)

theorem startClone_spec {store : SpillStore} (still : store.rootCell = none) (fresh : store.Fresh)
    {sourceRoot : Nat} {bindings : List (Nat × ExtentTreeValue)}
    (source_read : store.read sourceRoot = some bindings) :
    wp (startClone sourceRoot)
      (fun found next => found = bindings ∧ ∃ root, root ≠ 0 ∧ store.trees root = none ∧
        SpillStore.Kept root store next ∧ SpillStore.Open root [] next)
      never store := by
  unfold startClone
  refine wp_seq (create_spec still fresh) ?_
  rintro root made ⟨rooted, absent, kept, found⟩
  rw [SpillStore.read, viewRoot_of_still still] at source_read
  have apart : sourceRoot ≠ root := by
    rintro rfl
    rw [absent] at source_read
    cases source_read
  have source_open : SpillStore.Open sourceRoot bindings { made with handle := sourceRoot } := by
    refine ⟨kept.still, rfl, ?_⟩
    show made.read sourceRoot = _
    rw [SpillStore.read, viewRoot_of_still kept.still, kept.others sourceRoot (.inl apart),
      source_read]
  have iterated : operations.iterExtents { made with handle := sourceRoot } =
      (some bindings, { made with handle := sourceRoot }) := source_open.views.reading id
  rw [wp_bind]
  show wp (_ >>= _) _ _ { made with handle := sourceRoot }
  rw [wp_bind, wp_of_eq iterated, wp_bind]
  refine ⟨rfl, root, rooted, absent, kept.trans (.handle kept.still root root) (.inl rfl),
    kept.still, rfl, ?_⟩
  show made.read root = _
  rw [SpillStore.read, viewRoot_of_still kept.still, found]
  rfl

variable {src : Inode}

theorem cloneTree_spec (still : work.disk.spill.rootCell = none) (fresh : work.disk.spill.Fresh)
    (sound : src.Sound work.disk.spill) (covered : work.Covered)
    (there : work.disk.coverage.isSome) :
    wp (cloneTree src.spillExtentRoot)
      (fun result next => next.Moved ∨ ClonedTree src work result.1 next) anyhow work := by
  unfold cloneTree
  split_ifs with rootless
  · exact .inr ⟨.refl work, .refl still _, ⟨fun _ => rootless, fun _ => rfl⟩,
      absurd rfl, absurd rfl,
      absurd rfl⟩
  · obtain ⟨bindings, source_read, ordered⟩ := sound.tree rootless
    refine wp_seq (growTrees_shares allocateExtentsMeta_allocates work) ?_
    rintro _ grown ⟨shares, same⟩
    rw [wp_bind, onTrees, wp_focus, same]
    refine wp_total (startClone_spec still fresh source_read) ?_
    rintro _ spill ⟨rfl, root, rooted, absent, kept, opened⟩
    have shares' := shares.trans (Work.Shares.spill grown spill)
    refine wp_seq (cloneBindings_spec rooted opened.views (by rwa [nil_append])
      (shares'.covered covered) (shares'.tree there)) ?_
    rintro _ next ⟨later, views, moved | ⟨-, later_kept⟩, pinned⟩
    · exact .inl moved
    rw [nil_append] at views
    have handle := views.handle
    rw [viewRoot_of_still later_kept.still, viewRoot_of_still later_kept.still] at handle
    rw [wp_bind, wp_get, handle]
    refine .inr ⟨shares'.trans later, kept.trans later_kept (.inl rfl),
      ⟨fun zero => absurd zero rooted, fun zero => absurd zero rootless⟩, fun _ => absent,
      fun _ => views.read.trans source_read.symm, fun _ others other_read => ?_⟩
    cases source_read.symm.trans other_read
    exact pinned

theorem cloned_of_tree (sound : src.Sound work.disk.spill) (empty : work.inode.spillExtentRoot = 0)
    {root : Nat} {pinned cloned : Work SpillStore} (pinning : work.Shares pinned)
    (pinned_spill : pinned.disk.spill = work.disk.spill)
    (inline : ∀ extent ∈ src.extents, 0 < extent.physicalStart → ∀ block, extent.Maps block →
      pinned.disk.pinned block = true) (tree : ClonedTree src pinned root cloned)
    (later : cloned.Shares next) (same : next.disk.spill = cloned.disk.spill) :
    Cloned src work { next with inode := { work.inode with
      size := src.size, extents := src.extents, spillExtentRoot := root } } := by
  have all := (pinning.trans tree.shares).trans later
  have extents : Inode.allExtents { work.inode with
      size := src.size, extents := src.extents, spillExtentRoot := root } next.disk.spill =
        src.allExtents work.disk.spill := by
    by_cases rootless : src.spillExtentRoot = 0
    · rw [Inode.allExtents_of_rootless rootless, Inode.allExtents_of_rootless
        (tree.rooted.mpr rootless)]
    · have rooted : root ≠ 0 := fun zero => rootless (tree.rooted.mp zero)
      obtain ⟨bindings, read, -⟩ := sound.tree rootless
      have read_next : next.disk.spill.read root = some bindings := by
        rw [same, tree.read rooted, pinned_spill, read]
      rw [Inode.allExtents_of_read rootless read, Inode.allExtents_of_read rooted read_next]
  constructor
  · exact all.grows
  · exact all.pins
  · exact fun formed => ⟨(all.covered formed).tree, (all.covered formed).disjoint⟩
  · exact all.blocks
  · exact all.checksums
  · exact all.dedupe
  · show SpillStore.Kept root work.disk.spill next.disk.spill
    rw [same, ← pinned_spill]
    exact tree.kept
  · by_cases zero : root = 0
    · exact .inl (zero.trans empty.symm)
    · exact .inr ⟨empty, pinned_spill ▸ tree.made zero⟩
  · exact ⟨rfl, rfl, rfl⟩
  · refine ⟨extents.symm ▸ sound.tidy, sound.room, fun rooted => ?_⟩
    obtain ⟨bindings, read, ordered⟩ := sound.tree fun zero => rooted (tree.rooted.mpr zero)
    refine ⟨bindings, ?_, ordered⟩
    show next.disk.spill.read root = _
    rw [same, tree.read rooted, pinned_spill, read]
  · exact extents
  · intro lba pba maps
    have source : MapsTo (src.allExtents work.disk.spill) lba pba := extents ▸ maps
    obtain ⟨extent, mem, sends⟩ := source
    have nonzero := sound.tidy.nonzero extent mem
    show next.disk.pinned pba = true
    by_cases rootless : src.spillExtentRoot = 0
    · rw [Inode.allExtents_of_rootless rootless] at mem
      exact (tree.shares.trans later).pins pba (inline extent mem nonzero pba sends.maps)
    · obtain ⟨bindings, read, -⟩ := sound.tree rootless
      rw [Inode.allExtents_of_read rootless read] at mem
      rcases mem_append.mp mem with among | spilled
      · exact (tree.shares.trans later).pins pba (inline extent among nonzero pba sends.maps)
      · obtain ⟨binding, bound, rfl⟩ := mem_map.mp spilled
        refine later.pins pba (tree.pinned (fun zero => rootless (tree.rooted.mp zero)) bindings
          (by rw [pinned_spill, read]) binding bound nonzero pba sends.maps)

/-- `reflink_file_in_ctx` clones the source, or does nothing when the source is empty. -/
theorem reflinkFile_spec (owned : work.Owned foreign) (sound : src.Sound work.disk.spill) :
    wp (reflinkFile src)
      (fun _ next => next.Moved ∨ (work.inode.size = 0 ∧ work.inode.extents = [] ∧
        work.inode.spillExtentRoot = 0) ∧
        ((src.size = 0 ∧ work.Shares next ∧ next.disk.spill = work.disk.spill) ∨
          Cloned src work next))
      anyhow work := by
  unfold reflinkFile
  rw [wp_bind, wp_get]
  dsimp only
  split_ifs with compressed nonempty empty_source
  · trivial
  · trivial
  · obtain ⟨size, extents, root⟩ : work.inode.size = 0 ∧ work.inode.extents = [] ∧
        work.inode.spillExtentRoot = 0 := by
      simpa only [not_or, not_not, ne_eq] using nonempty
    refine wp_seq (growTrees_shares allocateExtents_allocates work) ?_
    exact fun _ next done => .inr ⟨⟨size, extents, root⟩, .inl ⟨empty_source, done⟩⟩
  · obtain ⟨size, extents, root⟩ : work.inode.size = 0 ∧ work.inode.extents = [] ∧
        work.inode.spillExtentRoot = 0 := by
      simpa only [not_or, not_not, ne_eq] using nonempty
    refine wp_seq (initCoverage_spec work) ?_
    rintro _ first ⟨shares, same, there⟩
    refine wp_seq (growTrees_shares allocateExtentsMeta_allocates first) ?_
    rintro _ second ⟨shares', same'⟩
    have both := shares.trans shares'
    have both_same := same'.trans same
    refine wp_seq (pinExtents_spec (both.covered owned.covered) (shares'.tree there) src.extents) ?_
    rintro _ third ⟨shares'', same'', inline⟩
    have pinning := both.trans shares''
    have pinned_spill := same''.trans both_same
    refine wp_bind_or (cloneTree_spec (pinned_spill ▸ owned.still) (pinned_spill ▸ owned.fresh)
      (pinned_spill ▸ sound) (pinning.covered owned.covered)
      (shares''.tree (shares'.tree there))) ?_ ?_
    · rintro ⟨newRoot, spilled⟩ cloned tree
      dsimp only
      refine wp_seq (growTrees_shares allocateExtentsMeta_allocates cloned) ?_
      rintro _ fourth ⟨later, later_same⟩
      refine wp_seq (growTrees_shares allocateExtents_allocates fourth) ?_
      rintro _ fifth ⟨later', later_same'⟩
      rw [wp_bind, wp_modify]
      exact .inr ⟨⟨size, extents, root⟩, .inr (cloned_of_tree sound root pinning pinned_spill inline
        tree (later.trans later') (later_same'.trans later_same))⟩
    · intro result cloned moved
      refine ((keeps_growMeta Work.stable_moved).bind fun _ => (keeps_growTrees Work.stable_moved
        allocateExtents_allocates).bind fun _ => ?_) cloned moved
      refine Keeps.bind (keeps_beside Work.stable_moved fun _ => ?_) keeps_pure
      exact ⟨rfl, rfl⟩

end Cloning
end LionFS.File
