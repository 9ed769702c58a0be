import LionFS.File.Work
import LionFS.File.Reshape

/-!
# Truncation and the blocks it frees

`free_range_birth_aware` and `truncate_file` of `file::writer`. A shrinking call
frees the blocks of the inode from the new end on: an extent behind the end as a
whole, the tail of the extent the end cuts. With a snapshot live the blocks of a
range are first grouped into the runs born after every snapshot. Each run is then
freed as a whole, unless the coverage tree pins all of it.
-/
namespace LionFS.File
open Run List SpillStore
open SpillStore (operations)
variable {τ : Type} (trees : ExtentTrees τ) (outside : Outside τ)

/-- `free_pinned_checked`: a run that is pinned as a whole is left alone. -/
def freePinnedChecked (run : Nat × Nat) : Run (Work τ) PUnit := modify fun work =>
  if work.disk.rangePinned run.1 run.2 then work
  else { work with disk :=
    { work.disk with bitmap := work.disk.bitmap.freeExtents run.1 run.2 } }

/-- The birth scan of `free_range_birth_aware` from the block `index` of a range on: the runs of
blocks born after the barrier, where `freeRun` is the run just before. -/
def birthScan (barrier : Nat) (birth : Nat → Nat) (range : Extent) :
    (fuel index : Nat) → (freeRun : Option (Nat × Nat)) → List (Nat × Nat)
  | 0, _, freeRun => freeRun.toList
  | fuel + 1, index, freeRun =>
    if barrier < birth (range.logicalStart + index) then
      birthScan barrier birth range fuel (index + 1) <| some <|
        match freeRun with
        | some (start, length) => (start, length + 1)
        | none => (range.physicalStart + index, 1)
    else freeRun.toList ++ birthScan barrier birth range fuel (index + 1) none

/-- The runs of a range that `free_range_birth_aware` hands to `free_pinned_checked`. -/
def Work.freeRuns (work : Work τ) (range : Extent) : List (Nat × Nat) :=
  let barrier := trees.cowBarrier work.disk.spill
  if barrier = 0 ∨ work.disk.checksums = none ∨ range.length = 0 then
    [(range.physicalStart, range.length)]
  else birthScan barrier (work.disk.birth work.inode.ino) range range.length 0 none

/-- `free_range_birth_aware`. -/
def freeRangeBirthAware (range : Extent) : Run (Work τ) PUnit := do
  let work ← get
  each (work.freeRuns trees range) freePinnedChecked

/-- The first blocks of an extent. -/
def Extent.keep (extent : Extent) (keepBlocks : Nat) : Extent :=
  { extent with length := keepBlocks }

/-- The blocks of an extent behind the first ones. -/
def Extent.drop (extent : Extent) (keepBlocks : Nat) : Extent :=
  ⟨extent.logicalStart + keepBlocks, extent.physicalStart + keepBlocks,
    extent.length - keepBlocks⟩

/-- The loop of `truncate_file` over the extents in the inode; it returns those that survive. -/
def truncateInline (newBlocks : Nat) : List Extent → Run (Work τ) (List Extent)
  | [] => pure []
  | extent :: rest =>
    if newBlocks ≤ extent.logicalStart then do
      freeRangeBirthAware trees extent
      truncateInline newBlocks rest
    else if newBlocks < extent.logicalEnd then do
      freeRangeBirthAware trees (extent.drop (newBlocks - extent.logicalStart))
      let surviving ← truncateInline newBlocks rest
      pure (extent.keep (newBlocks - extent.logicalStart) :: surviving)
    else do
      let surviving ← truncateInline newBlocks rest
      pure (extent :: surviving)

/-- The loop of `truncate_file` over the spilled extents. One that lies behind the end is freed
and stays in the tree. -/
def truncateSpilled (newBlocks : Nat) : List Extent → Run (Work τ) PUnit
  | [] => pure ⟨⟩
  | extent :: rest =>
    if newBlocks ≤ extent.logicalStart then do
      freeRangeBirthAware trees extent
      truncateSpilled newBlocks rest
    else if newBlocks < extent.logicalEnd then do
      freeRangeBirthAware trees (extent.drop (newBlocks - extent.logicalStart))
      growTrees Allocator.allocateExtents
      let _ ← onTrees (trees.removeWithAlloc extent.logicalStart)
      onTrees (insertSpilled trees (extent.keep (newBlocks - extent.logicalStart)))
      truncateSpilled newBlocks rest
    else truncateSpilled newBlocks rest

/-- The spill half of `truncate_file`. -/
def truncateTree (newBlocks root : Nat) : Run (Work τ) PUnit :=
  if root = 0 then pure ⟨⟩
  else do
    onTrees (trees.new root)
    let spilled ← onTrees trees.iterExtents
    truncateSpilled trees newBlocks (spilled.map spilledExtent)

/-- The blocks that a size takes. -/
def blocksFor (size : Nat) : Nat := (size + blockSize - 1) / blockSize

/-- `truncate_file`. -/
def truncateFile (newSize : Nat) : Run (Work τ) PUnit := do
  let work ← get
  if work.inode.compressionAlgo ≠ 0 then outside.truncateFileCluster newSize
  else if work.inode.size ≤ newSize then
    modify fun work => { work with inode := { work.inode with size := newSize } }
  else do
    let surviving ← truncateInline trees (blocksFor newSize) work.inode.extents
    truncateTree trees (blocksFor newSize) work.inode.spillExtentRoot
    modify fun work =>
      { work with inode := { work.inode with extents := surviving, size := newSize } }

/-- The part of an extent behind the new end. -/
def Extent.beyond (extent : Extent) (newBlocks : Nat) : List Extent :=
  if newBlocks ≤ extent.logicalStart then [extent]
  else if newBlocks < extent.logicalEnd then [extent.drop (newBlocks - extent.logicalStart)]
  else []

/-- The part of an extent before the new end. -/
def Extent.before (extent : Extent) (newBlocks : Nat) : List Extent :=
  if newBlocks ≤ extent.logicalStart then []
  else if newBlocks < extent.logicalEnd then [extent.keep (newBlocks - extent.logicalStart)]
  else [extent]

variable (work : Work τ)

/-- The runs of some extents behind the new end that are handed to `free_pinned_checked`. -/
def Work.runsBehind (newBlocks : Nat) (extents : List Extent) : List (Nat × Nat) :=
  extents.flatMap fun extent => (extent.beyond newBlocks).flatMap (work.freeRuns trees)

/-- The runs that shrinking to a size hands to `free_pinned_checked`, in order. -/
def Work.handed (work : Work SpillStore) (newSize : Nat) : List (Nat × Nat) :=
  work.runsBehind operations (blocksFor newSize)
    (work.inode.allExtents work.disk.spill)

/-- The bitmap once runs are freed that are not pinned as a whole. -/
def Volume.freedBits (volume : Volume τ) (runs : List (Nat × Nat)) : Allocator.Bitmap :=
  runs.foldl (fun bitmap run =>
    if volume.rangePinned run.1 run.2 then bitmap else bitmap.freeExtents run.1 run.2) volume.bitmap

/-- A call once runs are freed that are not pinned as a whole. -/
def Work.freed (runs : List (Nat × Nat)) : Work τ :=
  { work with disk := { work.disk with bitmap := work.disk.freedBits runs } }

/-- `free_pinned_checked` of a run frees a block. -/
def Work.Frees (run : Nat × Nat) (block : Nat) : Prop :=
  work.disk.rangePinned run.1 run.2 = false ∧ run.1 ≤ block ∧ block < run.1 + run.2

theorem each_freePinnedChecked (runs : List (Nat × Nat)) (work : Work τ) :
    each runs freePinnedChecked work = (some ⟨⟩, work.freed runs) := by
  induction runs generalizing work with
  | nil => rfl
  | cons run rest ih =>
    have first : freePinnedChecked run work = (some ⟨⟩, work.freed [run]) := by
      unfold freePinnedChecked Run.modify Work.freed Volume.freedBits
      rw [foldl_cons, foldl_nil]
      dsimp only
      split_ifs <;> rfl
    unfold each
    rw [bind_some first, ih]
    rfl

theorem freeRangeBirthAware_eq (range : Extent) (work : Work τ) :
    freeRangeBirthAware trees range work = (some ⟨⟩, work.freed (work.freeRuns trees range)) := by
  unfold freeRangeBirthAware
  rw [bind_some (show get work = (some work, work) from rfl)]
  exact each_freePinnedChecked _ _

theorem Work.freed_freed (first second : List (Nat × Nat)) :
    (work.freed first).freed second = work.freed (first ++ second) := by
  have bits : (work.freed first).disk.freedBits second = work.disk.freedBits (first ++ second) := by
    unfold Volume.freedBits
    rw [foldl_append]
    rfl
  show Work.mk _ _ = Work.mk _ _
  rw [bits]
  rfl

/-- The loop over the inline extents frees what lies behind the end and keeps the rest. -/
theorem truncateInline_eq (newBlocks : Nat) (extents : List Extent) (work : Work τ) :
    truncateInline trees newBlocks extents work =
      (some (extents.flatMap (Extent.before · newBlocks)),
        work.freed (work.runsBehind trees newBlocks extents)) := by
  induction extents generalizing work with
  | nil => rfl
  | cons extent rest ih =>
    have later : ∀ runs, (work.freed runs).runsBehind trees newBlocks rest =
        work.runsBehind trees newBlocks rest := fun runs => rfl
    unfold truncateInline Work.runsBehind
    rw [flatMap_cons, flatMap_cons, Extent.beyond, Extent.before]
    split_ifs with behind cut
    · rw [bind_some (freeRangeBirthAware_eq trees _ _), ih, later, Work.freed_freed,
        flatMap_singleton]
      rfl
    · rw [bind_some (freeRangeBirthAware_eq trees _ _), bind_some (ih _), later,
        Work.freed_freed, flatMap_singleton]
      rfl
    · rw [bind_some (ih _)]
      rfl

theorem Work.freed_used (runs : List (Nat × Nat)) (block : Nat) :
    (work.freed runs).disk.bitmap.used block = true ↔
      work.disk.bitmap.used block = true ∧ ∀ run ∈ runs, ¬ work.Frees run block := by
  induction runs generalizing work with
  | nil =>
    constructor
    · intro used
      refine ⟨used, fun run mem => ?_⟩
      cases mem
    · exact fun both => both.1
  | cons run rest ih =>
    have split : work.freed (run :: rest) = (work.freed [run]).freed rest :=
      (work.freed_freed [run] rest).symm
    have one : (work.freed [run]).disk.bitmap.used block = true ↔
        work.disk.bitmap.used block = true ∧ ¬ work.Frees run block := by
      show Allocator.Bitmap.used (if _ then _ else _) block = true ↔ _
      unfold Work.Frees
      split_ifs with whole
      · rw [whole]
        simp
      · rw [Allocator.Bitmap.used_freeExtents, Bool.eq_false_iff.mpr whole]
        split_ifs with inside
        · simp [inside]
        · simp [inside]
    rw [split, ih, one, forall_mem_cons, and_assoc]
    rfl

/-- What a shrinking call does to the bits, up to the allocation of node blocks: no other bit is
cleared, and without such allocations the bits of the runs are. What decides about freeing stays
as it is. -/
structure Freed (start now : Work SpillStore) (runs : List (Nat × Nat)) : Prop where
  blocks : now.disk.blocks = start.disk.blocks
  dedupe : now.disk.dedupe = start.disk.dedupe
  coverage : now.disk.coverage = start.disk.coverage
  checksums : now.disk.checksums = start.disk.checksums
  barrier : now.disk.spill.cowBarrier = start.disk.spill.cowBarrier
  inode : now.inode = start.inode
  demand : now.disk.demand = start.disk.demand
  kept : ∀ block, start.disk.bitmap.used block = true →
    (∀ run ∈ runs, ¬ start.Frees run block) → now.disk.bitmap.used block = true
  cleared : (∀ index, start.disk.demand index = 0) → ∀ run ∈ runs, ∀ block,
    start.Frees run block → now.disk.bitmap.used block = false

/-- Some of the runs are freed: what is left behind by a call that may have failed. -/
def FreedSome (start now : Work SpillStore) (runs : List (Nat × Nat)) : Prop :=
  ∃ some_runs, some_runs ⊆ runs ∧ Freed start now some_runs

variable {work : Work SpillStore} {newSize : Nat}
section Freeing
variable {start now : Work SpillStore} {runs : List (Nat × Nat)}

theorem Freed.refl (work : Work SpillStore) : Freed work work [] := by
  constructor
  · rfl
  · rfl
  · rfl
  · rfl
  · rfl
  · rfl
  · rfl
  · exact fun block used _ => used
  · intro _ run mem
    cases mem

theorem Freed.freeRuns_eq (freed : Freed start now runs) (range : Extent) :
    now.freeRuns operations range = start.freeRuns operations range := by
  have barrier : operations.cowBarrier now.disk.spill =
      operations.cowBarrier start.disk.spill := freed.barrier
  have birth : now.disk.birth = start.disk.birth := by
    funext ino lba
    unfold Volume.birth
    rw [freed.checksums]
  unfold Work.freeRuns
  rw [barrier, birth, freed.checksums, freed.inode]

theorem Freed.freed (freed : Freed start now runs) (more : List (Nat × Nat)) :
    Freed start (now.freed more) (runs ++ more) := by
  have frees : ∀ run block, now.Frees run block ↔ start.Frees run block := by
    intro run block
    unfold Work.Frees Volume.rangePinned
    rw [freed.coverage]
  refine { freed with kept := ?_, cleared := ?_ }
  · intro block used untouched
    rw [Work.freed_used]
    constructor
    · exact freed.kept block used fun run mem => untouched run (mem_append_left _ mem)
    · intro run mem freeing
      exact untouched run (mem_append_right _ mem) ((frees run block).mp freeing)
  · intro idle run mem block freeing
    rw [← Bool.not_eq_true, Work.freed_used]
    rintro ⟨used, untouched⟩
    rcases mem_append.mp mem with before | last
    · rw [freed.cleared idle run before block freeing] at used
      cases used
    · exact untouched run last ((frees run block).mpr freeing)

section
variable (freed : Freed start now runs)
include freed

theorem Freed.grown {next : Work SpillStore} (grown : now.GrownTo next) :
    Freed start next runs := by
  obtain ⟨bitmap, insertions, rfl, grows, idle⟩ := grown
  refine { freed with kept := ?_, cleared := ?_ }
  · exact fun block used untouched => grows.used block (freed.kept block used untouched)
  · intro still run mem block frees
    have same : bitmap = now.disk.bitmap := idle (by rw [freed.demand]; exact still)
    show bitmap.used block = false
    rw [same]
    exact freed.cleared still run mem block frees

/-- Changing the extent trees frees nothing, as long as the barrier stays. -/
theorem Freed.spill {store : SpillStore} (same : store.cowBarrier = now.disk.spill.cowBarrier) :
    Freed start { now with disk := { now.disk with spill := store } } runs :=
  { freed with barrier := same.trans freed.barrier }

theorem Freed.onTrees {α : Type} {command : Run SpillStore α}
    (keeps : SpillStore.KeepsBarrier command) :
    wp (onTrees command) (fun _ next => Freed start next runs)
      (fun next => Freed start next runs) now := by
  have same := keeps now.disk.spill
  rw [File.onTrees, wp_focus]
  unfold wp
  cases outcome : command now.disk.spill with
  | mk result store =>
    rw [outcome] at same
    cases result <;> exact freed.spill same

theorem Freed.truncateSpilled (newBlocks : Nat) (extents : List Extent) :
    wp (truncateSpilled operations newBlocks extents)
      (fun _ next => Freed start next (runs ++ start.runsBehind operations newBlocks extents))
      (fun next => FreedSome start next
        (runs ++ start.runsBehind operations newBlocks extents)) now := by
  induction extents generalizing now runs with
  | nil =>
    rw [Work.runsBehind, flatMap_nil, append_nil]
    exact freed
  | cons extent rest ih =>
    unfold File.truncateSpilled Work.runsBehind
    rw [flatMap_cons, Extent.beyond]
    split_ifs with behind cut
    · rw [wp_bind, wp_of_eq (freeRangeBirthAware_eq _ _ _), freed.freeRuns_eq,
        flatMap_singleton, ← append_assoc]
      exact ih (freed.freed _)
    · rw [wp_bind, wp_of_eq (freeRangeBirthAware_eq _ _ _), freed.freeRuns_eq,
        flatMap_singleton, ← append_assoc]
      have more := freed.freed (start.freeRuns operations
        (extent.drop (newBlocks - extent.logicalStart)))
      rw [wp_bind]
      refine wp_mono (growTrees_spec Allocator.allocateExtents_allocates _)
        (fun _ first grown => ?_)
        fun _ grown => ⟨_, subset_append_left _ _, more.grown grown⟩
      rw [wp_bind]
      refine wp_mono ((more.grown grown).onTrees (removeWithAlloc_barrier _))
        (fun _ second more => ?_) fun _ done => ⟨_, subset_append_left _ _, done⟩
      rw [wp_bind]
      exact wp_mono (more.onTrees (change_barrier _)) (fun _ _ more => ih more)
        fun _ done => ⟨_, subset_append_left _ _, done⟩
    · rw [flatMap_nil, nil_append]
      exact ih freed

end

/-- The spilled extents of an inode that a reader in this transaction finds. -/
def Inode.spilled (inode : Inode) (store : SpillStore) : List Extent :=
  if inode.spillExtentRoot = 0 then []
  else ((store.read inode.spillExtentRoot).getD []).map spilledExtent

theorem Freed.truncateTree (freed : Freed start now runs)
    (same : now.disk.spill = start.disk.spill) (newBlocks : Nat) :
    wp (truncateTree operations newBlocks start.inode.spillExtentRoot)
      (fun _ next => Freed start next (runs ++
        start.runsBehind operations newBlocks (start.inode.spilled start.disk.spill)))
      (fun next => FreedSome start next (runs ++
        start.runsBehind operations newBlocks (start.inode.spilled start.disk.spill)))
      now := by
  unfold File.truncateTree Inode.spilled
  split_ifs with rootless
  · rw [Work.runsBehind, flatMap_nil, append_nil]
    exact freed
  · rw [wp_bind, File.onTrees, wp_focus]
    have opened := freed.spill (show cowBarrier
      { now.disk.spill with handle := start.inode.spillExtentRoot } = _ from rfl)
    have read : read { now.disk.spill with handle := start.inode.spillExtentRoot }
        start.inode.spillExtentRoot = start.disk.spill.read start.inode.spillExtentRoot := by
      rw [same]
      rfl
    show wp (_ >>= _) _ _ _
    rw [wp_bind, File.onTrees, wp_focus]
    show wp (reading id) _ _ _
    unfold wp reading
    dsimp only
    rw [read]
    cases start.disk.spill.read start.inode.spillExtentRoot with
    | none => exact ⟨runs, subset_append_left _ _, opened⟩
    | some bindings => exact opened.truncateSpilled newBlocks _

/-- A shrinking call frees the runs it hands to `free_pinned_checked`, or, when it fails, some of
them. -/
theorem truncateFile_freed (outside : Outside SpillStore) (plain : work.inode.compressionAlgo = 0)
    (shrinks : newSize < work.inode.size) : wp (truncateFile operations outside newSize)
      (fun _ next => ∃ now, next.disk = now.disk ∧ Freed work now (work.handed newSize))
      (fun next => ∃ now, next.disk = now.disk ∧ FreedSome work now (work.handed newSize))
      work := by
  have inline := (Freed.refl work).freed
    (work.runsBehind operations (blocksFor newSize) work.inode.extents)
  rw [nil_append] at inline
  have parts : work.handed newSize =
      work.runsBehind operations (blocksFor newSize) work.inode.extents ++
        work.runsBehind operations (blocksFor newSize) (work.inode.spilled work.disk.spill) :=
    flatMap_append
  unfold truncateFile
  rw [wp_bind, wp_get, if_neg (not_not.mpr plain), if_neg (Nat.not_le.mpr shrinks),
    wp_bind, wp_of_eq (truncateInline_eq _ _ _ _), wp_bind, parts]
  exact wp_mono (inline.truncateTree rfl _) (fun _ now done => ⟨now, rfl, done⟩)
    fun now done => ⟨now, rfl, done⟩

end Freeing

theorem birthScan_inside {barrier : Nat} {birth : Nat → Nat} {range : Extent}
    {fuel index : Nat} {freeRun : Option (Nat × Nat)} (ends : index + fuel ≤ range.length)
    (before : ∀ run ∈ freeRun, range.physicalStart ≤ run.1 ∧
      run.1 + run.2 = range.physicalStart + index) :
    ∀ run ∈ birthScan barrier birth range fuel index freeRun,
      range.physicalStart ≤ run.1 ∧ run.1 + run.2 ≤ range.physicalEnd := by
  have inside : ∀ run ∈ freeRun, range.physicalStart ≤ run.1 ∧
      run.1 + run.2 ≤ range.physicalEnd := by
    intro run mem
    have bounds := before run mem
    unfold Extent.physicalEnd
    omega
  induction fuel generalizing index freeRun with
  | zero =>
    intro run mem
    exact inside run (Option.mem_toList.mp mem)
  | succ fuel ih =>
    unfold birthScan
    have longer : ∀ run ∈ some (match freeRun with
          | some (start, length) => (start, length + 1)
          | none => (range.physicalStart + index, 1)),
        range.physicalStart ≤ run.1 ∧ run.1 + run.2 = range.physicalStart + (index + 1) := by
      intro run mem
      cases freeRun with
      | none =>
        cases mem
        dsimp only
        omega
      | some last =>
        have bounds := before last rfl
        cases mem
        dsimp only
        omega
    split_ifs with young
    · refine ih (by omega) longer fun run mem => ?_
      have bounds := longer run mem
      unfold Extent.physicalEnd
      omega
    · intro run mem
      rcases mem_append.mp mem with last | later
      · exact inside run (Option.mem_toList.mp last)
      · have none_yet : ∀ run ∈ (none : Option (Nat × Nat)), ∀ claim : Prop, claim := by
          intro run mem
          cases mem
        exact ih (by omega) (fun run mem => none_yet run mem _)
          (fun run mem => none_yet run mem _) run later

theorem Work.freeRuns_inside (work : Work τ) (range : Extent) :
    ∀ run ∈ work.freeRuns trees range,
      range.physicalStart ≤ run.1 ∧ run.1 + run.2 ≤ range.physicalEnd := by
  unfold Work.freeRuns
  dsimp only
  split_ifs
  · intro run mem
    rw [mem_singleton.mp mem]
    exact ⟨le_rfl, le_rfl⟩
  · refine birthScan_inside (by omega) ?_
    intro run mem
    cases mem

theorem Work.handed_inside {run : Nat × Nat} (mem : run ∈ work.handed newSize) :
    ∃ extent ∈ work.inode.allExtents work.disk.spill,
      extent.physicalStart ≤ run.1 ∧ run.1 + run.2 ≤ extent.physicalEnd := by
  unfold Work.handed Work.runsBehind at mem
  obtain ⟨extent, inside, mem⟩ := mem_flatMap.mp mem
  obtain ⟨range, behind, mem⟩ := mem_flatMap.mp mem
  have outer : extent.physicalStart ≤ range.physicalStart ∧
      range.physicalEnd ≤ extent.physicalEnd := by
    unfold Extent.beyond at behind
    split_ifs at behind with all cut
    · rw [mem_singleton.mp behind]
      exact ⟨le_rfl, le_rfl⟩
    · rw [mem_singleton.mp behind]
      unfold Extent.drop Extent.physicalEnd
      unfold Extent.logicalEnd at cut
      dsimp only
      omega
    · cases behind
  have inner := work.freeRuns_inside operations range run mem
  exact ⟨extent, inside, outer.1.trans inner.1, inner.2.trans outer.2⟩

/-- Truncation leaves every pinned block of the inode's extents in use. -/
def Work.KeepsPinned (work next : Work SpillStore) : Prop :=
  ∀ extent ∈ work.inode.allExtents work.disk.spill, ∀ block, extent.Maps block →
    work.disk.pinned block = true → work.disk.bitmap.used block = true →
      next.disk.bitmap.used block = true

/-- Every run that shrinking to a size hands over is pinned as a whole, or has no pinned block
in use. -/
def Work.RunsPinnedAlike (work : Work SpillStore) (newSize : Nat) : Prop :=
  newSize < work.inode.size → ∀ run ∈ work.handed newSize,
    work.disk.rangePinned run.1 run.2 = true ∨
      ∀ block, run.1 ≤ block → block < run.1 + run.2 →
        work.disk.pinned block = true → work.disk.bitmap.used block = false

theorem keepsPinned_of_freed {now : Work SpillStore}
    (freed : FreedSome work now (work.handed newSize)) (shrinks : newSize < work.inode.size)
    (alike : work.RunsPinnedAlike newSize) : work.KeepsPinned now := by
  obtain ⟨runs, among, freed⟩ := freed
  intro extent mem block maps pinned used
  refine freed.kept block used fun run run_member frees => ?_
  rcases alike shrinks run (among run_member) with whole | unpinned
  · rw [frees.1] at whole
    cases whole
  · rw [unpinned block frees.2.1 frees.2.2 pinned] at used
    cases used

/-- A call of `truncate_file` that hands over only runs that are pinned as a whole or have no
pinned block leaves every pinned block of the inode's extents in use. When the call returns and
takes no node block, this condition is also necessary. -/
theorem truncate_keeps_pinned_iff (outside : Outside SpillStore) (work : Work SpillStore)
    (newSize : Nat) (plain : work.inode.compressionAlgo = 0) :
    (work.RunsPinnedAlike newSize →
      work.KeepsPinned (truncateFile operations outside newSize work).2) ∧
    ((truncateFile operations outside newSize work).1 = some ⟨⟩ →
      (∀ index, work.disk.demand index = 0) →
      work.KeepsPinned (truncateFile operations outside newSize work).2 →
        work.RunsPinnedAlike newSize) := by
  by_cases shrinks : newSize < work.inode.size
  · have spec := truncateFile_freed outside plain shrinks
    unfold wp at spec
    cases outcome : truncateFile operations outside newSize work with
    | mk result next =>
      rw [outcome] at spec
      cases result with
      | none =>
        obtain ⟨now, same, freed⟩ := spec
        constructor
        · intro alike extent mem block maps pinned used
          show next.disk.bitmap.used block = true
          rw [same]
          exact keepsPinned_of_freed freed shrinks alike extent mem block maps pinned used
        · intro returned
          cases returned
      | some _ =>
        obtain ⟨now, same, freed⟩ := spec
        constructor
        · intro alike extent mem block maps pinned used
          show next.disk.bitmap.used block = true
          rw [same]
          exact keepsPinned_of_freed ⟨_, fun _ inside => inside, freed⟩ shrinks alike extent mem
            block maps pinned used
        · intro _ idle keeps _ run mem
          by_cases whole : work.disk.rangePinned run.1 run.2 = true
          · exact .inl whole
          · refine .inr fun block low high pinned => ?_
            obtain ⟨extent, inside, bounds⟩ := Work.handed_inside mem
            have maps : extent.Maps block := ⟨bounds.1.trans low, high.trans_le bounds.2⟩
            have cleared := freed.cleared idle run mem block
              ⟨Bool.eq_false_iff.mpr whole, low, high⟩
            by_contra not_free
            have kept := keeps extent inside block maps pinned
              (Bool.eq_true_of_not_eq_false not_free)
            have kept' := kept
            rw [same, cleared] at kept'
            cases kept'
  · have grows : truncateFile operations outside newSize work =
        (some ⟨⟩, { work with inode := { work.inode with size := newSize } }) := by
      unfold truncateFile
      rw [bind_some (show get work = (some work, work) from rfl),
        if_neg (not_not.mpr plain), if_pos (Nat.not_lt.mp shrinks)]
      rfl
    rw [grows]
    constructor
    · intro _ extent mem block maps pinned used
      exact used
    · intro _ _ _ smaller
      exact absurd smaller shrinks

/-- No compressed inodes, and trivial digests. -/
def nothingOutside : Outside SpillStore where
  digest := fun _ => 0
  hash := fun _ => 0
  readFileCluster := fun _ _ => fail
  writeFileCluster := fun _ _ => fail
  truncateFileCluster := fun _ => fail

/-- A volume without extent trees, whose blocks below 200 are in use. -/
def flatDisk (coverage : Option Integrity.Coverage) : Disk SpillStore where
  blocks := fun _ _ => 0
  bitmap := Allocator.twoHundredUsed
  checksums := none
  coverage := coverage
  spill :=
    { trees := fun _ => none, rootCell := none, handle := 0, nodeGen := 0, cowBarrier := 0
      allocator := fun index => 1000 + index, allocations := 0 }
  dedupe := none
  demand := fun _ => 0
  insertions := 0

/-- A file of two blocks in one extent, with some blocks pinned. -/
def twoBlockFile (coverage : Integrity.Coverage) : Work SpillStore :=
  ⟨flatDisk (some coverage), ⟨5, 8192, 0, [⟨0, 100, 2⟩], 0⟩⟩

/-- Both blocks of the file are pinned: they stay in use when it is truncated. -/
theorem truncate_keeps_shared_extent :
    (twoBlockFile [(100, ⟨100, 2, 1⟩)]).KeepsPinned
      (truncateFile operations nothingOutside 0 (twoBlockFile [(100, ⟨100, 2, 1⟩)])).2 := by
  refine (truncate_keeps_pinned_iff nothingOutside _ 0 rfl).1 fun _ run mem => .inl ?_
  have handed : (twoBlockFile [(100, ⟨100, 2, 1⟩)]).handed 0 = [(100, 2)] := by decide
  rw [handed] at mem
  rw [mem_singleton.mp mem]
  decide

/-- Only the second block is pinned: truncating the file frees both. -/
theorem truncate_frees_pinned_block :
    ¬ ∀ (outside : Outside SpillStore) (work : Work SpillStore) (newSize : Nat),
      work.inode.compressionAlgo = 0 →
        work.KeepsPinned (truncateFile operations outside newSize work).2 := by
  intro keeps
  have kept := keeps nothingOutside (twoBlockFile [(101, ⟨101, 1, 1⟩)]) 0 rfl ⟨0, 100, 2⟩
    (by decide) 101 (by decide) (by decide) (by decide)
  exact absurd kept (by decide)

end LionFS.File
