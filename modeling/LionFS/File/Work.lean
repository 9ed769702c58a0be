import LionFS.File.Mapping

/-!
# What a call of the data path works on

`write_file`, `read_file` and `truncate_file` change the volume as their
transaction sees it and the inode they are given. Both are in the state of a
call, so that a call that fails half way leaves behind what it had changed by
then. Inserting into a tree may allocate blocks for nodes; how many is left
open (`Disk.demand`), and when they cannot be had the insertion fails.
-/
namespace LionFS.File
open Run

/-- A slice of bytes; those past its length are never looked at. -/
structure Slice where
  /-- How many bytes. -/
  length : Nat
  /-- The bytes. -/
  byte : Nat → UInt8

/-- `DedupeRecord`. -/
structure DedupeRecord where
  physicalBlock : Nat
  refCount : Nat
deriving DecidableEq

/-- The dedup index by content hash, the hash as a number. -/
abbrev DedupeIndex := List (Nat × DedupeRecord)

/-- A volume with what the data path uses besides. -/
structure Disk (τ : Type) extends Volume τ where
  /-- The dedup index, when `dedup_on`. -/
  dedupe : Option DedupeIndex
  /-- How many node blocks each insertion into a tree allocates. -/
  demand : Nat → Nat
  /-- How many insertions there were. -/
  insertions : Nat

/-- The state of a call: the volume and the inode it was given. -/
structure Work (τ : Type) where
  /-- The volume. -/
  disk : Disk τ
  inode : Inode

/-- What the data path calls outside this development. -/
structure Outside (τ : Type) where
  /-- `calculate_checksum`. -/
  digest : Page → Nat
  /-- `hash_block`. -/
  hash : Page → Nat
  readFileCluster : Nat → Nat → Run (Work τ) Slice
  writeFileCluster : Nat → Slice → Run (Work τ) PUnit
  truncateFileCluster : Nat → Run (Work τ) PUnit

variable {τ α : Type}

/-- A command on the extent trees of a call. -/
def onTrees (command : Run τ α) : Run (Work τ) α :=
  focus (fun work => work.disk.spill)
    (fun work spill => { work with disk := { work.disk with spill := spill } }) command

/-- A command on the bitmap of a call. -/
def onBits (command : Run Allocator.Bitmap α) : Run (Work τ) α :=
  focus (fun work => work.disk.bitmap)
    (fun work bitmap => { work with disk := { work.disk with bitmap := bitmap } }) command

/-- One node block. -/
def takeNode (allocate : Nat → Run Allocator.Bitmap Nat) : Run (Work τ) PUnit := do
  let _ ← onBits (allocate 1)
  pure ⟨⟩

/-- The node blocks that the next insertion into a tree allocates. -/
def growTrees (allocate : Nat → Run Allocator.Bitmap Nat) : Run (Work τ) PUnit := do
  let work ← get
  modify fun work =>
    { work with disk := { work.disk with insertions := work.disk.insertions + 1 } }
  each (List.replicate (work.disk.demand work.disk.insertions) PUnit.unit) fun _ =>
    takeNode allocate

/-- A call whose bitmap grew while nodes were allocated. -/
def Work.grown (work : Work τ) (bitmap : Allocator.Bitmap) (insertions : Nat) : Work τ :=
  { work with disk := { work.disk with bitmap := bitmap, insertions := insertions } }

/-- What the allocation of node blocks leads to, whether they can be had or not. -/
def Work.GrownTo (work next : Work τ) : Prop :=
  ∃ bitmap insertions, next = work.grown bitmap insertions ∧
    Allocator.Grows work.disk.bitmap bitmap ∧
    ((∀ index, work.disk.demand index = 0) → bitmap = work.disk.bitmap)

/-- Allocating node blocks clears no bit and changes nothing else. -/
theorem growTrees_spec {allocate : Nat → Run Allocator.Bitmap Nat}
    (allocates : ∀ count, Allocator.Allocates (allocate count) count) (work : Work τ) :
    wp (growTrees allocate) (fun _ => work.GrownTo) work.GrownTo work := by
  have one : ∀ now, now.disk.demand = work.disk.demand →
      (∃ index, work.disk.demand index ≠ 0) → work.GrownTo now →
      wp (takeNode allocate)
        (fun _ next => next.disk.demand = work.disk.demand ∧ work.GrownTo next) work.GrownTo
        now := by
    rintro now same ⟨index, some_demand⟩ ⟨bitmap, insertions, rfl, grows, -⟩
    unfold takeNode
    rw [wp_bind, onBits, wp_focus]
    refine wp_mono (allocates 1 _) (fun start after taken => ?_) fun after unchanged => ?_
    · exact ⟨rfl, after, insertions, rfl, grows.trans taken.grows,
        fun idle => absurd (idle index) some_demand⟩
    · exact ⟨after, insertions, rfl, unchanged ▸ grows, fun idle => absurd (idle index) some_demand⟩
  unfold growTrees
  rw [wp_bind, wp_get, wp_bind, wp_modify]
  by_cases idle : work.disk.demand work.disk.insertions = 0
  · rw [idle]
    exact ⟨work.disk.bitmap, _, rfl, .refl _, fun _ => rfl⟩
  · refine wp_imp (wp_each (fun _ _ now fine => one now fine.1 ⟨_, idle⟩ fine.2)
      ⟨rfl, work.disk.bitmap, _, rfl, .refl _, fun _ => rfl⟩) (fun _ _ fine => fine.2)

/-- The node blocks of most trees come from the end of the group. -/
theorem wp_growMeta {second : Run (Work τ) α} {post : α → Work τ → Prop} {work : Work τ}
    (rest : ∀ bitmap insertions, Allocator.Grows work.disk.bitmap bitmap →
      wp second post anyhow (work.grown bitmap insertions)) :
    wp (growTrees Allocator.allocateExtentsMeta >>= fun _ => second) post anyhow
      work := by
  rw [wp_bind]
  refine wp_mono (growTrees_spec Allocator.allocateExtentsMeta_allocates work) ?_
    fun _ _ => trivial
  rintro _ _ ⟨bitmap, insertions, rfl, grows, -⟩
  exact rest bitmap insertions grows

/-- `is_range_pinned`, when there is a coverage tree. -/
def Volume.rangePinned (volume : Volume τ) (start count : Nat) : Bool :=
  match volume.coverage with
  | some runs => Integrity.isRangePinned runs start count
  | none => false

/-- The birth of the content of a block: the generation of its checksum record, zero when there
is none. -/
def Volume.birth (volume : Volume τ) (ino logicalBlock : Nat) : Nat :=
  match volume.checksums.bind (Assoc.find (checksumKey ino logicalBlock)) with
  | some value => value.generation
  | none => 0

/-- The inode maps a logical block to a physical one, as a reader in this transaction finds it. -/
def Work.Maps (work : Work SpillStore) (logical physical : Nat) : Prop :=
  MapsTo (work.inode.allExtents work.disk.spill) logical physical

end LionFS.File
