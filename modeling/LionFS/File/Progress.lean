import LionFS.File.Pieces
import LionFS.File.Placing

/-!
# Writing piece by piece

The loop of a write keeps an invariant about the blocks from the first one of the
call up to the next one to be written (`Progress`). Each of these is mapped to a
block that holds the data over what the logical block held before, or over what
the fresh block held when it was given out. All other mapped blocks are where
they were and hold what they held, and nothing else on the volume changed that is
in use.
-/
namespace LionFS.File
variable (outside : Outside SpillStore)

/-- Every block that the index names and that has the content it is indexed by is in use. -/
def Work.IndexUsed (work : Work SpillStore) : Prop :=
  ∀ hash block, work.disk.Indexed hash block → outside.hash (work.disk.blocks block) = hash →
    0 < block ∧ work.disk.bitmap.used block = true

theorem Work.IndexUsed.kept {outside : Outside SpillStore} {work next : Work SpillStore}
    (used : work.IndexUsed outside) (dedupe : next.disk.dedupe = work.disk.dedupe)
    (blocks : next.disk.blocks = work.disk.blocks)
    (grows : Allocator.Grows work.disk.bitmap next.disk.bitmap) : next.IndexUsed outside := by
  intro hash block indexed same_hash
  unfold Disk.Indexed at indexed
  rw [dedupe] at indexed
  rw [blocks] at same_hash
  exact (used hash block indexed same_hash).imp_right (grows.used block)

/-- How the page of a written block comes from the start of the call. Pieces behind the first one
of an appending call may find their block mapped ahead, and moved. -/
inductive Wrote (start : Work SpillStore) (data : Slice) (chunk : Chunk) (block : Nat)
    (ahead : Prop) (page : Page) : Prop
  /-- The data over the content of the block. -/
  | over (old : Nat) (maps : start.Maps chunk.logicalBlock old)
      (page_eq : page = start.merged data chunk old)
  /-- The data over what a free block held. -/
  | fresh (given : Nat) (hole : ∀ physical, ¬ start.Maps chunk.logicalBlock physical)
      (free : start.disk.bitmap.used given = false) (here : given = block ∨ ahead)
      (page_eq : page = start.merged data chunk given)
  /-- A shared block with the hash of the data. -/
  | shared (hole : ∀ physical, ¬ start.Maps chunk.logicalBlock physical)
      (whole : chunk.blockOffset = 0 ∧ chunk.size = blockSize)
      (same_hash : outside.hash page = outside.hash (overwrite zeroPage data chunk))

/-- The logical blocks of a call that are written when the next one is to be. -/
def Touched (offset next logical : Nat) : Prop := offset / blockSize ≤ logical ∧ logical < next

/-- The invariant of the loop of a write. -/
structure Progress (foreign : Nat → Prop) (start : Work SpillStore) (lastBlock : Option Nat)
    (offset : Nat) (data : Slice) (next : Nat) (now : Work SpillStore) : Prop where
  owned : now.Owned foreign
  carries : start.Carries now
  unshared : start.Unshared now
  indexed : now.IndexUsed outside
  /-- Other logical blocks are where they were. -/
  kept : ∀ logical, ¬ Touched offset next logical → ∀ physical, start.Maps logical physical →
    now.Maps logical physical
  /-- An appending call maps more ahead, to blocks that were free. -/
  added : ∀ logical, ¬ Touched offset next logical → ∀ physical, now.Maps logical physical →
    start.Maps logical physical ∨ (∀ other, ¬ start.Maps logical other) ∧
      start.disk.bitmap.used physical = false ∧ offset / blockSize < logical ∧
        ∃ last, lastBlock = some last ∧ next ≤ logical ∧ logical ≤ last
  /-- Blocks mapped elsewhere hold what they held. -/
  quiet : ∀ logical, ¬ Touched offset next logical → ∀ physical, now.Maps logical physical →
    now.disk.blocks physical = start.disk.blocks physical
  done : ∀ logical, Touched offset next logical → ∃ physical, now.Maps logical physical ∧
    Wrote outside start data (pieceIn offset data.length logical) physical
      (lastBlock ≠ none ∧ offset / blockSize < logical) (now.disk.blocks physical)
  others : ∀ block, 0 < block → start.disk.bitmap.used block = true →
    (∀ logical, Touched offset next logical → start.Maps logical block →
      start.disk.pinned block = true) →
    now.disk.blocks block = start.disk.blocks block
  free : ∀ block, now.disk.bitmap.used block = false →
    now.disk.blocks block = start.disk.blocks block
  /-- An appending call finds blocks up to its last one, or holes. -/
  holes : ∀ last, lastBlock = some last → ∀ first second, offset / blockSize ≤ first →
    first ≤ second → second ≤ last → (∀ physical, ¬ now.Maps first physical) →
      ∀ physical, ¬ now.Maps second physical

section Loop
variable {outside : Outside SpillStore} {foreign : Nat → Prop} {start now after : Work SpillStore}
  {lastBlock : Option Nat} {offset next : Nat} {data : Slice} {placed : Placed}

theorem Progress.init (owned : start.Owned foreign) (indexed : start.IndexUsed outside)
    (holes : ∀ last, lastBlock = some last → ∀ first second, offset / blockSize ≤ first →
      first ≤ second → second ≤ last → (∀ pba, ¬ start.Maps first pba) →
        ∀ pba, ¬ start.Maps second pba) :
    Progress outside foreign start lastBlock offset data (offset / blockSize) start := by
  constructor
  · exact owned
  · exact owned.carries
  · exact fun off => ⟨off, rfl⟩
  · exact indexed
  · exact fun _ _ _ maps => maps
  · exact fun _ _ _ maps => .inl maps
  · exact fun _ _ _ _ => rfl
  · intro lba touched
    unfold Touched at touched
    omega
  · exact fun _ _ _ _ => rfl
  · exact fun _ _ => rfl
  · exact holes

/-- The next block is not yet written. -/
theorem not_touched_next : ¬ Touched offset next next := by
  unfold Touched
  omega

/-- One more block is written. -/
theorem touched_succ {lba : Nat} (behind : offset / blockSize ≤ next) :
    Touched offset (next + 1) lba ↔ Touched offset next lba ∨ lba = next := by
  unfold Touched
  omega

variable (prog : Progress outside foreign start lastBlock offset data next now)
include prog

theorem Progress.ready (behind : offset / blockSize ≤ next)
    (reaches : ∀ last, lastBlock = some last → next ≤ last) :
    now.Ready outside lastBlock data (pieceIn offset data.length next) := by
  constructor
  · exact reaches
  · intro last is_last hole lba low high
    exact prog.holes last is_last next lba behind low high hole
  · intro hole record found
    obtain ⟨indexed, same_hash⟩ := Work.indexed_of_shareable found
    exact prog.indexed _ _ ⟨record, indexed, rfl⟩ same_hash

variable
  (placing : ChunkPlaced outside now lastBlock data (pieceIn offset data.length next) placed after)
include placing

theorem Progress.wrote :
    Wrote outside start data (pieceIn offset data.length next) placed.block
      (lastBlock ≠ none ∧ offset / blockSize < next) placed.page := by
  have merged : ∀ {pba}, now.Maps next pba →
      now.merged data (pieceIn offset data.length next) pba =
        start.merged data (pieceIn offset data.length next) pba := by
    intro pba maps
    unfold Work.merged
    rw [prog.quiet next not_touched_next pba maps]
  have mapped : ∀ {pba}, now.Maps next pba →
      placed.page = now.merged data (pieceIn offset data.length next) pba →
        Wrote outside start data (pieceIn offset data.length next) placed.block
          (lastBlock ≠ none ∧ offset / blockSize < next) placed.page := by
    intro pba maps page_eq
    rw [merged maps] at page_eq
    rcases prog.added next not_touched_next pba maps with old | ⟨hole, free, later, last, some, -⟩
    · exact .over pba old page_eq
    · exact .fresh pba hole free (.inr ⟨by simp [some], later⟩) page_eq
  have unmapped : (∀ pba, ¬ now.Maps next pba) →
      ∀ pba, ¬ start.Maps next pba := fun hole pba maps =>
    hole pba (prog.kept next not_touched_next pba maps)
  cases placing.source with
  | inPlace maps unprotected page_eq => exact mapped maps page_eq
  | moved old maps protected_block free page_eq => exact mapped maps page_eq
  | fresh hole free page_eq =>
    refine .fresh placed.block (unmapped hole) (prog.carries.grows.free free) (.inl rfl) ?_
    rw [page_eq]
    unfold Work.merged
    rw [prog.free placed.block free]
  | shared hole record found block_eq page_eq =>
    refine .shared (unmapped hole) ?_ ?_
    · unfold Work.shareable at found
      split_ifs at found with whole
      exact whole
    · rw [page_eq, block_eq]
      exact (Work.indexed_of_shareable found).2

theorem Progress.untouched {lba pba : Nat} (apart : lba ≠ next) (maps : now.Maps lba pba) :
    after.disk.blocks pba = now.disk.blocks pba := by
  refine placing.untouched (prog.owned.used _ _ maps) ?_ (prog.owned.maps_iff.mp maps).1
  intro here
  exact (prog.owned.single _ _ _ maps here).resolve_left apart

/-- The index stays safe to share from. -/
theorem Progress.step_indexed (owned : after.Owned foreign) : after.IndexUsed outside := by
  intro hash block indexed same_hash
  by_cases here : block = placed.block
  · rw [here]
    exact ⟨(owned.maps_iff.mp placing.here).1, owned.used _ _ placing.here⟩
  · rcases placing.index hash block indexed with before | ⟨-, new⟩
    · rw [placing.blocks block here] at same_hash
      obtain ⟨nonzero, used⟩ := prog.indexed hash block before same_hash
      exact ⟨nonzero, placing.carries.grows.used block used⟩
    · exact absurd new here

/-- An appending call still finds blocks up to its last one, or holes. -/
theorem Progress.step_holes {last : Nat} (is_last : lastBlock = some last) {first second : Nat}
    (low : offset / blockSize ≤ first) (order : first ≤ second) (high : second ≤ last)
    (hole : ∀ pba, ¬ after.Maps first pba) (pba : Nat) : ¬ after.Maps second pba := by
  intro maps
  have not_next : first ≠ next := fun same => hole _ (same ▸ placing.here)
  have still : ∀ pba, ¬ now.Maps first pba := fun pba maps =>
    hole pba (placing.kept first not_next pba maps)
  have ahead : next < first := by
    by_contra before
    obtain ⟨block, there, -⟩ := prog.done first ⟨low, by omega⟩
    exact still block there
  have hole_now := prog.holes last is_last first second low order high still
  rcases placing.reserved with no_more | all
  · exact hole_now pba (no_more second (show second ≠ next by omega) pba maps)
  · obtain ⟨block, there⟩ := all last is_last first (show next ≤ first by omega) (by omega)
    exact hole block there

theorem Progress.step (behind : offset / blockSize ≤ next) (owned : after.Owned foreign) :
    Progress outside foreign start lastBlock offset data (next + 1) after := by
  have apart : ∀ {lba}, ¬ Touched offset (next + 1) lba →
      ¬ Touched offset next lba ∧ lba ≠ next := by
    intro lba untouched
    rw [touched_succ behind] at untouched
    exact not_or.mp untouched
  constructor
  · exact owned
  · exact prog.carries.trans placing.carries
  · exact prog.unshared.trans placing.unshared
  · exact prog.step_indexed placing owned
  · intro lba untouched pba maps
    obtain ⟨before, not_next⟩ := apart untouched
    exact placing.kept lba not_next pba (prog.kept lba before pba maps)
  · intro lba untouched pba maps
    obtain ⟨before, not_next⟩ := apart untouched
    rcases placing.added lba not_next pba maps with old | ⟨hole, free, -, ahead⟩
    · refine (prog.added lba before pba old).imp_right ?_
      rintro ⟨hole, free, later, last, is_last, low, high⟩
      exact ⟨hole, free, later, last, is_last, by omega, high⟩
    · obtain ⟨last, is_last, low, high⟩ := ahead
      refine .inr ⟨fun other there => ?_, prog.carries.grows.free free,
        lt_of_le_of_lt behind low, last, is_last, low, high⟩
      exact hole other (prog.kept lba before other there)
  · intro lba untouched pba maps
    obtain ⟨before, not_next⟩ := apart untouched
    rcases placing.added lba not_next pba maps with old | ⟨-, free, elsewhere, -⟩
    · rw [prog.untouched placing not_next old, prog.quiet lba before pba old]
    · rw [placing.blocks pba elsewhere, prog.free pba free]
  · intro lba touched
    rcases (touched_succ behind).mp touched with before | rfl
    · obtain ⟨pba, maps, wrote⟩ := prog.done lba before
      have not_next : lba ≠ next := by
        unfold Touched at before
        omega
      refine ⟨pba, placing.kept lba not_next pba maps, ?_⟩
      rwa [prog.untouched placing not_next maps]
    · refine ⟨placed.block, placing.here, ?_⟩
      rw [placing.held]
      exact prog.wrote placing
  · intro block nonzero used only_pinned
    have before := prog.others block nonzero used fun lba touched =>
      only_pinned lba ((touched_succ behind).mpr (.inl touched))
    rw [← before]
    refine placing.untouched (prog.carries.grows.used block used) ?_ nonzero
    intro here
    rcases prog.added next not_touched_next block here with old | ⟨-, free, -⟩
    · exact prog.carries.pins block (only_pinned next ((touched_succ behind).mpr (.inr rfl)) old)
    · rw [free] at used
      cases used
  · intro block free
    have elsewhere : block ≠ placed.block := by
      intro same
      rw [same, owned.used _ _ placing.here] at free
      cases free
    rw [placing.blocks block elsewhere]
    exact prog.free block (placing.carries.grows.free free)
  · intro last is_last first second low order high hole pba
    exact prog.step_holes placing is_last low order high hole pba

end Loop
end LionFS.File
