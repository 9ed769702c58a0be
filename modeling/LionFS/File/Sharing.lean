import LionFS.File.Bytes

/-!
# What dedup shares

A write with dedup maps a hole to a block that the index names and that still has
the content it was indexed by. Nothing removes a block from the index when it is
freed, or when its last owner moves away from it, and neither changes its content.
Here is when the block that is shared has an owner: as long as every call that
takes a mapping away from an indexed block leaves it another one.
-/
namespace LionFS.File
open Run List Files
open SpillStore (operations)
open Machine (Along along_of_along along_and)
variable (outside : Outside SpillStore)

/-- The index names a block for the content that it has. -/
def Work.Named (work : Work SpillStore) (block : Nat) : Prop :=
  ∃ hash, work.disk.Indexed hash block ∧ outside.hash (work.disk.blocks block) = hash

/-- Every block that the index names for the content it has is mapped, by others or here. -/
def Work.NamedMapped (foreign : Nat → Prop) (work : Work SpillStore) : Prop :=
  ∀ block, work.Named outside block → foreign block ∨ ∃ logical, work.Maps logical block

/-- A block that the probe of a hole finds is in use and mapped, by others or here. -/
def Work.SharesOwned (foreign : Nat → Prop) (data : Slice) (work : Work SpillStore)
    (chunk : Chunk) : Prop :=
  work.inode.blockOf work.disk.spill chunk.logicalBlock = 0 →
    ∀ record, work.shareable outside data chunk = some record →
      work.disk.bitmap.used record.physicalBlock = true ∧
        (foreign record.physicalBlock ∨ ∃ logical, work.Maps logical record.physicalBlock)

/-- A block that a redirection moves away from has another mapping, if the index names it for its
content. -/
def Work.RedirectLeavesOwner (foreign : Nat → Prop) (work : Work SpillStore) (chunk : Chunk) :
    Prop :=
  let old := work.inode.blockOf work.disk.spill chunk.logicalBlock
  work.redirects operations chunk.logicalBlock old = true → work.Named outside old →
    foreign old ∨ ∃ other, other ≠ chunk.logicalBlock ∧ work.Maps other old

/-- The loop body of `write_file`. It returns the next `locality_hint`. -/
def placeAndRecord (lastBlock : Option Nat) (data : Slice) (localityHint : Option Nat)
    (chunk : Chunk) : Run (Work SpillStore) (Option Nat) := do
  let placed ← placeChunk operations outside lastBlock data localityHint chunk
  storeBlockChecksum operations outside chunk.logicalBlock placed.block placed.page
  pure placed.localityHint

/-- The loop of `write_file` as a machine: one piece after another, up to a failure. -/
def chunkStep (lastBlock : Option Nat) (data : Slice) (state : Option Nat × Work SpillStore)
    (chunk : Chunk) : Option (Option Nat × Work SpillStore) :=
  match placeAndRecord outside lastBlock data state.1 chunk state.2 with
  | (some hint, next) => some (hint, next)
  | (none, _) => none

namespace Files
variable (files : Files)

/-- Every step of the loop of a write meets a condition on the state it starts from. -/
def AlongChunks (ino offset : Nat) (data : Slice) (allowed : Work SpillStore → Chunk → Prop) :
    Prop :=
  Along (chunkStep outside ((files.inodes ino).appendBlock offset data) data)
    (fun state chunk => allowed state.2 chunk) (chunks offset data.length)
    ((files.inodes ino).lastPhysicalEnd, files.work ino)

instance (ino offset : Nat) (data : Slice) (allowed : Work SpillStore → Chunk → Prop)
    [decide : ∀ work chunk, Decidable (allowed work chunk)] :
    Decidable (files.AlongChunks outside ino offset data allowed) :=
  inferInstanceAs (Decidable (Along _ _ _ _))

/-- Every block that the index names for the content it has is mapped by an inode. -/
def NamedMapped : Prop :=
  ∀ ino block, (files.work ino).Named outside block →
    ∃ owner logical, files.Maps owner logical block

/-- Whenever a write shares a block, the block is in use and some inode maps it. -/
def SharesOwned (event : Nat × Call) : Prop :=
  match event.2 with
  | .write offset data => files.AlongChunks outside event.1 offset data
      (Work.SharesOwned outside (files.Foreign event.1) data)
  | .truncate _ => True

/-- A call changes no byte of another inode, and a write no byte of its own in blocks it does not
write to. -/
def OwnersKept (event : Nat × Call) : Prop :=
  (∀ other, other ≠ event.1 → ∀ position,
    ((files.put event.1 (files.called outside event).2).work other).byteAt position =
      (files.work other).byteAt position) ∧
  ∀ offset data, event.2 = .write offset data → ∀ position,
    ¬ Touched offset (endBlock offset data.length) (position / blockSize) →
      (files.called outside event).2.byteAt position = (files.work event.1).byteAt position

/-- A call that takes a mapping away from a block that the index names for its content leaves it
another one: a write that redirects, and a truncation. -/
def LeavesOwners (event : Nat × Call) : Prop :=
  match event.2 with
  | .write offset data => files.AlongChunks outside event.1 offset data
      (Work.RedirectLeavesOwner outside (files.Foreign event.1))
  | .truncate newSize => newSize < (files.inodes event.1).size →
      ∀ logical physical, files.Maps event.1 logical physical → blocksFor newSize ≤ logical →
        (files.work event.1).Named outside physical →
          files.Foreign event.1 physical ∨
            ∃ other, other < blocksFor newSize ∧ files.Maps event.1 other physical

end Files

section Sharing
variable {outside : Outside SpillStore} {foreign : Nat → Prop} {files : Files}
  {start now mid after work next : Work SpillStore} {lastBlock localityHint : Option Nat}
  {ino offset logicalBlock newSize : Nat} {data : Slice} {placed : Placed}

theorem writeChunks_cons (outside : Outside SpillStore) (lastBlock : Option Nat) (data : Slice)
    (localityHint : Option Nat) (chunk : Chunk) (rest : List Chunk) :
    writeChunks operations outside lastBlock data localityHint (chunk :: rest) =
      placeAndRecord outside lastBlock data localityHint chunk >>= fun hint =>
        writeChunks operations outside lastBlock data hint rest := by
  unfold placeAndRecord
  rw [bind_assoc]
  refine congrArg _ (funext fun placed => ?_)
  rw [bind_assoc]
  rfl

theorem placeAndRecord_spec {chunk : Chunk} (owned : work.Owned foreign)
    (ready : work.Ready outside lastBlock data chunk) :
    wp (placeAndRecord outside lastBlock data localityHint chunk)
      (fun _ next => next.Moved ∨ ∃ placed mid, mid.Owned foreign ∧
        ChunkPlaced outside work lastBlock data chunk placed mid ∧ next.Owned foreign ∧
        mid.Records outside chunk.logicalBlock placed.block placed.page next)
      anyhow work := by
  unfold placeAndRecord
  refine wp_bind_or (placeChunk_spec owned ready) ?_ ?_
  · rintro placed mid ⟨mid_owned, step⟩
    refine wp_seq (storeBlockChecksum_spec mid_owned _ _ _) ?_
    rintro _ next ⟨next_owned, records⟩
    exact .inr ⟨placed, mid, mid_owned, step, next_owned, records⟩
  · intro placed mid moved
    exact ((keeps_storeBlockChecksum Work.stable_moved _ _ _ _).bind fun _ =>
      keeps_pure _) mid moved

/-- The probe of a hole finds a block with an owner. -/
theorem Work.NamedMapped.sharesOwned (mapped : work.NamedMapped outside foreign)
    (owned : work.Owned foreign) (data : Slice) (chunk : Chunk) :
    work.SharesOwned outside foreign data chunk := by
  intro _ record found
  obtain ⟨indexed, same_hash⟩ := Work.indexed_of_shareable found
  have owner := mapped record.physicalBlock ⟨_, ⟨record, indexed, rfl⟩, same_hash⟩
  refine ⟨?_, owner⟩
  rcases owner with others | ⟨lba, maps⟩
  · exact owned.abroad _ others
  · exact owned.used lba _ maps

theorem ChunkPlaced.namedMapped {chunk : Chunk} (owned : work.Owned foreign)
    (step : ChunkPlaced outside work lastBlock data chunk placed next)
    (mapped : work.NamedMapped outside foreign)
    (leaves : work.RedirectLeavesOwner outside foreign chunk) :
    next.NamedMapped outside foreign := by
  rintro block ⟨hash, indexed, same_hash⟩
  by_cases here : block = placed.block
  · exact .inr ⟨chunk.logicalBlock, here ▸ step.here⟩
  · have before : work.Named outside block := by
      refine ⟨hash, (step.index hash block indexed).resolve_right fun new => here new.2, ?_⟩
      rwa [step.blocks block here] at same_hash
    rcases mapped block before with others | ⟨lba, maps⟩
    · exact .inl others
    · by_cases same : lba = chunk.logicalBlock
      · subst same
        have alone : ∀ other, work.Maps chunk.logicalBlock other → other = block :=
          fun other there => owned.sound.tidy.functional there maps
        cases step.source with
        | inPlace there _ _ => exact absurd (alone _ there).symm here
        | moved old there protected_block _ _ =>
          have is_old := alone old there
          subst is_old
          have found := (owned.maps_iff.mp maps).2
          unfold Work.RedirectLeavesOwner at leaves
          rw [found] at leaves
          rcases leaves protected_block before with others | ⟨other, apart, elsewhere⟩
          · exact .inl others
          · exact .inr ⟨other, step.kept other apart old elsewhere⟩
        | fresh hole _ _ => exact absurd maps (hole block)
        | shared hole _ _ _ _ => exact absurd maps (hole block)
      · exact .inr ⟨lba, step.kept lba same block maps⟩

theorem Work.Records.namedMapped {block : Nat} {page : Page}
    (records : work.Records outside logicalBlock block page next)
    (mapped : work.NamedMapped outside foreign) : next.NamedMapped outside foreign := by
  rintro named ⟨hash, indexed, same_hash⟩
  unfold Disk.Indexed at indexed
  rw [records.dedupe] at indexed
  rw [records.blocks] at same_hash
  refine (mapped named ⟨hash, indexed, same_hash⟩).imp_right ?_
  rintro ⟨lba, maps⟩
  exact ⟨lba, (records.maps _ _).mpr maps⟩

theorem writeChunks_shares {count : Nat} {pieces : List Chunk} {last : Work SpillStore}
    (cut : pieces = (range' logicalBlock count).map (pieceIn offset data.length))
    (prog : Progress outside foreign start lastBlock offset data logicalBlock now)
    (behind : offset / blockSize ≤ logicalBlock)
    (reaches : ∀ last, lastBlock = some last → logicalBlock + count ≤ last + 1)
    (mapped : now.NamedMapped outside foreign)
    (ran : writeChunks operations outside lastBlock data localityHint pieces now = (some ⟨⟩, last))
    (still : ¬ last.Moved)
    (leaves : Along (chunkStep outside lastBlock data)
      (fun state chunk => state.2.RedirectLeavesOwner outside foreign chunk) pieces
      (localityHint, now)) :
    Along (chunkStep outside lastBlock data)
      (fun state chunk => state.2.SharesOwned outside foreign data chunk) pieces
      (localityHint, now) ∧ last.NamedMapped outside foreign := by
  subst cut
  induction count generalizing logicalBlock now localityHint with
  | zero =>
    cases ran
    exact ⟨trivial, mapped⟩
  | succ count ih =>
    rw [range'_succ, map_cons] at ran leaves ⊢
    rw [writeChunks_cons] at ran
    have ready := prog.ready behind fun last is_last => by
      have bound := reaches last is_last
      omega
    have spec := @placeAndRecord_spec outside foreign now lastBlock localityHint data _
      prog.owned ready
    cases outcome : placeAndRecord outside lastBlock data localityHint
        (pieceIn offset data.length logicalBlock) now with
    | mk result next =>
      cases result with
      | none =>
        rw [bind_none outcome] at ran
        cases ran
      | some hint =>
        rw [bind_some outcome] at ran
        have taken : chunkStep outside lastBlock data (localityHint, now)
            (pieceIn offset data.length logicalBlock) = some (hint, next) := by
          unfold chunkStep
          rw [outcome]
        unfold Along at leaves ⊢
        rw [taken] at leaves ⊢
        rcases (wp_of_eq outcome).mp spec with moved |
          ⟨placed, mid, mid_owned, step, owned, records⟩
        · exact absurd ((wp_of_eq ran).mp (keeps_writeChunks Work.stable_moved _ _ _ _ _ next
            moved)) still
        · have rest := ih ((prog.step step behind mid_owned).records owned records) (by omega)
            (fun last is_last => by have bound := reaches last is_last; omega)
            (records.namedMapped (step.namedMapped prog.owned mapped leaves.1)) ran leaves.2
          exact ⟨⟨mapped.sharesOwned prog.owned _ _, rest.1⟩, rest.2⟩

namespace Files

/-- The owners of the blocks that the index names, as an inode sees them. -/
theorem NamedMapped.seen (mapped : files.NamedMapped outside) (ino : Nat) :
    (files.work ino).NamedMapped outside (files.Foreign ino) := by
  intro block named
  obtain ⟨owner, lba, maps⟩ := mapped ino block named
  by_cases same : owner = ino
  · exact .inr ⟨lba, same ▸ maps⟩
  · exact .inl ⟨owner, same, lba, maps⟩

/-- The owners of the blocks that the index names when a call is stored back. -/
theorem NamedMapped.put (sound : files.Sound)
    (leaves : (files.work ino).Leaves (files.Foreign ino) next)
    (mapped : next.NamedMapped outside (files.Foreign ino)) :
    (files.put ino next).NamedMapped outside := by
  intro _ block named
  rcases mapped block named with ⟨owner, apart, lba, maps⟩ | ⟨lba, maps⟩
  · exact ⟨owner, lba, (leaves.maps_of_ne sound apart _ _).mpr maps⟩
  · exact ⟨ino, lba, maps_put_self.mpr maps⟩

section
variable (whole : files.Whole outside) (mapped : files.NamedMapped outside)
include whole mapped

theorem Whole.write_shares (safe : files.Safe outside (ino, .write offset data))
    (leaves : files.LeavesOwners outside (ino, .write offset data)) :
    files.SharesOwned outside (ino, .write offset data) ∧
      (files.called outside (ino, .write offset data)).2.NamedMapped outside
        (files.Foreign ino) := by
  have owned := whole.sound.owned ino
  have behind := le_endBlock offset data.length
  have still : ¬ (files.called outside (ino, .write offset data)).2.Moved :=
    fun moved => moved safe.still
  have returns : (files.called outside (ino, .write offset data)).1 = some ⟨⟩ := safe.returns
  have called : files.called outside (ino, .write offset data) =
      (writeChunks operations outside ((files.inodes ino).appendBlock offset data) data
        (files.inodes ino).lastPhysicalEnd (chunks offset data.length) >>= fun _ =>
          extendSize (offset + data.length)) (files.work ino) := by
    show writeFile operations outside offset data (files.work ino) = _
    unfold writeFile
    rw [bind_some
      (show Run.get (files.work ino) = (some (files.work ino), files.work ino) from rfl)]
    exact if_neg (not_not.mpr (whole.sound.plain ino)) ▸ rfl
  unfold SharesOwned AlongChunks
  unfold LeavesOwners AlongChunks at leaves
  dsimp only at leaves ⊢
  cases outcome : writeChunks operations outside ((files.inodes ino).appendBlock offset data) data
      (files.inodes ino).lastPhysicalEnd (chunks offset data.length) (files.work ino) with
  | mk result mid =>
    cases result with
    | none =>
      rw [called, bind_none outcome] at returns
      cases returns
    | some done =>
      rw [called, bind_some outcome] at still ⊢
      have mid_still : ¬ mid.Moved := by
        intro moved
        exact still (post_of_returns (keeps_extendSize Work.stable_moved _ mid moved) rfl)
      have prog : Progress outside (files.Foreign ino) (files.work ino)
          ((files.inodes ino).appendBlock offset data) offset data (offset / blockSize)
          (files.work ino) :=
        Progress.init owned (whole.indexed ino)
          fun last is_last first second low order _ hole pba =>
          (whole.within ino).holes is_last low order hole pba
      have shares := writeChunks_shares (chunks_eq _ _) prog le_rfl
        (fun last is_last => by have ends := endBlock_of_appendBlock is_last; omega)
        (mapped.seen ino) outcome mid_still leaves
      exact ⟨shares.1, (wp_extendSize.mpr fun block named => shares.2 block named :
        wp (extendSize (offset + data.length))
          (fun _ next => next.NamedMapped outside (files.Foreign ino)) anyhow mid)⟩

theorem Whole.truncate_shares (safe : files.Safe outside (ino, .truncate newSize))
    (leaves : files.LeavesOwners outside (ino, .truncate newSize)) :
    (files.called outside (ino, .truncate newSize)).2.NamedMapped outside (files.Foreign ino) := by
  by_cases shrinks : newSize < (files.inodes ino).size
  · have truncated := whole.sound.truncated shrinks safe.returns fun moved => moved safe.still
    obtain ⟨bits, disk, freed⟩ := truncated.freed
    rintro block ⟨hash, indexed, same_hash⟩
    have named : (files.work ino).Named outside block := by
      unfold Disk.Indexed at indexed
      rw [disk, freed.dedupe] at indexed
      rw [disk, freed.blocks] at same_hash
      exact ⟨hash, indexed, same_hash⟩
    have stays : ∀ lba, lba < blocksFor newSize → files.Maps ino lba block →
        (files.called outside (ino, .truncate newSize)).2.Maps lba block :=
      fun lba mem maps => (truncated.maps_iff shrinks safe.clean _ _).mpr ⟨maps, mem⟩
    rcases mapped.seen ino block named with others | ⟨lba, maps⟩
    · exact .inl others
    · by_cases mem : lba < blocksFor newSize
      · exact .inr ⟨lba, stays lba mem maps⟩
      · rcases leaves shrinks lba block maps (Nat.not_lt.mp mem) named with
          others | ⟨other, other_inside, elsewhere⟩
        · exact .inl others
        · exact .inr ⟨other, stays other other_inside elsewhere⟩
  · rw [whole.sound.grows (Nat.not_lt.mp shrinks)]
    exact mapped.seen ino

theorem Whole.shares_step {event : Nat × Call} (safe : files.Safe outside event)
    (leaves : files.LeavesOwners outside event) :
    files.SharesOwned outside event ∧
      (files.put event.1 (files.called outside event).2).NamedMapped outside := by
  have served := whole.served safe
  obtain ⟨ino, call⟩ := event
  cases call with
  | write offset data =>
    obtain ⟨shares, named⟩ := whole.write_shares mapped safe leaves
    exact ⟨shares, .put whole.sound served.leaves named⟩
  | truncate newSize =>
    exact ⟨trivial, .put whole.sound served.leaves (whole.truncate_shares mapped safe leaves)⟩

end

theorem Whole.ownersKept (whole : files.Whole outside) {event : Nat × Call}
    (safe : files.Safe outside event) : files.OwnersKept outside event := by
  have served := whole.served safe
  refine ⟨fun other apart spot => served.byteAt_of_ne whole.sound apart spot, ?_⟩
  obtain ⟨ino, call⟩ := event
  rintro offset data rfl spot untouched
  obtain ⟨mid, prog, -, after⟩ := whole.wrote safe
  rw [after]
  exact prog.owned.byteAt_congr (whole.sound.owned ino) (fun pba => prog.maps_iff untouched pba)
    fun pba maps => prog.quiet _ untouched pba maps

end Files
end Sharing

/-- The first byte as the hash. -/
def firstByteHash : Outside SpillStore :=
  { nothingOutside with hash := fun page => (page 0).toNat }

/-- An image without files that has a dedup index and a coverage tree. -/
def dedupFiles : Files :=
  ⟨{ (blankFiles fun _ => zeroPage).disk with dedupe := some [], coverage := some [] }, blankInode⟩

theorem dedupFiles_unnamed (hash block : Nat) : ¬ dedupFiles.disk.Indexed hash block := by
  rintro ⟨record, found, -⟩
  cases found

theorem dedupFiles_whole (outside : Outside SpillStore) : dedupFiles.Whole outside := by
  have owned := (blankFiles_unshared fun _ => zeroPage).sound.owned 0
  refine blank_whole outside owned.still owned.fresh ⟨fun _ => rfl, ?_⟩ owned.zero
    dedupFiles_unnamed
  intro runs is_empty
  cases is_empty
  exact ⟨.nil, fun _ mem => (nomatch mem), .nil⟩

/-- A block of data. -/
def oneBlock : Slice := ⟨blockSize, fun _ => 7⟩

theorem leavesOwners_of_in_place {outside : Outside SpillStore} {files : Files}
    {ino offset : Nat} {data : Slice}
    (in_place : files.AlongChunks outside ino offset data fun work chunk =>
      work.redirects operations chunk.logicalBlock
        (work.inode.blockOf work.disk.spill chunk.logicalBlock) = false) :
    files.LeavesOwners outside (ino, .write offset data) :=
  along_of_along (fun _ _ _ _ _ _ => trivial)
    (fun _ _ _ stays redirects => absurd (stays.symm.trans redirects) Bool.false_ne_true) trivial
    in_place

end LionFS.File
