import LionFS.File.Progress

/-!
# What a write leaves behind

`write_file` records the digest of each block right after it has placed it. When
the call returns, the blocks of its range hold the data and have matching
records, and all other blocks and records are as they were.
-/
namespace LionFS.File
open Run Assoc SpillStore

/-- What recording a checksum does. -/
structure Work.Records (outside : Outside SpillStore) (logical block : Nat) (page : Page)
    (work next : Work SpillStore) : Prop where
  carries : work.Carries next
  inode : next.inode = work.inode
  maps : ∀ other physical, next.Maps other physical ↔ work.Maps other physical
  blocks : next.disk.blocks = work.disk.blocks
  coverage : next.disk.coverage = work.disk.coverage
  dedupe : next.disk.dedupe = work.disk.dedupe
  checksums : next.disk.checksums = work.disk.checksums.map
    (insert (checksumKey work.inode.ino logical)
      ⟨block, outside.digest page, work.disk.spill.nodeGen + 1⟩)

/-- The checksum records that a call does not touch are as they were, and those of the blocks it
has written match. -/
structure Recorded (outside : Outside SpillStore) (start : Work SpillStore) (offset next : Nat)
    (now : Work SpillStore) : Prop where
  others : ∀ key, (∀ logical, Touched offset next logical →
      key ≠ checksumKey start.inode.ino logical) →
    now.disk.checksums.bind (find key) = start.disk.checksums.bind (find key)
  agree : ∀ logical, Touched offset next logical → ∀ physical, now.Maps logical physical →
    now.verifies outside logical physical = true

section Recording
variable {outside : Outside SpillStore} {foreign : Nat → Prop} {work : Work SpillStore}
  {start now mid after : Work SpillStore} {lastBlock : Option Nat} {offset next : Nat}
  {data : Slice} {placed : Placed}

/-- Drawing a stamp leaves the extent trees alone. -/
theorem Work.Owned.stamped (owned : work.Owned foreign) {grown : Allocator.Bitmap}
    {insertions : Nat} (grows : Allocator.Grows work.disk.bitmap grown)
    (records : Option Checksums) :
    work.Carries { work with disk := { work.disk with
      bitmap := grown, insertions := insertions, checksums := records
      spill := { work.disk.spill with nodeGen := work.disk.spill.nodeGen + 1 } } } := by
  refine ⟨grows, fun _ pinned => pinned, fun formed => ⟨formed.tree, formed.disjoint⟩, ?_⟩
  refine ⟨⟨owned.sound.tidy, owned.sound.room, owned.sound.tree⟩, ?_, .inl rfl, rfl, rfl, rfl⟩
  constructor
  · exact owned.still
  · rfl
  · exact Nat.le_succ _
  · exact fun fresh => ⟨fresh.injective, fresh.unused⟩
  · exact fun _ there => there
  · exact fun _ _ => rfl
  · exact fun _ _ there _ _ => there

theorem storeBlockChecksum_spec (owned : work.Owned foreign) (logical block : Nat) (page : Page) :
    wp (storeBlockChecksum operations outside logical block page)
      (fun _ next => next.Owned foreign ∧ work.Records outside logical block page next)
      anyhow work := by
  unfold storeBlockChecksum
  rw [wp_bind, wp_get]
  cases here : work.disk.checksums with
  | none =>
    refine ⟨owned, owned.carries, rfl, fun _ _ => Iff.rfl, rfl, rfl, rfl, ?_⟩
    rw [here]
    rfl
  | some records =>
    dsimp only
    rw [wp_bind, onTrees, wp_focus]
    show wp (_ >>= _) _ _ _
    refine wp_growMeta fun bitmap insertions grows => ?_
    rw [wp_modify]
    have carries := @Work.Owned.stamped foreign work owned bitmap insertions grows
      (some (insert (checksumKey work.inode.ino logical)
        ⟨block, outside.digest page, work.disk.spill.nodeGen + 1⟩ records))
    refine ⟨owned.same carries fun _ _ maps => maps, carries, rfl, fun _ _ => Iff.rfl, rfl, rfl,
      rfl, ?_⟩
    rw [here]
    rfl

variable {logical block : Nat}

theorem Work.Records.find {page : Page} (records : work.Records outside logical block page after)
    (key : ChecksumTreeKey) :
    after.disk.checksums.bind (find key) =
      if key = checksumKey work.inode.ino logical then
        work.disk.checksums.map fun _ =>
          ⟨block, outside.digest page, work.disk.spill.nodeGen + 1⟩
      else work.disk.checksums.bind (find key) := by
  rw [records.checksums]
  cases work.disk.checksums with
  | none =>
    show none = _
    split_ifs <;> rfl
  | some bindings =>
    show Assoc.find key (Assoc.insert _ _ bindings) = _
    rw [find_insert]
    rfl

/-- Recording a checksum is no progress, and no step back. -/
theorem Progress.records (prog : Progress outside foreign start lastBlock offset data next mid)
    {page : Page} (owned : after.Owned foreign)
    (records : mid.Records outside logical block page after) :
    Progress outside foreign start lastBlock offset data next after := by
  constructor
  · exact owned
  · exact prog.carries.trans records.carries
  · exact prog.unshared.trans fun off => ⟨records.dedupe.trans off, records.coverage⟩
  · exact prog.indexed.kept records.dedupe records.blocks records.carries.grows
  · exact fun logical untouched pba maps =>
      (records.maps _ _).mpr (prog.kept logical untouched pba maps)
  · exact fun logical untouched pba maps =>
      prog.added logical untouched pba ((records.maps _ _).mp maps)
  · intro logical untouched pba maps
    rw [records.blocks]
    exact prog.quiet logical untouched pba ((records.maps _ _).mp maps)
  · intro logical touched
    obtain ⟨pba, maps, wrote⟩ := prog.done logical touched
    refine ⟨pba, (records.maps _ _).mpr maps, ?_⟩
    rwa [records.blocks]
  · intro block nonzero used only_pinned
    rw [records.blocks]
    exact prog.others block nonzero used only_pinned
  · intro block free
    rw [records.blocks]
    exact prog.free block (records.carries.grows.free free)
  · intro last is_last first second low order high hole pba maps
    exact prog.holes last is_last first second low order high
      (fun pba there => hole pba ((records.maps _ _).mpr there)) pba
      ((records.maps _ _).mp maps)

theorem Recorded.init (start : Work SpillStore) (offset : Nat) :
    Recorded outside start offset (offset / blockSize) start := by
  constructor
  · exact fun _ _ => rfl
  · intro logical touched
    unfold Touched at touched
    omega

theorem Work.verifies_congr {one two : Work SpillStore}
    (record : one.record logical = two.record logical)
    (blocks : one.disk.blocks block = two.disk.blocks block) :
    one.verifies outside logical block = two.verifies outside logical block := by
  unfold Work.verifies
  rw [record, blocks]

theorem Recorded.step (recorded : Recorded outside start offset next now)
    (prog : Progress outside foreign start lastBlock offset data next now)
    (behind : offset / blockSize ≤ next)
    (step : ChunkPlaced outside now lastBlock data (pieceIn offset data.length next) placed mid)
    (records : mid.Records outside next placed.block placed.page after) :
    Recorded outside start offset (next + 1) after := by
  have ino : mid.inode.ino = start.inode.ino :=
    (prog.carries.trans step.carries).reshaped.fields.1
  have find_after : ∀ key, after.disk.checksums.bind (find key) =
      if key = checksumKey start.inode.ino next then
        now.disk.checksums.map fun _ =>
          ⟨placed.block, outside.digest placed.page, mid.disk.spill.nodeGen + 1⟩
      else now.disk.checksums.bind (find key) := by
    intro key
    rw [records.find key, step.checksums, ino]
  constructor
  · intro key apart
    rw [find_after, if_neg (apart next ((touched_succ behind).mpr (.inr rfl)))]
    exact recorded.others key fun logical touched =>
      apart logical ((touched_succ behind).mpr (.inl touched))
  · intro logical touched pba maps
    have after_ino : after.inode.ino = start.inode.ino := by rw [records.inode, ino]
    rw [records.maps] at maps
    rcases (touched_succ behind).mp touched with before | rfl
    · have not_next : logical ≠ next := by
        unfold Touched at before
        omega
      have old := step.maps_of_lt before.2 maps
      rw [← recorded.agree logical before pba old]
      refine Work.verifies_congr ?_ ?_
      · unfold Work.record
        rw [after_ino, prog.carries.reshaped.fields.1, find_after, if_neg]
        intro same
        exact not_next (congrArg (fun key => (ofLex key).2) same)
      · rw [records.blocks]
        exact prog.untouched step not_next old
    · have same := step.carries.reshaped.sound.tidy.functional maps step.here
      subst same
      have held : after.disk.blocks placed.block = placed.page := by
        rw [records.blocks, step.held]
      unfold Work.verifies Work.record
      rw [after_ino, find_after, if_pos rfl, held]
      cases now.disk.checksums with
      | none => rfl
      | some bindings => exact decide_eq_true rfl

theorem writeChunks_spec {count : Nat} {localityHint : Option Nat}
    (prog : Progress outside foreign start lastBlock offset data next now)
    (recorded : Recorded outside start offset next now) (behind : offset / blockSize ≤ next)
    (reaches : ∀ last, lastBlock = some last → next + count ≤ last + 1) :
    wp (writeChunks operations outside lastBlock data localityHint
        ((List.range' next count).map (pieceIn offset data.length)))
      (fun _ after => after.Moved ∨
        Progress outside foreign start lastBlock offset data (next + count) after ∧
          Recorded outside start offset (next + count) after)
      anyhow now := by
  induction count generalizing next now localityHint with
  | zero => exact .inr ⟨prog, recorded⟩
  | succ count ih =>
    rw [List.range'_succ, List.map_cons, show next + (count + 1) = next + 1 + count by omega]
    unfold writeChunks
    have ready := prog.ready behind fun last is_last => by
      have bound := reaches last is_last
      omega
    refine wp_bind_or (placeChunk_spec prog.owned ready) ?_ ?_
    · rintro placed mid ⟨mid_owned, step⟩
      refine wp_seq (storeBlockChecksum_spec mid_owned _ _ _) ?_
      rintro _ after ⟨owned, records⟩
      refine ih ((prog.step step behind mid_owned).records owned records)
        (recorded.step prog behind step records) (by omega) fun last is_last => ?_
      have bound := reaches last is_last
      omega
    · intro placed mid moved
      exact ((keeps_storeBlockChecksum Work.stable_moved _ _ _ _).bind fun _ =>
        keeps_writeChunks Work.stable_moved _ _ _ _ _) mid moved

/-- A call with another size of the inode. -/
def Work.sized (work : Work SpillStore) (size : Nat) : Work SpillStore :=
  { work with inode := { work.inode with size := size } }

/-- The size of an inode has no part in its mapping. -/
theorem Work.Owned.sized (owned : work.Owned foreign) (size : Nat) :
    (work.sized size).Owned foreign :=
  { owned with
    sound := ⟨owned.sound.tidy, owned.sound.room, owned.sound.tree⟩
    covered := ⟨owned.covered.tree, owned.covered.disjoint⟩ }

theorem wp_extendSize {written : Nat} {post : PUnit → Work SpillStore → Prop}
    {error : Work SpillStore → Prop} :
    wp (extendSize written) post error work ↔
      post ⟨⟩ (work.sized (max work.inode.size written)) := by
  unfold extendSize
  rw [wp_modify]
  unfold Work.sized
  split_ifs with longer
  · rw [Nat.max_eq_right (by omega)]
  · rw [Nat.max_eq_left (by omega)]

/-- No logical block of the inode past its size is mapped. -/
def Work.Within (work : Work SpillStore) : Prop :=
  ∀ logical physical, work.Maps logical physical → logical < blocksFor work.inode.size

theorem Work.Within.holes (within : start.Within) {last : Nat}
    (is_last : start.inode.appendBlock offset data = some last) {first second : Nat}
    (low : offset / blockSize ≤ first) (order : first ≤ second)
    (hole : ∀ pba, ¬ start.Maps first pba) (pba : Nat) : ¬ start.Maps second pba := by
  intro maps
  have bound := within second pba maps
  unfold Inode.appendBlock at is_last
  split_ifs at is_last with appends
  rw [← appends.2] at bound
  have same : second = first := by
    unfold blocksFor blockSize at bound
    unfold blockSize at low
    omega
  exact hole pba (same ▸ maps)

theorem endBlock_of_appendBlock {inode : Inode} {last : Nat}
    (is_last : inode.appendBlock offset data = some last) :
    endBlock offset data.length = last + 1 := by
  unfold Inode.appendBlock at is_last
  split_ifs at is_last with appends
  rw [Option.some.injEq] at is_last
  unfold endBlock
  rw [if_neg appends.1, is_last]

/-- All pieces of a call are written. -/
def Complete (outside : Outside SpillStore) (foreign : Nat → Prop) (start : Work SpillStore)
    (offset : Nat) (data : Slice) (now : Work SpillStore) : Prop :=
  Progress outside foreign start (start.inode.appendBlock offset data) offset data
    (endBlock offset data.length) now

/-- A call of `write_file` that returns has written all pieces, and the size reaches their end. -/
theorem writeFile_spec (owned : start.Owned foreign) (indexed : start.IndexUsed outside)
    (plain : start.inode.compressionAlgo = 0) (within : start.Within) :
    wp (writeFile operations outside offset data)
      (fun _ after => after.Moved ∨ ∃ mid, Complete outside foreign start offset data mid ∧
        Recorded outside start offset (endBlock offset data.length) mid ∧
        after = mid.sized (max start.inode.size (offset + data.length)))
      anyhow start := by
  unfold writeFile
  rw [wp_bind, wp_get, if_neg (not_not.mpr plain), chunks_eq]
  have behind := le_endBlock offset data.length
  refine wp_bind_or (writeChunks_spec (Progress.init owned indexed ?_) (Recorded.init start offset)
    le_rfl ?_) ?_ ?_
  · intro last is_last first second low order _ hole pba
    exact within.holes is_last low order hole pba
  · intro last is_last
    have ends := endBlock_of_appendBlock is_last
    omega
  · rintro _ mid ⟨prog, recorded⟩
    rw [Nat.add_sub_cancel' behind] at prog recorded
    rw [wp_extendSize, prog.carries.reshaped.fields.2.1]
    exact .inr ⟨mid, prog, recorded, rfl⟩
  · intro _ mid moved
    exact keeps_extendSize Work.stable_moved _ mid moved

/-- When all pieces are written, the blocks elsewhere are mapped where they were. -/
theorem Complete.maps_iff (prog : Complete outside foreign start offset data now)
    (untouched : ¬ Touched offset (endBlock offset data.length) logical) (pba : Nat) :
    now.Maps logical pba ↔ start.Maps logical pba := by
  constructor
  · intro maps
    refine (prog.added logical untouched pba maps).resolve_right ?_
    rintro ⟨-, -, -, last, is_last, low, high⟩
    have ends := endBlock_of_appendBlock is_last
    omega
  · exact prog.kept logical untouched pba

end Recording
end LionFS.File
