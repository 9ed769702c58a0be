import LionFS.File.Reshape

/-!
# What `add_extent` and `remap_block` do to a mapping

`add_extent` of an extent whose logical blocks are holes adds it to the mapping
of the inode, wherever it ends up; `remap_block` moves one mapped block to
another place and leaves the others where they are. Both say so unless the root
of a tree is moved on the way.
-/
namespace LionFS.File
open Run List Assoc SpillStore Extent
open SpillStore (operations)
variable {inode : Inode} {store : SpillStore}

theorem SpillStore.Kept.refl (still : store.rootCell = none) (root : Nat) :
    SpillStore.Kept root store store :=
  SpillStore.Kept.handle still root store.handle

/-- What adding and redirecting extents keeps, whether a root is moved or not. -/
structure Reworked (inode : Inode) (store : SpillStore) (inode' : Inode) (next : SpillStore) :
    Prop where
  sound : inode'.Sound next
  settled : Settled inode'.spillExtentRoot store next
  root : inode'.spillExtentRoot = inode.spillExtentRoot ∨
    inode.spillExtentRoot = 0 ∧ store.trees inode'.spillExtentRoot = none
  /-- Without a tree there is nothing to change. -/
  rootless : inode'.spillExtentRoot = 0 → next = store
  fields : inode'.ino = inode.ino ∧ inode'.size = inode.size ∧
    inode'.compressionAlgo = inode.compressionAlgo

/-- A tree can be made where there is none. -/
def Inode.Able (inode : Inode) (store : SpillStore) : Prop :=
  inode.spillExtentRoot = 0 → store.rootCell = none ∧ store.Fresh

section
variable {inode' : Inode} {next : SpillStore} (reworked : Reworked inode store inode' next)
include reworked

theorem Reworked.reshaped : next.Moved ∨ Reshaped inode store inode' next := by
  rcases reworked.settled with moved | ⟨-, kept⟩
  · exact .inl moved
  · exact .inr ⟨reworked.sound, kept, reworked.root, reworked.fields⟩

theorem Reworked.rootless_before (rootless : inode'.spillExtentRoot = 0) :
    inode.spillExtentRoot = 0 := by
  rcases reworked.root with same | ⟨none_before, -⟩
  · rwa [← same]
  · exact none_before

theorem Reworked.able (able : inode.Able store) : inode'.Able next := by
  intro rootless
  rw [reworked.rootless rootless]
  exact able (reworked.rootless_before rootless)

theorem Reworked.trans {last : Inode} {after : SpillStore}
    (later : Reworked inode' next last after) : Reworked inode store last after := by
  constructor
  · exact later.sound
  · refine reworked.settled.trans later.settled ?_
    rcases later.root with same | ⟨rootless, -⟩
    · exact .inl same.symm
    · exact .inr rootless
  · rcases later.root with same | ⟨rootless, made⟩
    · rw [same]
      exact reworked.root
    · rw [reworked.rootless rootless] at made
      exact .inr ⟨reworked.rootless_before rootless, made⟩
  · intro rootless
    rw [later.rootless rootless, reworked.rootless (later.rootless_before rootless)]
  · obtain ⟨ino, size, algo⟩ := later.fields
    rw [ino, size, algo]
    exact reworked.fields

end

variable {extents : List Extent}

/-- The inline extents are replaced. -/
theorem Reworked.inline (sound : inode.Sound store) (room : extents.length ≤ maxInlineExtents)
    (tidy : Tidy ({ inode with extents := extents }.allExtents store)) :
    Reworked inode store { inode with extents := extents } store :=
  ⟨⟨tidy, room, sound.tree⟩, .handle store _ store.handle, .inl rfl, fun _ => rfl, rfl, rfl, rfl⟩

/-- The tree of the inode is changed. -/
theorem Reworked.spilled {next : SpillStore} (sound : inode.Sound next)
    (settled : Settled inode.spillExtentRoot store next) (rooted : inode.spillExtentRoot ≠ 0) :
    Reworked inode store inode next :=
  ⟨sound, settled, .inl rfl, fun rootless => absurd rootless rooted, rfl, rfl, rfl⟩

theorem Reworked.refl (sound : inode.Sound store) : Reworked inode store inode store :=
  .inline sound sound.room sound.tidy

theorem ensureTree_spec (able : inode.Able store) (sound : inode.Sound store) :
    wp (ensureTree operations inode)
      (fun rooted next => rooted.spillExtentRoot ≠ 0 ∧
        rooted.allExtents next = inode.allExtents store ∧ Reworked inode store rooted next)
      never store := by
  unfold ensureTree
  split_ifs with rootless
  · obtain ⟨still, fresh⟩ := able rootless
    refine wp_seq (create_spec still fresh) ?_
    rintro root next ⟨nonzero, absent, kept, made⟩
    have read : next.read root = some [] := by
      unfold SpillStore.read
      rw [viewRoot_of_still kept.still, made]
      rfl
    have same : { inode with spillExtentRoot := root }.allExtents next =
        inode.allExtents store := by
      rw [Inode.allExtents_of_read nonzero read, Inode.allExtents_of_rootless rootless]
      exact append_nil _
    refine ⟨nonzero, same, ?_⟩
    constructor
    · exact ⟨same ▸ sound.tidy, sound.room, fun _ => ⟨[], read, List.Pairwise.nil⟩⟩
    · exact .inr ⟨still, kept⟩
    · exact .inr ⟨rootless, absent⟩
    · exact fun no_root => absurd no_root nonzero
    · exact ⟨rfl, rfl, rfl⟩
  · exact ⟨rootless, rfl, .refl sound⟩

variable {bindings : List (Nat × ExtentTreeValue)} {root : Nat}
section
variable (able : inode.Able store) (sound : inode.Sound store)
  {added : Extent} (pos : 0 < added.length) (nonzero : 0 < added.physicalStart)
  (unmapped : added.Unmapped (inode.allExtents store))
include able sound pos nonzero unmapped

theorem spillExtent_adds :
    wp (spillExtent operations inode added)
      (fun result next => Reworked inode store result next ∧
        Adds added (inode.allExtents store) (result.allExtents next))
      never store := by
  unfold spillExtent
  refine wp_seq (ensureTree_spec able sound) ?_
  rintro rooted first ⟨has_root, same, made⟩
  obtain ⟨bindings, read, ordered⟩ := made.sound.tree has_root
  have extents := Inode.allExtents_of_read has_root read
  have views : Views rooted.spillExtentRoot bindings
      { first with handle := rooted.spillExtentRoot } := ⟨rfl, read⟩
  have adds := mergeFloor_adds ordered (extents ▸ made.sound.tidy) pos nonzero
    (extents ▸ same ▸ unmapped)
  rw [wp_bind]
  refine wp_modify.mpr ?_
  rw [wp_bind, wp_of_eq (views.lookupFloor _)]
  refine wp_seq (views.change has_root _) ?_
  rintro _ next ⟨after, settled⟩
  have extents' := Inode.allExtents_of_read has_root after.read
  rw [← same, extents, wp_pure, extents']
  refine ⟨made.trans (.spilled ?_ ?_ has_root), adds⟩
  · exact ⟨extents' ▸ adds.tidy, made.sound.room, fun _ => ⟨_, after.read, ordered.insert _ _⟩⟩
  · exact (Settled.handle first _ _).trans settled (.inl rfl)

theorem addExtent_adds :
    wp (addExtent operations inode added)
      (fun result next => Reworked inode store result next ∧
        Adds added (inode.allExtents store) (result.allExtents next))
      never store := by
  unfold addExtent
  cases merges : mergeInline added inode.extents with
  | some extents =>
    obtain ⟨extent, joined, rest, perm, merged, sends, length, start⟩ := mergeInline_spec merges
    have adds := adds_of_join (perm.append_right _) (merged.append_right _) sound.tidy unmapped
      sends length start nonzero
    have same : extents.length = inode.extents.length :=
      merged.length_eq.trans perm.length_eq.symm
    exact ⟨.inline sound (same ▸ sound.room) adds.tidy, adds⟩
  | none =>
    dsimp only
    split_ifs with room
    · have perm : ({ inode with extents := inode.extents ++ [added] }.allExtents store).Perm
          (added :: inode.allExtents store) := by
        show (inode.extents ++ [added] ++ _).Perm _
        rw [append_assoc, singleton_append]
        exact perm_middle
      have adds := adds_of_perm perm sound.tidy pos nonzero unmapped
      refine ⟨.inline sound ?_ adds.tidy, adds⟩
      rw [length_append, length_singleton]
      exact room
    · exact spillExtent_adds able sound pos nonzero unmapped

end

theorem addExtents_adds (able : inode.Able store) (sound : inode.Sound store)
    {added : List Extent} (tidy : Tidy (added ++ inode.allExtents store)) :
    wp (addExtents operations inode added)
      (fun result next => Reworked inode store result next ∧
        ∀ lba pba, MapsTo (result.allExtents next) lba pba ↔
          MapsTo (added ++ inode.allExtents store) lba pba)
      never store := by
  induction added generalizing inode store with
  | nil => exact ⟨.refl sound, fun _ _ => Iff.rfl⟩
  | cons first rest ih =>
    have first_unmapped : first.Unmapped (inode.allExtents store) :=
      fun lba pba covers maps =>
        tidy.head_unmapped covers pba (mapsTo_append.mpr (.inr maps))
    unfold addExtents
    refine wp_seq (addExtent_adds able sound (tidy.positive first mem_cons_self)
      (tidy.nonzero first mem_cons_self) first_unmapped) ?_
    rintro result next ⟨reworked, adds⟩
    have mapped : ∀ lba pba,
        MapsTo (rest ++ result.allExtents next) lba pba ↔
          MapsTo (first :: rest ++ inode.allExtents store) lba pba := by
      intro lba pba
      rw [mapsTo_append, adds.mapsTo, cons_append, mapsTo_cons, mapsTo_append, ← or_assoc, or_comm]
    obtain ⟨-, tidy_rest, -⟩ := tidy_append.mp (show Tidy ([first] ++ _) from tidy)
    obtain ⟨rest_alone, -, disj⟩ := tidy_append.mp tidy_rest
    have tidy_next : Tidy (rest ++ result.allExtents next) := by
      refine tidy_append.mpr ⟨rest_alone, adds.tidy, fun lba one two maps other => ?_⟩
      rcases (adds.mapsTo lba two).mp other with old | new
      · exact disj lba one two maps old
      · exact tidy.head_unmapped new.1 one (mapsTo_append.mpr (.inl maps))
    refine wp_imp (ih (reworked.able able) reworked.sound tidy_next) ?_
    rintro last after ⟨later, all⟩
    exact ⟨reworked.trans later, fun lba pba => (all lba pba).trans (mapped lba pba)⟩

variable {extent : Extent} {lba : Nat}

/-- The extent that covers a block, among those of the inode. -/
theorem takeCovering_some {before behind : List Extent}
    (found : takeCovering lba extents = some (before, extent, behind)) :
    extents = before ++ extent :: behind ∧ extent.Covers lba := by
  induction extents generalizing before with
  | nil => cases found
  | cons first rest ih =>
    unfold takeCovering at found
    split_ifs at found with covers
    · rw [Option.some.injEq, Prod.mk.injEq, Prod.mk.injEq] at found
      obtain ⟨rfl, rfl, rfl⟩ := found
      exact ⟨rfl, covers⟩
    · rw [Option.map_eq_some_iff] at found
      obtain ⟨⟨earlier, other, later⟩, inner, same⟩ := found
      rw [Prod.mk.injEq, Prod.mk.injEq] at same
      obtain ⟨rfl, rfl, rfl⟩ := same
      obtain ⟨split, covers⟩ := ih inner
      exact ⟨by rw [split, cons_append], covers⟩

theorem takeCovering_none (missing : takeCovering lba extents = none) :
    extents.find? (fun extent => decide (extent.Covers lba)) = none := by
  induction extents with
  | nil => rfl
  | cons first rest ih =>
    unfold takeCovering at missing
    split_ifs at missing with covers
    rw [find?_cons_of_neg (by simpa using covers)]
    exact ih (Option.map_eq_none_iff.mp missing)

/-- A mapping with one block moved. -/
structure Moves (target moved : Nat) (extents moving : List Extent) : Prop where
  tidy : Tidy moving
  mapsTo : ∀ logical physical, MapsTo moving logical physical ↔
    (logical = target ∧ physical = moved) ∨
      (logical ≠ target ∧ MapsTo extents logical physical)

variable {target moved : Nat}

theorem moves_of_around {moving rest : List Extent} (old_perm : extents.Perm (extent :: rest))
    (new_perm : moving.Perm (extent.around target moved ++ rest)) (tidy : Tidy extents)
    (covers : extent.Covers target) (moved_pos : 0 < moved) :
    Moves target moved extents moving := by
  have old_tidy := tidy.perm old_perm
  have around := mapsTo_around covers moved
  constructor
  · have pieces := tidy_around covers (old_tidy.nonzero extent mem_cons_self) moved_pos
    refine Tidy.perm (tidy_append.mpr ⟨pieces, old_tidy.sublist (sublist_cons_self _ _), ?_⟩)
      new_perm.symm
    intro lba one two maps
    refine old_tidy.head_unmapped ?_ two
    rcases (around lba one).mp maps with ⟨rfl, -⟩ | ⟨-, sends⟩
    · exact covers
    · exact sends.1
  · intro lba pba
    rw [mapsTo_perm new_perm, mapsTo_append, around, mapsTo_perm old_perm, mapsTo_cons]
    have elsewhere : MapsTo rest lba pba → lba ≠ target := by
      rintro maps rfl
      exact old_tidy.head_unmapped covers pba maps
    tauto

theorem around_single (covers : extent.Covers target) (single : extent.length = 1) :
    extent.around target moved = [{ extent with physicalStart := moved }] := by
  unfold Extent.Covers logicalEnd at covers
  have start : extent.logicalStart = target := by omega
  have off : target - extent.logicalStart = 0 := by omega
  unfold around
  rw [off]
  simp [single, start]

theorem insertSpilled_each {pieces : List Extent} (rooted : root ≠ 0)
    (views : Views root bindings store) (ordered : Assoc.Ordered bindings)
    (tidy : Tidy (pieces ++ bindings.map spilledExtent)) :
    wp (Run.each pieces (insertSpilled operations))
      (fun _ next => ∃ inserted, Views root inserted next ∧ Settled root store next ∧
        Assoc.Ordered inserted ∧
        (inserted.map spilledExtent).Perm (pieces ++ bindings.map spilledExtent))
      never store := by
  induction pieces generalizing bindings store with
  | nil => exact ⟨bindings, views, .handle store _ store.handle, ordered, .refl _⟩
  | cons piece rest ih =>
    have beside := tidy.sublist ((sublist_append_right rest _).cons_cons piece)
    have perm := withSpilled_fresh ordered beside
    have rest_perm : (rest ++ (withSpilled piece bindings).map spilledExtent).Perm
        (piece :: rest ++ bindings.map spilledExtent) :=
      (perm.append_left rest).trans perm_middle
    unfold Run.each
    refine wp_seq (views.change rooted _) ?_
    rintro _ next ⟨after, settled⟩
    refine wp_imp (ih after (ordered.insert _ _) (tidy.perm rest_perm.symm)) ?_
    rintro _ last ⟨inserted, after_all, later, sorted, all⟩
    exact ⟨inserted, after_all, settled.trans later (.inl rfl), sorted, all.trans rest_perm⟩

theorem SpillStore.Views.removeWithAlloc (rooted : root ≠ 0) (views : Views root bindings store)
    (key : Nat) :
    wp (operations.removeWithAlloc key)
      (fun _ next => Views root (erase key bindings) next ∧ Settled root store next)
      never store := by
  show wp (SpillStore.reading _ >>= _) _ _ _
  rw [wp_bind, wp_of_eq (views.reading _)]
  exact wp_seq (views.change rooted (erase key)) (fun _ _ done => done)

/-- The covering entry of the tree is replaced; there is one, if the block is mapped. -/
theorem remapSpilled_moves (sound : inode.Sound store)
    (inline : inode.extents.find? (fun extent => decide (extent.Covers target)) = none)
    (moved_pos : 0 < moved) : wp (remapSpilled operations inode target moved)
      (fun result next => Reworked inode store result next ∧
        Moves target moved (inode.allExtents store) (result.allExtents next))
      (fun _ => inode.blockOf store target = 0) store := by
  unfold remapSpilled
  split_ifs with rootless
  · show inode.blockOf store target = 0
    unfold Inode.blockOf
    rw [inline]
    exact if_pos rootless
  · obtain ⟨bindings, read, ordered⟩ := sound.tree rootless
    have looked_up : inode.blockOf store target = spilledBlock target (floor target bindings) := by
      unfold Inode.blockOf
      rw [inline, read]
      exact if_neg rootless
    have extents := Inode.allExtents_of_read rootless read
    have views : Views inode.spillExtentRoot bindings
        { store with handle := inode.spillExtentRoot } := ⟨rfl, read⟩
    rw [looked_up, wp_bind]
    refine wp_modify.mpr ?_
    rw [wp_bind, wp_of_eq (views.lookupFloor _)]
    cases found : floor target bindings with
    | none => exact rfl
    | some binding =>
      have floor := mem_of_floor found
      dsimp only
      split_ifs with below
      · have covers : (spilledExtent binding).Covers target := ⟨floor.2, below⟩
        have erased := erase_spilled_perm ordered floor.1
        have old_perm : (inode.allExtents store).Perm (spilledExtent binding ::
            (inode.extents ++ (erase binding.1 bindings).map spilledExtent)) := by
          rw [extents]
          exact (erased.append_left inode.extents).trans perm_middle
        have pieces_tidy : Tidy ((spilledExtent binding).around target moved ++
            (erase binding.1 bindings).map spilledExtent) := by
          have spilled := (extents ▸ sound.tidy : Tidy (inode.extents ++ _)).sublist
            (sublist_append_right _ _)
          exact (moves_of_around erased (.refl _) spilled covers moved_pos).tidy
        rw [wp_bind]
        refine wp_total (views.removeWithAlloc rootless binding.1) ?_
        rintro _ next ⟨removed, settled⟩
        rw [wp_bind]
        refine wp_total (insertSpilled_each rootless removed (ordered.erase _) pieces_tidy) ?_
        rintro _ last ⟨inserted, views, later, sorted, all⟩
        have new_perm : (inode.allExtents last).Perm ((spilledExtent binding).around target moved
            ++ (inode.extents ++ (erase binding.1 bindings).map spilledExtent)) := by
          rw [Inode.allExtents_of_read rootless views.read, ← append_assoc]
          exact (all.append_left inode.extents).trans (by
            rw [← append_assoc]
            exact perm_append_comm.append_right _)
        have moves := moves_of_around old_perm new_perm sound.tidy covers moved_pos
        refine ⟨.spilled ⟨moves.tidy, sound.room, fun _ => ⟨inserted, views.read, sorted⟩⟩ ?_
          rootless, moves⟩
        exact ((Settled.handle store _ _).trans settled (.inl rfl)).trans later (.inl rfl)
      · show spilledBlock target (some binding) = 0
        exact if_neg below

theorem remapBlock_moves (able : inode.Able store) (sound : inode.Sound store) (target : Nat)
    (moved_pos : 0 < moved) : wp (remapBlock operations inode target moved)
      (fun result next => Reworked inode store result next ∧
        Moves target moved (inode.allExtents store) (result.allExtents next))
      (fun _ => inode.blockOf store target = 0) store := by
  unfold remapBlock
  cases found : takeCovering target inode.extents with
  | none => exact remapSpilled_moves sound (takeCovering_none found) moved_pos
  | some parts =>
    obtain ⟨before, extent, behind⟩ := parts
    obtain ⟨split, covers⟩ := takeCovering_some found
    have rebuilt : ∀ extents, { inode with extents := extents }.allExtents store =
        extents ++ { inode with extents := [] }.allExtents store := fun extents => rfl
    have old_perm : (inode.allExtents store).Perm (extent :: (before ++ behind ++
        { inode with extents := [] }.allExtents store)) := by
      show (inode.extents ++ _).Perm _
      rw [split]
      exact perm_middle.append_right _
    dsimp only
    split_ifs with single
    · have new_perm : ({ inode with extents := before ++
          { extent with physicalStart := moved } :: behind }.allExtents store).Perm
          (extent.around target moved ++ (before ++ behind ++
            { inode with extents := [] }.allExtents store)) := by
        rw [rebuilt, around_single covers single]
        exact perm_middle.append_right _
      have moves := moves_of_around old_perm new_perm sound.tidy covers moved_pos
      refine ⟨.inline sound ?_ moves.tidy, moves⟩
      have room := sound.room
      rw [split, length_append, length_cons] at room
      rwa [length_append, length_cons]
    · have emptied : { inode with extents := [] }.Sound store := by
        refine ⟨?_, Nat.zero_le _, sound.tree⟩
        exact (sound.tidy.perm old_perm).sublist
          ((sublist_append_right _ _).trans (sublist_cons_self _ _))
      have new_perm : (before ++ behind ++ extent.around target moved ++
          { inode with extents := [] }.allExtents store).Perm (extent.around target moved ++
            (before ++ behind ++ { inode with extents := [] }.allExtents store)) := by
        rw [← append_assoc]
        exact perm_append_comm.append_right _
      have moves := moves_of_around old_perm new_perm sound.tidy covers moved_pos
      refine wp_total
        (@addExtents_adds { inode with extents := [] } store able emptied _ moves.tidy) ?_
      rintro result next ⟨reworked, all⟩
      refine ⟨{ reworked with }, reworked.sound.tidy, fun lba pba => ?_⟩
      exact (all lba pba).trans (moves.mapsTo lba pba)

/-- `remap_block` takes the offset into each inline extent before it asks whether the extent
covers the block: behind the block there is none. -/
def offsetUnderflows (target : Nat) : List Extent → Bool
  | [] => false
  | extent :: rest =>
    if target < extent.logicalStart then true
    else if extent.Covers target then false
    else offsetUnderflows target rest

theorem offsetUnderflows_eq_false_iff {target : Nat} {extents : List Extent} :
    offsetUnderflows target extents = false ↔
      ∀ extent ∈ extents.takeWhile (fun extent => ¬ extent.Covers target),
        extent.logicalStart ≤ target := by
  induction extents with
  | nil => simp [offsetUnderflows]
  | cons extent rest ih =>
    unfold offsetUnderflows
    by_cases covers : extent.Covers target
    · have starts : ¬ target < extent.logicalStart := not_lt.mpr covers.1
      simp [covers, starts]
    · simp [covers, ih]

/-- One block is redirected, and no offset on the way underflows. -/
structure Redirects (inode : Inode) (store : SpillStore) (target moved : Nat) (result : Inode)
    (next : SpillStore) : Prop where
  there : (getPhysicalBlock operations result target next).1 = some moved
  others : ∀ logical, logical ≠ target → (getPhysicalBlock operations result logical next).1 =
    (getPhysicalBlock operations inode logical store).1
  disjoint : (result.allExtents next).Pairwise Extent.Apart
  offsets : offsetUnderflows target inode.extents = false

theorem getPhysicalBlock_fst (sound : inode.Sound store) (lba : Nat) :
    (getPhysicalBlock operations inode lba store).1 = some (inode.blockOf store lba) := by
  obtain ⟨_, next, returned, rfl, -⟩ := returns_of_wp (getPhysicalBlock_spec sound lba)
  rw [returned]

/-- Elsewhere lookup finds what it found. -/
theorem Moves.blockOf {result : Inode} {next : SpillStore}
    (moves : Moves target moved (inode.allExtents store) (result.allExtents next))
    (before : inode.Sound store) (after : result.Sound next) (elsewhere : lba ≠ target) :
    result.blockOf next lba = inode.blockOf store lba := by
  have same : ∀ pba, MapsTo (result.allExtents next) lba pba ↔
      MapsTo (inode.allExtents store) lba pba := by
    intro pba
    rw [moves.mapsTo]
    tauto
  by_cases hole : inode.blockOf store lba = 0
  · by_contra found
    rw [hole] at found
    have maps := (same _).mp (Inode.mapsTo_blockOf found)
    exact (before.mapsTo_iff.mp maps).1.ne' ((before.blockOf_eq maps).symm.trans hole)
  · exact after.blockOf_eq ((same _).mpr (Inode.mapsTo_blockOf hole))

/-- A mapped block is redirected alone if and only if no inline extent before the one that covers it
starts behind it. -/
theorem remapBlock_redirects_iff (able : inode.Able store) (sound : inode.Sound store)
    {target physical moved : Nat} (mapped : MapsTo (inode.allExtents store) target physical)
    (moved_pos : 0 < moved) :
    (∃ result next, remapBlock operations inode target moved store = (some result, next) ∧
      Redirects inode store target moved result next) ↔
        ∀ extent ∈ inode.extents.takeWhile (fun extent => ¬ extent.Covers target),
          extent.logicalStart ≤ target := by
  rw [← offsetUnderflows_eq_false_iff]
  have found : inode.blockOf store target ≠ 0 := by
    obtain ⟨pos, looked_up⟩ := sound.mapsTo_iff.mp mapped
    rw [looked_up]
    exact pos.ne'
  obtain ⟨result, next, returned, reworked, moves⟩ := returns_of_wp
    (wp_mono (remapBlock_moves able sound target moved_pos) (fun _ _ done => done)
      fun _ hole => found hole)
  constructor
  · rintro ⟨_, _, -, redirects⟩
    exact redirects.offsets
  · intro offsets
    refine ⟨result, next, returned, ?_, fun logical elsewhere => ?_, reworked.sound.tidy.apart,
      offsets⟩
    · rw [getPhysicalBlock_fst reworked.sound]
      exact congrArg some (reworked.sound.blockOf_eq ((moves.mapsTo _ _).mpr (.inl ⟨rfl, rfl⟩)))
    · rw [getPhysicalBlock_fst reworked.sound, getPhysicalBlock_fst sound,
        moves.blockOf sound reworked.sound elsewhere]

/-- A volume whose inodes have no spilled extents. -/
def inlineOnly : SpillStore := ⟨fun _ => none, none, 0, 0, 0, (· + 1), 0⟩

theorem inlineOnly_fresh : inlineOnly.Fresh :=
  ⟨fun _ _ same => Nat.succ.inj same, fun _ _ => ⟨Nat.succ_ne_zero _, rfl⟩⟩

theorem inline_sound (tidy : Tidy extents) (room : extents.length ≤ maxInlineExtents) :
    Inode.Sound ⟨1, 0, 0, extents, 0⟩ inlineOnly :=
  ⟨by rwa [Inode.allExtents_of_rootless rfl], room, absurd rfl⟩

/-- The second block of an extent of three is redirected. -/
theorem remapBlock_redirects_second : ∃ result next,
    remapBlock operations ⟨1, 0, 0, [⟨0, 20, 3⟩], 0⟩ 1 30 inlineOnly = (some result, next) ∧
      Redirects ⟨1, 0, 0, [⟨0, 20, 3⟩], 0⟩ inlineOnly 1 30 result next :=
  (remapBlock_redirects_iff (fun _ => ⟨rfl, inlineOnly_fresh⟩)
    (inline_sound ⟨by simp, by simp, by simp⟩ (by decide))
    ⟨⟨0, 20, 3⟩, mem_cons_self, by decide, rfl⟩ (by decide)).mpr (by decide)

/-- A file written from its end: the second extent covers block zero, the first starts at five. -/
theorem remapBlock_underflows :
    ¬ ∀ (inode : Inode) (store : SpillStore) (target physical moved : Nat),
    inode.Able store → inode.Sound store → MapsTo (inode.allExtents store) target physical →
      0 < moved → ∃ result next, remapBlock operations inode target moved store =
        (some result, next) ∧ Redirects inode store target moved result next := by
  intro redirects
  have sound : Inode.Sound ⟨1, 0, 0, [⟨5, 10, 1⟩, ⟨0, 20, 1⟩], 0⟩ inlineOnly :=
    inline_sound ⟨by simp [Extent.Apart, Extent.Covers, Extent.logicalEnd]; omega, by simp, by simp⟩
    (by decide)
  obtain ⟨_, _, -, redirected⟩ := redirects _ _ 0 20 30 (fun _ => ⟨rfl, inlineOnly_fresh⟩) sound
    ⟨⟨0, 20, 1⟩, mem_cons_of_mem _ mem_cons_self, by decide, rfl⟩ (by decide)
  cases redirected.offsets

end LionFS.File
