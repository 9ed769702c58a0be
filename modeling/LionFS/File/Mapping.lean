import LionFS.File.Extents
import Mathlib.Data.List.Perm.Basic

/-!
# The block mapping that extents stand for

A list of extents sends logical blocks to physical ones. When the extents are
apart from each other, lookup finds the one that covers a block, wherever it is
kept, and adding or redirecting changes the mapping at the named blocks only.
The laws are about lists of extents up to order; the inode and its extent tree
hold such a list in two parts.
-/
namespace LionFS.File
open Run List Assoc SpillStore Extent

/-- An extent sends a logical block to a physical one. -/
def Extent.Sends (extent : Extent) (logical physical : Nat) : Prop :=
  extent.Covers logical ∧ extent.block logical = physical

/-- Two extents have no logical block in common. -/
def Extent.Apart (first second : Extent) : Prop :=
  ∀ logical, first.Covers logical → ¬ second.Covers logical

theorem Extent.Apart.symm {first second : Extent} (apart : first.Apart second) :
    second.Apart first :=
  fun logical covers other => apart logical other covers

instance : Std.Symm Extent.Apart := ⟨fun _ _ apart => apart.symm⟩

/-- Some extent of a list sends a logical block to a physical one. -/
def MapsTo (extents : List Extent) (logical physical : Nat) : Prop :=
  ∃ extent ∈ extents, extent.Sends logical physical

/-- Extents that are a mapping: not empty, not on block zero, and apart. -/
structure Tidy (extents : List Extent) : Prop where
  apart : extents.Pairwise Extent.Apart
  positive : ∀ extent ∈ extents, 0 < extent.length
  /-- None begins at block zero, which stands for a hole. -/
  nonzero : ∀ extent ∈ extents, 0 < extent.physicalStart

variable {logical physical : Nat}

theorem mapsTo_nil : ¬ MapsTo [] logical physical := by
  simp [MapsTo]

variable {extent : Extent} {rest : List Extent}

theorem mapsTo_cons :
    MapsTo (extent :: rest) logical physical ↔
      extent.Sends logical physical ∨ MapsTo rest logical physical := by
  simp [MapsTo]

variable {first second : List Extent}

theorem mapsTo_append :
    MapsTo (first ++ second) logical physical ↔
      MapsTo first logical physical ∨ MapsTo second logical physical := by
  simp only [MapsTo, mem_append, or_and_right, exists_or]

theorem mapsTo_perm (perm : first.Perm second) :
    MapsTo first logical physical ↔ MapsTo second logical physical := by
  unfold MapsTo
  simp only [perm.mem_iff]

variable {extents : List Extent}

theorem mapsTo_of_covers (mem : extent ∈ extents) (covers : extent.Covers logical) :
    MapsTo extents logical (extent.block logical) :=
  ⟨extent, mem, covers, rfl⟩

theorem Tidy.perm (tidy : Tidy first) (perm : first.Perm second) : Tidy second := by
  constructor
  · exact perm.pairwise tidy.apart fun apart => apart.symm
  · exact fun extent mem => tidy.positive extent (perm.mem_iff.mpr mem)
  · exact fun extent mem => tidy.nonzero extent (perm.mem_iff.mpr mem)

theorem Tidy.sublist (tidy : Tidy second) (sublist : first.Sublist second) : Tidy first := by
  constructor
  · exact tidy.apart.sublist sublist
  · exact fun extent mem => tidy.positive extent (sublist.subset mem)
  · exact fun extent mem => tidy.nonzero extent (sublist.subset mem)

theorem tidy_nil : Tidy [] := by
  constructor
  · exact List.Pairwise.nil
  · intro extent mem
    cases mem
  · intro extent mem
    cases mem

/-- An extent whose blocks are not mapped may be added. -/
theorem Tidy.cons (tidy : Tidy rest) (pos : 0 < extent.length) (nonzero : 0 < extent.physicalStart)
    (unmapped : ∀ logical physical, extent.Covers logical → ¬ MapsTo rest logical physical) :
    Tidy (extent :: rest) := by
  constructor
  · refine pairwise_cons.mpr ⟨fun other mem logical own covers => ?_, tidy.apart⟩
    exact unmapped logical _ own (mapsTo_of_covers mem covers)
  · exact forall_mem_cons.mpr ⟨pos, tidy.positive⟩
  · exact forall_mem_cons.mpr ⟨nonzero, tidy.nonzero⟩

/-- The blocks of an extent are mapped by no other one. -/
theorem Tidy.head_unmapped (tidy : Tidy (extent :: rest)) (covers : extent.Covers logical)
    (physical : Nat) : ¬ MapsTo rest logical physical := by
  rintro ⟨other, mem, sends, -⟩
  exact (pairwise_cons.mp tidy.apart).1 other mem logical covers sends

/-- A logical block is mapped to one physical block only. -/
theorem Tidy.functional (tidy : Tidy extents) {first second : Nat}
    (one : MapsTo extents logical first) (two : MapsTo extents logical second) :
    first = second := by
  obtain ⟨extent, mem, covers, rfl⟩ := one
  obtain ⟨other, other_member, other_covers, rfl⟩ := two
  by_cases same : extent = other
  · rw [same]
  · have apart := tidy.apart.forall mem other_member same
    exact absurd other_covers (apart logical covers)

/-- No block is mapped to block zero. -/
theorem Tidy.pos_of_mapsTo (tidy : Tidy extents) (maps : MapsTo extents logical physical) :
    0 < physical := by
  obtain ⟨extent, mem, -, rfl⟩ := maps
  have start := tidy.nonzero extent mem
  unfold block
  omega

theorem Extent.Adjoins.sends {first second : Extent} (adjoins : first.Adjoins second)
    (logical physical : Nat) :
    (first.join second).Sends logical physical ↔
      first.Sends logical physical ∨ second.Sends logical physical := by
  obtain ⟨logically, physically⟩ := adjoins
  unfold logicalEnd at logically
  unfold physicalEnd at physically
  unfold Extent.Sends Extent.Covers block logicalEnd join
  dsimp only
  omega

/-- Two lists of extents are a mapping when each is one and they map no block in common. -/
theorem tidy_append :
    Tidy (first ++ second) ↔ Tidy first ∧ Tidy second ∧
      ∀ logical one two, MapsTo first logical one → ¬ MapsTo second logical two := by
  constructor
  · intro tidy
    refine ⟨tidy.sublist (sublist_append_left _ _), tidy.sublist (sublist_append_right _ _), ?_⟩
    rintro logical one two ⟨extent, mem, covers, -⟩ ⟨other, other_member, other_covers, -⟩
    exact (pairwise_append.mp tidy.apart).2.2 extent mem other other_member logical covers
      other_covers
  · rintro ⟨left, right, disj⟩
    constructor
    · refine pairwise_append.mpr ⟨left.apart, right.apart, ?_⟩
      intro extent mem other other_member logical covers other_covers
      exact disj logical _ _ (mapsTo_of_covers mem covers)
        (mapsTo_of_covers other_member other_covers)
    · intro extent mem
      exact (mem_append.mp mem).elim (left.positive extent) (right.positive extent)
    · intro extent mem
      exact (mem_append.mp mem).elim (left.nonzero extent) (right.nonzero extent)

variable {pieces : Extent → List Extent}

theorem mapsTo_flatMap : MapsTo (extents.flatMap pieces) logical physical ↔
      ∃ extent ∈ extents, MapsTo (pieces extent) logical physical := by
  constructor
  · rintro ⟨piece, mem, sends⟩
    obtain ⟨extent, inside, among⟩ := mem_flatMap.mp mem
    exact ⟨extent, inside, piece, among, sends⟩
  · rintro ⟨extent, inside, piece, among, sends⟩
    exact ⟨piece, mem_flatMap.mpr ⟨extent, inside, among⟩, sends⟩

theorem Tidy.flatMap (tidy : Tidy extents) (each : ∀ extent ∈ extents, Tidy (pieces extent) ∧
      ∀ logical physical, MapsTo (pieces extent) logical physical → extent.Covers logical) :
    Tidy (extents.flatMap pieces) := by
  induction extents with
  | nil => exact tidy_nil
  | cons extent rest ih =>
    rw [flatMap_cons]
    refine tidy_append.mpr ⟨(each extent mem_cons_self).1, ?_, ?_⟩
    · exact ih (tidy.sublist (sublist_cons_self _ _)) (forall_mem_cons.mp each).2
    · intro logical one two first second
      obtain ⟨other, mem, maps⟩ := mapsTo_flatMap.mp second
      have own := (each extent mem_cons_self).2 logical one first
      have covers := (each other (mem_cons_of_mem _ mem)).2 logical two maps
      exact tidy.head_unmapped own _ (mapsTo_of_covers mem covers)

variable {target : Nat}

/-- The pieces around a redirected block send it to its new place and the others where they
were. -/
theorem mapsTo_around (covers : extent.Covers target) (moved logical physical : Nat) :
    MapsTo (extent.around target moved) logical physical ↔
      (logical = target ∧ physical = moved) ∨
        (logical ≠ target ∧ extent.Sends logical physical) := by
  unfold Extent.Covers logicalEnd at covers
  unfold around
  simp only [mapsTo_append]
  split_ifs <;>
    simp only [mapsTo_cons, mapsTo_nil, or_false, false_or, Extent.Sends, Extent.Covers,
      logicalEnd, block] <;>
    omega

/-- The pieces around a redirected block are tidy. -/
theorem tidy_around {moved : Nat} (covers : extent.Covers target)
    (nonzero : 0 < extent.physicalStart) (moved_pos : 0 < moved) :
    Tidy (extent.around target moved) := by
  unfold Extent.Covers logicalEnd at covers
  have each : ∀ piece ∈ extent.around target moved, 0 < piece.length ∧ 0 < piece.physicalStart := by
    unfold around
    dsimp only
    split_ifs <;>
      simp only [nil_append, append_nil, cons_append, mem_cons, not_mem_nil, or_false,
        forall_eq_or_imp, forall_eq] <;>
      omega
  refine ⟨?_, fun piece mem => (each piece mem).1, fun piece mem => (each piece mem).2⟩
  · have ascending : (extent.around target moved).Pairwise
        fun first second => first.logicalEnd ≤ second.logicalStart := by
      unfold around
      dsimp only
      split_ifs <;>
        simp only [nil_append, append_nil, cons_append, pairwise_cons,
          mem_cons, not_mem_nil, or_false, forall_eq_or_imp, forall_eq, false_imp_iff,
          implies_true, and_true, List.Pairwise.nil, logicalEnd] <;>
        omega
    refine ascending.imp fun {first second} before logical covers other => ?_
    unfold Extent.Covers at covers other
    omega

/-- The extents of an inode, in the inode and in its tree, are a mapping that can be read. -/
structure Inode.Sound (inode : Inode) (store : SpillStore) : Prop where
  tidy : Tidy (inode.allExtents store)
  room : inode.extents.length ≤ maxInlineExtents
  tree : inode.spillExtentRoot ≠ 0 → ∃ bindings,
    store.read inode.spillExtentRoot = some bindings ∧ Assoc.Ordered bindings

/-- Where lookup finds a logical block; zero for a hole. -/
def Inode.blockOf (inode : Inode) (store : SpillStore) (logical : Nat) : Nat :=
  match inode.extents.find? fun extent => decide (extent.Covers logical) with
  | some extent => extent.block logical
  | none =>
    if inode.spillExtentRoot = 0 then 0
    else
      spilledBlock logical
        (floor logical ((store.read inode.spillExtentRoot).getD []))

variable {store : SpillStore} {inode : Inode} {bindings : List (Nat × ExtentTreeValue)}

theorem Inode.allExtents_of_read (rooted : inode.spillExtentRoot ≠ 0)
    (read : store.read inode.spillExtentRoot = some bindings) :
    inode.allExtents store = inode.extents ++ bindings.map spilledExtent := by
  unfold Inode.allExtents
  rw [if_neg rooted, read]
  rfl

theorem Inode.allExtents_of_rootless (rootless : inode.spillExtentRoot = 0) :
    inode.allExtents store = inode.extents := by
  unfold Inode.allExtents
  rw [if_pos rootless, append_nil]

theorem floor_of_covers (ordered : Assoc.Ordered bindings)
    (tidy : Tidy (bindings.map spilledExtent)) {binding : Nat × ExtentTreeValue}
    (mem : binding ∈ bindings) (covers : (spilledExtent binding).Covers logical) :
    floor logical bindings = some binding := by
  obtain ⟨found, is_floor, above⟩ := le_floor ordered mem covers.1
  have found_member := mem_of_floor is_floor
  have same : spilledExtent binding = spilledExtent found := by
    by_contra ne
    have apart := tidy.apart.forall (mem_map_of_mem mem) (mem_map_of_mem found_member.1) ne
    have pos := tidy.positive _ (mem_map_of_mem found_member.1)
    have end_lt := covers.2
    have found_le := found_member.2
    refine apart found.1 ⟨above, ?_⟩ ⟨le_rfl, ?_⟩
    · omega
    · show found.1 < found.1 + found.2.length
      have length_pos : 0 < found.2.length := pos
      omega
  rw [is_floor]
  have key_eq : binding.1 = found.1 := congrArg logicalStart same
  have value_eq : binding.2 = found.2 := by
    have first := find_of_mem ordered.nodup mem
    have second := find_of_mem ordered.nodup found_member.1
    rw [key_eq, second, Option.some.injEq] at first
    exact first.symm
  rw [Option.some.injEq]
  exact Prod.ext key_eq.symm value_eq.symm

theorem Inode.mapsTo_blockOf (found : inode.blockOf store logical ≠ 0) :
    MapsTo (inode.allExtents store) logical (inode.blockOf store logical) := by
  unfold Inode.blockOf at found ⊢
  cases inline : inode.extents.find? fun extent => decide (extent.Covers logical) with
  | some extent =>
    have covers := find?_some inline
    have mem := mem_of_find?_eq_some inline
    exact ⟨extent, mem_append_left _ mem, by simpa using covers, rfl⟩
  | none =>
    simp only [inline] at found ⊢
    split_ifs at found ⊢ with rootless
    · exact absurd rfl found
    · cases is_floor : floor logical ((store.read inode.spillExtentRoot).getD []) with
      | none =>
        rw [is_floor] at found
        exact absurd rfl found
      | some binding =>
        rw [is_floor] at found
        have mem := mem_of_floor is_floor
        unfold spilledBlock at found ⊢
        dsimp only at found ⊢
        split_ifs at found ⊢ with inside
        · refine ⟨spilledExtent binding, ?_, ⟨mem.2, inside⟩, rfl⟩
          unfold Inode.allExtents
          rw [if_neg rootless]
          exact mem_append_right _ (mem_map_of_mem mem.1)
        · exact absurd rfl found

theorem Inode.Sound.blockOf_eq (sound : inode.Sound store)
    (maps : MapsTo (inode.allExtents store) logical physical) :
    inode.blockOf store logical = physical := by
  have found : inode.blockOf store logical ≠ 0 := by
    unfold Inode.blockOf
    cases inline : inode.extents.find? fun extent => decide (extent.Covers logical) with
    | some extent =>
      have covers : extent.Covers logical := by simpa using find?_some inline
      have mem := mem_of_find?_eq_some inline
      have inline_maps : MapsTo (inode.allExtents store) logical (extent.block logical) :=
        mapsTo_of_covers (mem_append_left _ mem) covers
      exact (sound.tidy.pos_of_mapsTo inline_maps).ne'
    | none =>
      obtain ⟨extent, mem, sends⟩ := maps
      have not_inline : extent ∉ inode.extents := by
        intro inside
        have uncovered := find?_eq_none.mp inline extent inside
        exact uncovered (by simpa using sends.1)
      by_cases rootless : inode.spillExtentRoot = 0
      · rw [Inode.allExtents_of_rootless rootless] at mem
        exact absurd mem not_inline
      · obtain ⟨bindings, read, ordered⟩ := sound.tree rootless
        have tidy := sound.tidy
        rw [Inode.allExtents_of_read rootless read] at mem tidy
        have spilled := (mem_append.mp mem).resolve_left not_inline
        obtain ⟨binding, bound, rfl⟩ := mem_map.mp spilled
        have is_floor := floor_of_covers ordered (tidy.sublist (sublist_append_right _ _))
          bound sends.1
        simp only [rootless, ↓reduceIte, read, Option.getD_some, is_floor, spilledBlock]
        rw [if_pos sends.1.2]
        exact (tidy.pos_of_mapsTo ⟨_, mem, sends.1, rfl⟩).ne'
  exact sound.tidy.functional (Inode.mapsTo_blockOf found) maps

/-- A block is mapped exactly where lookup finds it. -/
theorem Inode.Sound.mapsTo_iff (sound : inode.Sound store) :
    MapsTo (inode.allExtents store) logical physical ↔
      0 < physical ∧ inode.blockOf store logical = physical := by
  constructor
  · intro maps
    exact ⟨sound.tidy.pos_of_mapsTo maps, sound.blockOf_eq maps⟩
  · rintro ⟨pos, rfl⟩
    exact Inode.mapsTo_blockOf pos.ne'

/-- `get_physical_block` looks the block up and changes nothing but the handle. -/
theorem getPhysicalBlock_spec (sound : inode.Sound store) (logical : Nat) :
    wp (getPhysicalBlock operations inode logical)
      (fun physical next => physical = inode.blockOf store logical ∧
        ∃ handle, next = { store with handle := handle })
      never store := by
  unfold getPhysicalBlock Inode.blockOf
  cases inline : inode.extents.find? fun extent => decide (extent.Covers logical) with
  | some extent => exact ⟨rfl, store.handle, rfl⟩
  | none =>
    dsimp only
    split_ifs with rootless
    · exact ⟨rfl, store.handle, rfl⟩
    · obtain ⟨bindings, read, -⟩ := sound.tree rootless
      have opened : SpillStore.read { store with handle := inode.spillExtentRoot }
          inode.spillExtentRoot = some bindings := read
      rw [wp_bind]
      refine wp_modify.mpr ?_
      rw [wp_bind]
      have looked : operations.lookupFloor logical
          { store with handle := inode.spillExtentRoot } =
            (some (floor logical bindings), { store with handle := inode.spillExtentRoot }) := by
        show reading _ _ = _
        unfold reading
        rw [opened]
        rfl
      rw [wp_of_eq looked, read]
      exact ⟨rfl, inode.spillExtentRoot, rfl⟩

end LionFS.File
