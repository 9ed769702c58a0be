import LionFS.Cluster.Extents.Kept

/-!
# Kept extents stay sound

The invariant of a store and what is known of it, and what each call does to it.
Writing an extent keeps it. The cleaner is taken in two parts: the moves, which
are writes, and the freeing, which keeps what is recorded in another segment.
-/
namespace LionFS.Cluster.Extents
open Function (update_self update_apply update)
open LionFS Ranges List
variable {Hash : Type}

/-- Kept extents, free ranges and the space beyond the cursors are disjoint; kept extents read
back; what is recorded or handed out for a live hash is kept. -/
structure Sound (zstd : Zstd) (traced : Traced Hash) : Prop where
  small : traced.store.geo.zoneSize ≤ 2 ^ 32
  size : traced.store.geo.totalSize ≤ traced.store.device.len
  within : ∀ zone, traced.store.zoneCursors zone ≤ traced.store.geo.zoneSize
  free : ∀ zone, ∀ entry ∈ traced.store.freeLists zone,
    (span entry).2 ≤ traced.store.zoneCursors zone
  disjoint : ∀ zone, Disjoint (traced.store.freeLists zone)
  zoned : traced.store.Zoned
  plain : ∀ entry ∈ traced.store.recorded, entry.1.eccGroupId = 0
  below : ∀ entry ∈ traced.kept, entry.1.range.2 ≤ traced.store.zoneCursors entry.1.zoneId
  unfreed : ∀ entry ∈ traced.kept, ∀ range ∈ traced.store.freeLists entry.1.zoneId,
    Apart entry.1.range (span range)
  apart : ∀ entry ∈ traced.kept, ∀ other ∈ traced.kept, entry ≠ other →
    entry.1.zoneId = other.1.zoneId → Apart entry.1.range other.1.range
  reads : ∀ entry ∈ traced.kept, ∃ data, traced.content entry.2 = some data ∧
    traced.store.readExtent zstd entry.1 = some data
  short : ∀ hash data, traced.content hash = some data → data.length < 2 ^ 32
  /-- What is recorded for a live hash is kept. -/
  recorded : ∀ entry ∈ traced.store.recorded, 0 < traced.store.refcount entry.2 →
    entry ∈ traced.kept
  /-- What was handed out last for a live hash is kept. -/
  latest : ∀ hash extent, traced.latest hash = some extent → 0 < traced.store.refcount hash →
    (extent, hash) ∈ traced.kept

/-- What was handed out last for a live hash is recorded. -/
def Tracked (traced : Traced Hash) : Prop :=
  ∀ hash extent, traced.latest hash = some extent → 0 < traced.store.refcount hash →
    (extent, hash) ∈ traced.store.recorded

theorem sound_start (zstd : Zstd) {geo : Geometry} (small : geo.zoneSize ≤ 2 ^ 32) :
    Sound zstd (Traced.start geo : Traced Hash) where
  small := small
  size := le_refl _
  within := fun _ => Nat.zero_le _
  free := fun _ => forall_mem_nil _
  disjoint := fun _ => List.Pairwise.nil
  zoned := by
    intro _ _ present
    cases present
  plain := by
    intro entry mem
    rcases Store.mem_recorded.mp mem with ⟨_, _, _, present, _⟩ | ⟨_, among, _⟩
    · cases present
    · exact absurd among not_mem_nil
  below := forall_mem_nil _
  unfreed := forall_mem_nil _
  apart := forall_mem_nil _
  reads := forall_mem_nil _
  short := by
    intro _ _ known
    cases known
  recorded := by
    intro _ _ live
    exact absurd live (Nat.lt_irrefl 0)
  latest := by
    intro _ _ known
    cases known

variable {other : ExtentDescriptor × Hash} {zstd : Zstd} {data : Bytes} {hash : Hash}
  {extent : ExtentDescriptor}
section Wrote
variable {store next : Store Hash} (wrote : Wrote zstd store data hash extent next)
include wrote

theorem Wrote.mem_recorded :
    other ∈ next.recorded ↔ other = (extent, hash) ∨ other ∈ store.recorded := by
  obtain ⟨closing, closed, tracks⟩ := wrote.tracks
  rw [Store.mem_recorded, closed, tracks, Store.mem_recorded]

theorem Wrote.elsewhere {index : Nat} (mem : index < store.closedSegments.length) :
    next.Elsewhere index other ↔ other = (extent, hash) ∨ store.Elsewhere index other := by
  obtain ⟨closing, closed, tracks⟩ := wrote.tracks
  unfold Store.Elsewhere
  rw [closed, eraseIdx_append_of_lt_length mem, tracks]

theorem Wrote.length_le : store.closedSegments.length ≤ next.closedSegments.length := by
  obtain ⟨closing, closed, -⟩ := wrote.tracks
  rw [closed, length_append]
  exact Nat.le_add_right _ _

end Wrote

section Steps
variable {traced : Traced Hash}

/-- Soundness looks at which extents are kept, not at their order. -/
theorem Sound.congr_kept (sound : Sound zstd traced) {kept : List (ExtentDescriptor × Hash)}
    (same : ∀ entry, entry ∈ kept ↔ entry ∈ traced.kept) :
    Sound zstd { traced with kept := kept } :=
  { sound with
    below := fun entry mem => sound.below entry ((same entry).mp mem)
    unfreed := fun entry mem => sound.unfreed entry ((same entry).mp mem)
    apart := fun entry mem other among =>
      sound.apart entry ((same entry).mp mem) other ((same other).mp among)
    reads := fun entry mem => sound.reads entry ((same entry).mp mem)
    recorded := fun entry mem live => (same entry).mpr (sound.recorded entry mem live)
    latest := fun hash extent known live => (same _).mpr (sound.latest hash extent known live) }

/-- What is kept may be handed out. -/
theorem Sound.hand (sound : Sound zstd traced) {latest : Hash → Option ExtentDescriptor}
    (handed : ∀ hash extent, latest hash = some extent →
      (extent, hash) ∈ traced.kept ∨ traced.latest hash = some extent) :
    Sound zstd { traced with latest := latest } :=
  { sound with
    latest := by
      intro hash extent known live
      rcases handed hash extent known with kept | before
      · exact kept
      · exact sound.latest hash extent before live }

/-- What is known of the first loop of a cleaning. -/
structure Relocated (zstd : Zstd) (traced : Traced Hash)
    (entries : List (ExtentDescriptor × Hash)) (relocation : Relocation Hash) : Prop where
  /-- The store stays sound, with the moved extents kept. -/
  sound : Sound zstd (traced.relocated relocation)
  refcount : ∀ hash, relocation.store.refcount hash = traced.store.refcount hash
  geo : relocation.store.geo = traced.store.geo
  forward : ∀ zone, traced.store.zoneCursors zone ≤ relocation.store.zoneCursors zone
  /-- Free ranges are taken from, and none is added. -/
  part : ∀ zone, ∀ entry ∈ relocation.store.freeLists zone, ∃ source ∈ traced.store.freeLists zone,
    (span source).1 ≤ (span entry).1 ∧ (span entry).2 ≤ (span source).2
  length_le : traced.store.closedSegments.length ≤ relocation.store.closedSegments.length
  recorded : ∀ other, other ∈ relocation.store.recorded ↔
    other ∈ relocation.moves.map Prod.swap ∨ other ∈ traced.store.recorded
  /-- The moved extents are recorded elsewhere than in any closed segment there was. -/
  elsewhere : ∀ index < traced.store.closedSegments.length, ∀ other,
    relocation.store.Elsewhere index other ↔
      other ∈ relocation.moves.map Prod.swap ∨ traced.store.Elsewhere index other
  /-- When the loop goes through, every live extent was moved. -/
  moved : relocation.complete = true → ∀ entry ∈ entries, 0 < traced.store.refcount entry.2 →
    ∃ extent, (entry.2, extent) ∈ relocation.moves

theorem relocated_nil (sound : Sound zstd traced) (entries : List (ExtentDescriptor × Hash))
    {complete : Bool} (all : complete = true → entries = []) :
    Relocated zstd traced entries { moves := [], complete := complete, store := traced.store } where
  sound := sound
  refcount := fun _ => rfl
  geo := rfl
  forward := fun _ => le_refl _
  part := fun _ entry mem => ⟨entry, mem, le_refl _, le_refl _⟩
  length_le := le_refl _
  recorded := by
    intro other
    simp
  elsewhere := by
    intro index _ other
    simp
  moved := by
    intro whole entry mem
    rw [all whole] at mem
    exact absurd mem not_mem_nil

/-- One move and then the rest. -/
theorem Relocated.cons {entry : ExtentDescriptor × Hash} {rest : List (ExtentDescriptor × Hash)}
    {next : Store Hash} {later : Relocation Hash}
    (wrote : Wrote zstd traced.store data entry.2 extent next) (relocated : Relocated zstd
      { traced with store := next, kept := (extent, entry.2) :: traced.kept } rest later) :
    Relocated zstd traced (entry :: rest)
      { later with moves := (entry.2, extent) :: later.moves } where
  sound := by
    refine relocated.sound.congr_kept fun other => ?_
    unfold Traced.relocated
    simp only [map_cons, Prod.swap_prod_mk, mem_append, mem_cons, cons_append]
    tauto
  refcount := fun hash => (relocated.refcount hash).trans (congrFun wrote.refcounts hash)
  geo := relocated.geo.trans wrote.geo
  forward := by
    intro zone
    obtain ⟨middle, allocated, -, cursors⟩ := wrote.allocated
    have first := allocated.forward zone
    rw [← cursors] at first
    exact first.trans (relocated.forward zone)
  part := by
    intro zone entry mem
    obtain ⟨middle, allocated, lists, -⟩ := wrote.allocated
    obtain ⟨between, listed, low, high⟩ := relocated.part zone entry mem
    have listed' : between ∈ next.freeLists zone := listed
    rw [lists] at listed'
    obtain ⟨source, before, low', high'⟩ := allocated.part zone between listed'
    exact ⟨source, before, low'.trans low, high.trans high'⟩
  length_le := wrote.length_le.trans relocated.length_le
  recorded := by
    intro other
    rw [relocated.recorded other, wrote.mem_recorded, map_cons, mem_cons, Prod.swap_prod_mk]
    tauto
  elsewhere := by
    intro index inside other
    rw [relocated.elsewhere index (inside.trans_le wrote.length_le) other, wrote.elsewhere inside,
      map_cons, mem_cons, Prod.swap_prod_mk]
    tauto
  moved := by
    intro whole
    refine forall_mem_cons.mpr ⟨fun _ => ⟨extent, mem_cons_self⟩, fun other later' live => ?_⟩
    have counted : 0 < next.refcount other.2 := by
      unfold Store.refcount
      rw [wrote.refcounts]
      exact live
    obtain ⟨moved, found⟩ := relocated.moved whole other later' counted
    exact ⟨moved, mem_cons_of_mem _ found⟩

variable [DecidableEq Hash]

/-- A write that goes with the contents known changes none of them. -/
theorem Traced.FitsContent.known (fits : traced.FitsContent data hash) {other : Hash}
    {bytes : Bytes} (before : traced.content other = some bytes) :
    update traced.content hash (some data) other = some bytes := by
  refine Table.update_grows (fun found known => ?_) other bytes before
  rcases fits.2 with absent | present
  · rw [absent] at known
    cases known
  · rw [present] at known
    exact (Option.some.inj known).symm

theorem Sound.wrote {next : Store Hash} (sound : Sound zstd traced)
    (fits : traced.FitsContent data hash) (wrote : Wrote zstd traced.store data hash extent next) :
    Sound zstd
      { traced with
        store := next
        content := update traced.content hash (some data)
        kept := (extent, hash) :: traced.kept } := by
  obtain ⟨middle, allocated, lists, cursors⟩ := wrote.allocated
  have unused : ∀ entry ∈ traced.kept, entry.1.zoneId = extent.zoneId →
      Apart extent.range entry.1.range := by
    intro entry mem zone
    apply allocated.unused
    · rw [← zone]
      exact sound.below entry mem
    · rw [← zone]
      exact sound.unfreed entry mem
  refine
    { small := by rw [wrote.geo]; exact sound.small
      size := by rw [wrote.geo]; exact sound.size.trans wrote.len
      within := by rw [wrote.geo, cursors]; exact allocated.within
      free := ?_
      disjoint := by rw [lists]; exact allocated.disjoint
      zoned := wrote.zoned sound.zoned
      plain := ?_
      below := ?_
      unfreed := ?_
      apart := ?_
      reads := ?_
      short := ?_
      recorded := ?_
      latest := ?_ }
  · intro zone entry mem
    rw [lists] at mem
    rw [cursors]
    obtain ⟨source, before, -, high⟩ := allocated.part zone entry mem
    exact high.trans ((sound.free zone source before).trans (allocated.forward zone))
  · intro entry mem
    rcases wrote.mem_recorded.mp mem with same | before
    · rw [same]
      exact wrote.plain
    · exact sound.plain entry before
  · rw [cursors]
    refine forall_mem_cons.mpr ⟨allocated.below, fun entry before => ?_⟩
    exact (sound.below entry before).trans (allocated.forward _)
  · rw [lists]
    refine forall_mem_cons.mpr ⟨allocated.taken, fun entry before range listed => ?_⟩
    obtain ⟨source, free, low, high⟩ := allocated.part _ range listed
    exact ((sound.unfreed entry before source free).symm.part low high).symm
  · intro entry mem other among different zone
    rcases mem_cons.mp mem with new | before
    · rcases mem_cons.mp among with same | old
      · exact absurd (new.trans same.symm) different
      · rw [new] at zone ⊢
        exact unused other old zone.symm
    · rcases mem_cons.mp among with new | old
      · rw [new] at zone ⊢
        exact (unused entry before zone).symm
      · exact sound.apart entry before other old different zone
  · refine forall_mem_cons.mpr ⟨⟨data, update_self _ _ _, wrote.reads⟩, fun entry before => ?_⟩
    obtain ⟨bytes, content, read⟩ := sound.reads entry before
    refine ⟨bytes, fits.known content, ?_⟩
    rw [wrote.others entry.1 ((sound.below entry before).trans (sound.within _))
      fun zone => (unused entry before zone).symm]
    exact read
  · exact Table.forall_update fits.1 sound.short
  · intro entry mem live
    unfold Store.refcount at live
    rw [wrote.refcounts] at live
    rcases wrote.mem_recorded.mp mem with same | before
    · rw [same]
      exact mem_cons_self
    · exact mem_cons_of_mem _ (sound.recorded entry before live)
  · intro other handed announced live
    unfold Store.refcount at live
    rw [wrote.refcounts] at live
    exact mem_cons_of_mem _ (sound.latest other handed announced live)

theorem Sound.write (inverts : zstd.Inverts) (sound : Sound zstd traced)
    (fits : traced.FitsContent data hash) (compress : Bool) :
    Sound zstd (traced.write zstd data hash compress) := by
  unfold Traced.write
  rcases writeExtent_spec inverts sound.small sound.within sound.free sound.disjoint sound.size
      fits.1 hash compress with ⟨extent, next, written, wrote⟩ | full
  · rw [written]
    refine (sound.wrote fits wrote).hand ?_
    exact Table.forall_update (.inl mem_cons_self) fun _ _ known => .inr known
  · rw [full]
    exact sound

theorem Store.live_refcountAdd {store : Store Hash} {other : Hash} {delta : Int}
    (live : 0 < (store.refcountAdd hash delta).refcount other) :
    0 < store.refcount other ∨ other = hash ∧ store.refcount hash = 0 ∧ 0 < delta := by
  unfold Store.refcountAdd Store.refcount at *
  dsimp only at live
  rw [update_apply] at live
  split_ifs at live with same
  · rw [same]
    by_cases dead : store.refcounts hash = 0
    · exact .inr ⟨rfl, dead, by omega⟩
    · exact .inl (Nat.pos_of_ne_zero dead)
  · exact .inl live

/-- `refcount_add` keeps a store sound when it revives no extent that was freed. -/
theorem Sound.add (sound : Sound zstd traced) {delta : Int} (revives : traced.Revives hash delta) :
    Sound zstd (traced.add hash delta) :=
  { sound with
    recorded := by
      intro entry mem live
      rcases Store.live_refcountAdd live with before | ⟨same, dead, rises⟩
      · exact sound.recorded entry mem before
      · exact (revives dead rises).1 entry mem same
    latest := by
      intro other extent known live
      rcases Store.live_refcountAdd live with before | ⟨same, dead, rises⟩
      · exact sound.latest other extent known before
      · have handed : traced.latest hash = some extent := by rw [← same]; exact known
        have tracked := (revives dead rises).2 extent handed
        rw [same]
        exact (revives dead rises).1 _ tracked rfl }

/-- The first loop of a cleaning, over extents that are recorded. -/
theorem Sound.relocate (inverts : zstd.Inverts) {entries : List (ExtentDescriptor × Hash)}
    (sound : Sound zstd traced) (recorded : ∀ entry ∈ entries, entry ∈ traced.store.recorded) :
    Relocated zstd traced entries (relocate zstd entries traced.store) := by
  induction entries generalizing traced with
  | nil => exact relocated_nil sound [] fun _ => rfl
  | cons entry rest ih =>
    have others := forall_mem_of_forall_mem_cons recorded
    have here := recorded entry mem_cons_self
    unfold Extents.relocate
    split_ifs with dead striped
    · have relocated := ih sound others
      exact
        { relocated with
          moved := fun whole =>
            forall_mem_cons.mpr ⟨fun live => absurd dead live.ne', relocated.moved whole⟩ }
    · exact absurd (sound.plain entry here) striped
    · have kept := sound.recorded entry here (Nat.pos_of_ne_zero dead)
      obtain ⟨data, content, read⟩ := sound.reads entry kept
      have short := sound.short entry.2 data content
      rw [read]
      dsimp only
      rcases writeExtent_spec inverts sound.small sound.within sound.free sound.disjoint
          sound.size short entry.2 false with ⟨extent, next, written, wrote⟩ | full
      · rw [written]
        have written' := sound.wrote ⟨short, .inr content⟩ wrote
        have same : update traced.content entry.2 (some data) = traced.content := by
          rw [← content, Function.update_eq_self]
        rw [same] at written'
        refine Relocated.cons wrote (ih written' fun other mem => ?_)
        exact wrote.mem_recorded.mpr (.inr (others other mem))
      · rw [full]
        exact relocated_nil sound _ fun no => absurd no Bool.false_ne_true

end Steps
end LionFS.Cluster.Extents
