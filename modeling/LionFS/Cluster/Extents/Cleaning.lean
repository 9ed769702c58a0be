import LionFS.Cluster.Extents.Sound

/-!
# Cleaning a segment

What cleaning frees of a segment is apart from every live extent recorded in
another segment, and what was recorded in the segment itself has been moved. So
a cleaning keeps a store sound when the ranges it frees are in use, and keeps
track of the extents handed out.
-/
namespace LionFS.Cluster.Extents
open LionFS Ranges List Function
variable {Hash : Type}

/-- `swap_remove` keeps the elements at the other positions. -/
theorem mem_swapRemove {α : Type} {list : List α} {index : Nat} (mem : index < list.length)
    {item : α} : item ∈ swapRemove list index ↔ item ∈ list.eraseIdx index := by
  obtain ⟨init, last, rfl⟩ : ∃ init last, list = init ++ [last] := by
    refine ⟨list.dropLast, list.getLast ?_, (dropLast_append_getLast _).symm⟩
    intro empty
    rw [empty] at mem
    exact Nat.not_lt_zero _ mem
  have removed : swapRemove (init ++ [last]) index =
      ((init ++ [last]).set index last).dropLast := by
    unfold swapRemove
    rw [getLast?_concat]
  rw [removed]
  by_cases final : index = init.length
  · rw [final, set_append_right _ _ (le_refl _), Nat.sub_self, set_cons_zero, dropLast_concat,
      eraseIdx_append_of_length_le (le_refl _), Nat.sub_self, eraseIdx_cons_zero, append_nil]
  · have early : index < init.length := by
      rw [length_append, length_singleton] at mem
      omega
    rw [set_append_left _ _ early, dropLast_concat, eraseIdx_append_of_lt_length early, mem_append,
      mem_singleton, mem_eraseIdx_iff_getElem?, mem_iff_getElem?]
    constructor
    · rintro ⟨spot, here⟩
      rw [getElem?_set] at here
      split_ifs at here with same
      · exact .inr (Option.some.inj here).symm
      · exact .inl ⟨spot, fun equal => same equal.symm, here⟩
    · rintro (⟨spot, ne, here⟩ | same)
      · refine ⟨spot, ?_⟩
        rw [getElem?_set, if_neg fun equal => ne equal.symm]
        exact here
      · refine ⟨index, ?_⟩
        rw [getElem?_set_self early, same]

namespace Store
variable {store : Store Hash} {index : Nat} {segment : SegmentMeta Hash}

theorem liveRanges_within {range : Nat × Nat} (mem : range ∈ store.liveRanges index segment) :
    range.1 ≤ segment.segmentIndex * store.geo.segmentSize + store.geo.segmentSize ∧
      range.1 ≤ range.2 := by
  obtain ⟨entry, -, chosen⟩ := mem_filterMap.mp mem
  split_ifs at chosen with dead meets
  have same := Option.some.inj chosen
  have proper : entry.1.range.1 ≤ entry.1.range.2 := Nat.le_add_right _ _
  rw [← same]
  dsimp only
  omega

/-- What is freed lies in the segment and is not empty. -/
theorem deadRanges_within {range : Nat × Nat} (mem : range ∈ store.deadRanges index segment) :
    segment.segmentIndex * store.geo.segmentSize ≤ range.1 ∧ range.1 < range.2 ∧
      range.2 ≤ segment.segmentIndex * store.geo.segmentSize + store.geo.segmentSize :=
  complement_within (fun _ among => (liveRanges_within among).1) mem

theorem deadRanges_disjoint : (store.deadRanges index segment).Pairwise Apart :=
  complement_ordered (fun _ among => (liveRanges_within among).1)
    fun _ among => (liveRanges_within among).2

theorem deadRanges_apart (zoned : store.Zoned) {entry : ExtentDescriptor × Hash}
    (elsewhere : store.Elsewhere index entry) (live : 0 < store.refcount entry.2) :
    Spared segment.zoneId (store.deadRanges index segment) entry := by
  intro zone range mem
  have bounds := deadRanges_within mem
  by_cases meets : segment.segmentIndex * store.geo.segmentSize < entry.1.range.2 ∧
      entry.1.range.1 < segment.segmentIndex * store.geo.segmentSize + store.geo.segmentSize
  · have listed : entry ∈ (store.otherSegments index segment.zoneId).flatMap
        SegmentMeta.extents := by
      rcases elsewhere with ⟨place, -, other, opened, inside⟩ | ⟨other, among, inside⟩
      · have own := zoned place other opened entry inside
        rw [← own, zone] at opened
        exact mem_flatMap.mpr ⟨other, mem_append_left _ (Option.mem_toList.mpr opened), inside⟩
      · exact mem_flatMap.mpr ⟨other, mem_append_right _ among, inside⟩
    have covered : (max entry.1.range.1 (segment.segmentIndex * store.geo.segmentSize),
        min entry.1.range.2
          (segment.segmentIndex * store.geo.segmentSize + store.geo.segmentSize)) ∈
        store.liveRanges index segment := by
      refine mem_filterMap.mpr ⟨entry, listed, ?_⟩
      rw [if_neg (Nat.ne_of_gt live), if_pos meets]
    have apart := complement_apart (fun _ among => (liveRanges_within among).1) mem covered
    unfold Apart at apart ⊢
    dsimp only at apart
    omega
  · unfold Apart
    omega

theorem mem_recorded_reclaim (mem : index < store.closedSegments.length)
    {entry : ExtentDescriptor × Hash} :
    entry ∈ (store.reclaim index segment).recorded ↔ store.Elsewhere index entry := by
  rw [mem_recorded]
  unfold Elsewhere Tracks reclaim
  dsimp only
  refine or_congr_right (exists_congr fun other => and_congr_left fun _ => ?_)
  exact mem_swapRemove mem

end Store

section Steps
variable {zstd : Zstd} {traced : Traced Hash} {index : Nat} {segment : SegmentMeta Hash}

/-- Freeing what is dead of a segment keeps a store sound, when what is freed was in use and was
not handed out for a live hash. -/
theorem Sound.reclaim (sound : Sound zstd traced)
    (inside : index < traced.store.closedSegments.length)
    (used : ∀ range ∈ traced.store.deadRanges index segment,
      range.2 ≤ traced.store.zoneCursors segment.zoneId ∧
        ∀ entry ∈ traced.store.freeLists segment.zoneId, Apart range (span entry))
    (spares : ∀ entry ∈ traced.kept, 0 < traced.store.refcount entry.2 →
      traced.latest entry.2 = some entry.1 →
      Spared segment.zoneId (traced.store.deadRanges index segment) entry) :
    Sound zstd (traced.reclaimed index segment) := by
  have cut : ∀ range ∈ traced.store.deadRanges index segment,
      range.1 ≤ (span (u32 range.1, u32 (range.2 - range.1))).1 ∧
        (span (u32 range.1, u32 (range.2 - range.1))).2 ≤ range.2 := by
    intro range mem
    have proper := (Store.deadRanges_within mem).2.1
    have small := ((used range mem).1.trans (sound.within _)).trans sound.small
    unfold span u32
    dsimp only
    omega
  have freed : ∀ entry, entry ∈ (traced.store.reclaim index segment).freeLists segment.zoneId →
      entry ∈ traced.store.freeLists segment.zoneId ∨
        ∃ range ∈ traced.store.deadRanges index segment,
          range.1 ≤ (span entry).1 ∧ (span entry).2 ≤ range.2 := by
    intro entry mem
    unfold Store.reclaim at mem
    dsimp only at mem
    rw [update_self] at mem
    rcases mem_append.mp mem with before | new
    · exact .inl before
    · obtain ⟨range, among, same⟩ := mem_map.mp new
      rw [← same]
      exact .inr ⟨range, among, cut range among⟩
  have elsewhere : ∀ zone, zone ≠ segment.zoneId →
      (traced.store.reclaim index segment).freeLists zone = traced.store.freeLists zone :=
    fun zone other => update_of_ne other _ _
  refine
    { small := sound.small
      size := sound.size
      within := sound.within
      free := ?_
      disjoint := ?_
      zoned := sound.zoned
      plain := ?_
      below := fun entry mem => sound.below entry (mem_filter.mp mem).1
      unfreed := ?_
      apart := fun entry mem other among =>
        sound.apart entry (mem_filter.mp mem).1 other (mem_filter.mp among).1
      reads := fun entry mem => sound.reads entry (mem_filter.mp mem).1
      short := sound.short
      recorded := ?_
      latest := ?_ }
  · intro zone entry mem
    by_cases here : zone = segment.zoneId
    · rw [here] at mem ⊢
      rcases freed entry mem with before | ⟨range, among, -, high⟩
      · exact sound.free _ entry before
      · exact high.trans (used range among).1
    · unfold Traced.reclaimed at mem
      rw [elsewhere zone here] at mem
      exact sound.free zone entry mem
  · intro zone
    unfold Traced.reclaimed
    by_cases here : zone = segment.zoneId
    · rw [here]
      unfold Store.reclaim Disjoint
      dsimp only
      rw [update_self, pairwise_append]
      refine ⟨sound.disjoint _, ?_, ?_⟩
      · rw [pairwise_map]
        refine Store.deadRanges_disjoint.imp_of_mem fun first second apart => ?_
        have one := cut _ first
        have two := cut _ second
        exact ((apart.part one.1 one.2).symm.part two.1 two.2).symm
      · intro entry before other new
        obtain ⟨range, among, same⟩ := mem_map.mp new
        rw [← same]
        have bounds := cut range among
        exact (((used range among).2 entry before).part bounds.1 bounds.2).symm
    · rw [elsewhere zone here]
      exact sound.disjoint zone
  · intro entry mem
    exact sound.plain entry ((Store.mem_recorded_reclaim inside).mp mem).recorded
  · intro entry mem range listed
    obtain ⟨kept, spared⟩ := mem_filter.mp mem
    have apart := of_decide_eq_true spared
    by_cases here : entry.1.zoneId = segment.zoneId
    · unfold Traced.reclaimed at listed
      rw [here] at listed
      rcases freed range listed with before | ⟨dead, among, low, high⟩
      · rw [← here] at before
        exact sound.unfreed entry kept range before
      · exact ((apart here dead among).symm.part low high).symm
    · unfold Traced.reclaimed at listed
      rw [elsewhere _ here] at listed
      exact sound.unfreed entry kept range listed
  · intro entry mem live
    have other := (Store.mem_recorded_reclaim inside).mp mem
    refine mem_filter.mpr ⟨sound.recorded entry other.recorded live, decide_eq_true ?_⟩
    exact Store.deadRanges_apart sound.zoned other live
  · intro hash extent known live
    have kept := sound.latest hash extent known live
    exact mem_filter.mpr ⟨kept, decide_eq_true (spares _ kept live known)⟩

theorem recorded_of_closed (found : traced.store.closedSegments[index]? = some segment) :
    ∀ entry ∈ segment.extents, entry ∈ traced.store.recorded := fun _ mem =>
  Store.mem_recorded.mpr (.inr ⟨segment, mem_of_getElem? found, mem⟩)

variable [DecidableEq Hash]

/-- After moves were returned, what a hash was given last is one of its moves, or what it had if
it has none. -/
theorem announce_cases (moves : List (Hash × ExtentDescriptor))
    (latest : Hash → Option ExtentDescriptor) (hash : Hash) :
    (announce moves latest hash = latest hash ∧ ∀ move ∈ moves, move.1 ≠ hash) ∨
      ∃ extent, (hash, extent) ∈ moves ∧ announce moves latest hash = some extent := by
  unfold announce
  induction moves generalizing latest with
  | nil => exact .inl ⟨rfl, forall_mem_nil _⟩
  | cons move rest ih =>
    rw [foldl_cons]
    rcases ih (update latest move.1 (some move.2)) with ⟨same, none⟩ | ⟨extent, found, last⟩
    · by_cases here : move.1 = hash
      · refine .inr ⟨move.2, ?_, ?_⟩
        · rw [← here]
          exact mem_cons_self
        · rw [same, ← here, update_self]
      · refine .inl ⟨?_, forall_mem_cons.mpr ⟨here, none⟩⟩
        rw [same, update_of_ne (Ne.symm here)]
    · exact .inr ⟨extent, mem_cons_of_mem _ found, last⟩

variable {hash : Hash}

/-- After the moves of a cleaning that went through, what is handed out for a live hash is
recorded in another segment, if it was recorded before. -/
theorem Relocated.handed_elsewhere {relocation : Relocation Hash}
    (relocated : Relocated zstd traced segment.extents relocation)
    (found : traced.store.closedSegments[index]? = some segment)
    (complete : relocation.complete = true) {extent : ExtentDescriptor}
    (recorded : traced.latest hash = some extent → (extent, hash) ∈ traced.store.recorded)
    (known : announce relocation.moves traced.latest hash = some extent)
    (live : 0 < traced.store.refcount hash) : relocation.store.Elsewhere index (extent, hash) := by
  have mem : index < traced.store.closedSegments.length :=
    (List.getElem?_eq_some_iff.mp found).1
  rw [relocated.elsewhere index mem]
  rcases announce_cases relocation.moves traced.latest hash with
    ⟨same, unmoved⟩ | ⟨moved, among, last⟩
  · rw [same] at known
    rcases Store.recorded_cases found (recorded known) with here | elsewhere
    · obtain ⟨moved, among⟩ := relocated.moved complete (extent, hash) here live
      exact absurd rfl (unmoved _ among)
    · exact .inr elsewhere
  · rw [last] at known
    cases known
    exact .inl (mem_map.mpr ⟨_, among, rfl⟩)

/-- A cleaning frees nothing of the extent handed out last for a live hash, when that extent is
recorded or does not meet the segment. -/
theorem Relocated.spares {relocation : Relocation Hash}
    (relocated : Relocated zstd traced segment.extents relocation) (sound : Sound zstd traced)
    (found : traced.store.closedSegments[index]? = some segment)
    (complete : relocation.complete = true) (remembered : traced.Remembered index)
    {entry : ExtentDescriptor × Hash} (live : 0 < traced.store.refcount entry.2)
    (known : announce relocation.moves traced.latest entry.2 = some entry.1) :
    Spared segment.zoneId (relocation.store.deadRanges index segment) entry := by
  intro zone range mem
  by_cases apart : Apart entry.1.range (segment.bounds traced.store.geo)
  · have bounds := Store.deadRanges_within mem
    rw [relocated.geo] at bounds
    exact (apart.symm.part bounds.1 bounds.2.2).symm
  · have elsewhere := relocated.handed_elsewhere found complete (fun last =>
      remembered segment found entry (sound.latest _ _ last live) live last zone apart) known live
    exact Store.deadRanges_apart relocated.sound.zoned elsewhere
      ((relocated.refcount entry.2).symm ▸ live) zone range mem

omit [DecidableEq Hash] in
/-- What a cleaning frees of a segment that the cursor has left and no free range meets is in
use, after the moves as before them. -/
theorem Relocated.used {entries : List (ExtentDescriptor × Hash)} {relocation : Relocation Hash}
    (relocated : Relocated zstd traced entries relocation)
    (found : traced.store.closedSegments[index]? = some segment)
    (left : traced.LeftBehind index) {range : Nat × Nat}
    (mem : range ∈ relocation.store.deadRanges index segment) :
    range.2 ≤ relocation.store.zoneCursors segment.zoneId ∧
      ∀ entry ∈ relocation.store.freeLists segment.zoneId, Apart range (span entry) := by
  obtain ⟨behind, unmet⟩ := left segment found
  have bounds := Store.deadRanges_within mem
  rw [relocated.geo] at bounds
  have forward := relocated.forward segment.zoneId
  refine ⟨?_, fun entry listed => ?_⟩
  · exact bounds.2.2.trans (behind.trans forward)
  · obtain ⟨source, before, low, high⟩ := relocated.part _ entry listed
    exact (((unmet source before).part bounds.1 bounds.2.2).symm.part low high).symm

theorem Sound.clean (inverts : zstd.Inverts) (sound : Sound zstd traced)
    (left : traced.LeftBehind index) (known : traced.Remembered index) :
    Sound zstd (traced.clean zstd index) := by
  unfold Traced.clean
  cases found : traced.store.closedSegments[index]? with
  | none => exact sound
  | some segment =>
    have relocated := sound.relocate inverts (recorded_of_closed found)
    have mem : index < traced.store.closedSegments.length :=
      (List.getElem?_eq_some_iff.mp found).1
    dsimp only
    split_ifs with complete
    · have handed : Sound zstd
          { traced.relocated (Extents.relocate zstd segment.extents traced.store) with
            latest := announce (Extents.relocate zstd segment.extents traced.store).moves
              traced.latest } := by
        refine relocated.sound.hand fun hash extent known => ?_
        rcases announce_cases (Extents.relocate zstd segment.extents traced.store).moves
          traced.latest hash with ⟨same, -⟩ | ⟨moved, among, last⟩
        · rw [same] at known
          exact .inr known
        · rw [last] at known
          cases known
          exact .inl (mem_append_left _ (mem_map.mpr ⟨_, among, rfl⟩))
      apply handed.reclaim (mem.trans_le relocated.length_le)
      · exact fun range mem => relocated.used found left mem
      · intro entry _ live last
        have counted : 0 < traced.store.refcount entry.2 := by
          rw [← relocated.refcount]
          exact live
        exact relocated.spares sound found complete known counted last
    · exact relocated.sound

theorem Tracked.write (inverts : zstd.Inverts) (sound : Sound zstd traced)
    (tracked : Tracked traced) {data : Bytes} (fits : traced.FitsContent data hash)
    (compress : Bool) : Tracked (traced.write zstd data hash compress) := by
  unfold Traced.write
  rcases writeExtent_spec inverts sound.small sound.within sound.free sound.disjoint sound.size
      fits.1 hash compress with ⟨extent, next, written, wrote⟩ | full
  · rw [written]
    intro other handed known live
    unfold Traced.wrote at known live ⊢
    dsimp only at known live ⊢
    rw [wrote.mem_recorded]
    rcases Table.update_eq_some known with ⟨rfl, rfl⟩ | ⟨-, before⟩
    · exact .inl rfl
    · unfold Store.refcount at live
      rw [wrote.refcounts] at live
      exact .inr (tracked other handed before live)
  · rw [full]
    exact tracked

/-- `refcount_add` keeps track of what was handed out, when it revives what is recorded. -/
theorem Tracked.add (tracked : Tracked traced) {delta : Int} (revives : traced.Revives hash delta) :
    Tracked (traced.add hash delta) := by
  intro other extent known live
  rcases Store.live_refcountAdd live with before | ⟨same, dead, rises⟩
  · exact tracked other extent known before
  · have handed : traced.latest hash = some extent := by rw [← same]; exact known
    rw [same]
    exact (revives dead rises).2 extent handed

omit [DecidableEq Hash] in
/-- When what was handed out is tracked, a cleaning knows it. -/
theorem Tracked.remembered (tracked : Tracked traced) : traced.Remembered index :=
  fun _ _ _ _ live last _ _ => tracked _ _ last live

variable (inverts : zstd.Inverts) (sound : Sound zstd traced)
include inverts sound

theorem Tracked.clean (tracked : Tracked traced) : Tracked (traced.clean zstd index) := by
  unfold Traced.clean
  cases found : traced.store.closedSegments[index]? with
  | none => exact tracked
  | some segment =>
    have relocated := sound.relocate inverts (recorded_of_closed found)
    have mem : index < traced.store.closedSegments.length :=
      (List.getElem?_eq_some_iff.mp found).1
    dsimp only
    split_ifs with complete
    · intro hash extent known live
      have counted : 0 < traced.store.refcount hash := by
        rw [← relocated.refcount]
        exact live
      refine (Store.mem_recorded_reclaim (mem.trans_le relocated.length_le)).mpr ?_
      exact relocated.handed_elsewhere found complete
        (fun last => tracked hash extent last counted) known counted
    · intro hash extent known live
      have counted : 0 < traced.store.refcount hash := by
        rw [← relocated.refcount]
        exact live
      exact (relocated.recorded _).mpr (.inr (tracked hash extent known counted))

/-- A careful call keeps a store sound, when a cleaning knows what it may not free. -/
theorem Sound.perform {event : Event Hash} (careful : traced.Careful event)
    (knows : traced.Knows event) : Sound zstd (traced.perform zstd event) := by
  cases event with
  | write data hash compress => exact sound.write inverts careful compress
  | add hash delta => exact sound.add careful
  | clean index => exact sound.clean inverts careful knows

/-- A call keeps track of what was handed out. -/
theorem Tracked.perform (tracked : Tracked traced) {event : Event Hash}
    (careful : traced.Careful event) :
    Tracked (traced.perform zstd event) := by
  cases event with
  | write data hash compress => exact tracked.write inverts sound careful compress
  | add hash delta => exact tracked.add careful
  | clean index => exact tracked.clean inverts sound

end Steps
end LionFS.Cluster.Extents
