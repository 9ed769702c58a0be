import LionFS.Cluster.Extents.Allocation
import LionFS.Data.Table

/-!
# What writing an extent does

One description of `Store::write_extent`, used wherever an extent is written:
by a caller or by the cleaner. It says where the extent goes, that it reads back,
that every extent apart from it reads as before, and in which segment it is
recorded.
-/
namespace LionFS.Cluster.Extents
open LionFS Ranges List Option Function
variable {Hash : Type}
namespace Store

/-- An extent is recorded in the open segment of a zone or in one of some closed segments. -/
def Tracks (store : Store Hash) (closed : List (SegmentMeta Hash))
    (entry : ExtentDescriptor × Hash) : Prop :=
  (∃ zone < store.geo.zoneCount, ∃ segment ∈ store.openSegments zone, entry ∈ segment.extents) ∨
    ∃ segment ∈ closed, entry ∈ segment.extents

/-- An extent is recorded in another segment than the closed one at an index. -/
def Elsewhere (store : Store Hash) (index : Nat) (entry : ExtentDescriptor × Hash) : Prop :=
  store.Tracks (store.closedSegments.eraseIdx index) entry

/-- Open segments hold extents of their own zone. -/
def Zoned (store : Store Hash) : Prop :=
  ∀ zone, ∀ segment ∈ store.openSegments zone, ∀ entry ∈ segment.extents, entry.1.zoneId = zone

variable {entry : ExtentDescriptor × Hash} {store : Store Hash}

theorem mem_recorded : entry ∈ store.recorded ↔ store.Tracks store.closedSegments entry := by
  simp only [recorded, Tracks, mem_append, mem_flatMap, mem_range, mem_toList, mem_def]

theorem recorded_cases {index : Nat} {segment : SegmentMeta Hash}
    (found : store.closedSegments[index]? = some segment) (mem : entry ∈ store.recorded) :
    entry ∈ segment.extents ∨ store.Elsewhere index entry := by
  rcases mem_recorded.mp mem with opened | ⟨other, among, inside⟩
  · exact .inr (.inl opened)
  · obtain ⟨spot, here⟩ := mem_iff_getElem?.mp among
    by_cases same : spot = index
    · rw [same, found] at here
      have equal := some.inj here
      rw [← equal] at inside
      exact .inl inside
    · refine .inr (.inr ⟨other, ?_, inside⟩)
      exact mem_eraseIdx_iff_getElem?.mpr ⟨spot, same, here⟩

theorem Elsewhere.recorded {index : Nat} (elsewhere : store.Elsewhere index entry) :
    entry ∈ store.recorded := by
  rcases elsewhere with opened | ⟨segment, among, mem⟩
  · exact mem_recorded.mpr (.inl opened)
  · exact mem_recorded.mpr (.inr ⟨segment, mem_of_mem_eraseIdx among, mem⟩)

section Record
variable {zone : Nat}

/-- Tracking an extent touches the segments only. -/
theorem record_same : store.record zone entry =
    { store with
      openSegments := (store.record zone entry).openSegments
      closedSegments := (store.record zone entry).closedSegments } := by
  unfold record
  cases store.openSegments zone with
  | none => rfl
  | some segment =>
    dsimp only
    split_ifs <;> rfl

theorem record_cases (store : Store Hash) (zone : Nat) (entry : ExtentDescriptor × Hash) :
    ∃ segment closing,
      (store.record zone entry).openSegments = update store.openSegments zone (some segment) ∧
      (store.record zone entry).closedSegments = store.closedSegments ++ closing ∧
      ∀ other, (other ∈ segment.extents ∨ ∃ old ∈ closing, other ∈ old.extents) ↔
        other = entry ∨ ∃ old ∈ store.openSegments zone, other ∈ old.extents := by
  unfold record
  cases store.openSegments zone with
  | none =>
    refine ⟨_, [], rfl, (append_nil _).symm, fun other => ?_⟩
    simp
  | some old =>
    dsimp only
    split_ifs with same
    · refine ⟨_, [], rfl, (append_nil _).symm, fun other => ?_⟩
      simp [or_comm]
    · refine ⟨_, [old], rfl, rfl, fun other => ?_⟩
      simp

theorem tracks_record (store : Store Hash) (zoned : zone < store.geo.zoneCount)
    (entry : ExtentDescriptor × Hash) :
    ∃ closing, (store.record zone entry).closedSegments = store.closedSegments ++ closing ∧
      ∀ closed other, (store.record zone entry).Tracks (closed ++ closing) other ↔
        other = entry ∨ store.Tracks closed other := by
  obtain ⟨segment, closing, opened, closed, members⟩ := record_cases store zone entry
  refine ⟨closing, closed, fun closed other => ?_⟩
  have geometry : (store.record zone entry).geo = store.geo := by rw [record_same]
  have here := members other
  unfold Tracks
  rw [geometry, opened]
  constructor
  · rintro (⟨place, bound, current, present, mem⟩ | ⟨old, among, mem⟩)
    · rcases Table.update_eq_some present with ⟨rfl, rfl⟩ | ⟨-, present⟩
      · rcases here.mp (.inl mem) with equal | ⟨old, before, mem⟩
        · exact .inl equal
        · exact .inr (.inl ⟨place, zoned, old, before, mem⟩)
      · exact .inr (.inl ⟨place, bound, current, present, mem⟩)
    · rcases mem_append.mp among with kept | closes
      · exact .inr (.inr ⟨old, kept, mem⟩)
      · rcases here.mp (.inr ⟨old, closes, mem⟩) with equal | ⟨old, before, mem⟩
        · exact .inl equal
        · exact .inr (.inl ⟨zone, zoned, old, before, mem⟩)
  · have inserted (new : other ∈ segment.extents ∨ ∃ old ∈ closing, other ∈ old.extents) :
        (∃ place < store.geo.zoneCount,
            ∃ current ∈ update store.openSegments zone (some segment) place,
              other ∈ current.extents) ∨
          ∃ old ∈ closed ++ closing, other ∈ old.extents := by
      rcases new with mem | ⟨old, closes, mem⟩
      · refine .inl ⟨zone, zoned, segment, ?_, mem⟩
        rw [update_self]
        rfl
      · exact .inr ⟨old, mem_append_right _ closes, mem⟩
    rintro (equal | ⟨place, bound, current, present, mem⟩ | ⟨old, among, mem⟩)
    · exact inserted (here.mpr (.inl equal))
    · by_cases same : place = zone
      · rw [same] at present
        exact inserted (here.mpr (.inr ⟨current, present, mem⟩))
      · refine .inl ⟨place, bound, current, ?_, mem⟩
        rwa [update_of_ne same]
    · exact .inr ⟨old, mem_append_left _ among, mem⟩

/-- Tracking an extent in its own zone keeps the open segments to their zones. -/
theorem Zoned.record (zoned : store.Zoned) (own : entry.1.zoneId = zone) :
    (store.record zone entry).Zoned := by
  obtain ⟨segment, closing, opened, -, members⟩ := record_cases store zone entry
  intro place current present other mem
  rw [opened] at present
  rcases Table.update_eq_some present with ⟨rfl, rfl⟩ | ⟨-, present⟩
  · rcases (members other).mp (.inl mem) with equal | ⟨old, before, mem⟩
    · rw [equal, own]
    · exact zoned place old before other mem
  · exact zoned place current present other mem

end Record
end Store

variable {zstd : Zstd}

/-- The payload of an extent is no longer than its data, and decodes to it. -/
theorem payloadOf_spec (inverts : zstd.Inverts) (data : Bytes) (compress : Bool) :
    (payloadOf zstd data compress).1.length ≤ data.length ∧
      match (payloadOf zstd data compress).2 with
      | .store => (payloadOf zstd data compress).1 = data
      | .zstd => zstd.decode (payloadOf zstd data compress).1 = some data := by
  unfold payloadOf
  split_ifs
  · cases packed : zstd.encode data with
    | none => exact ⟨le_refl _, rfl⟩
    | some bytes =>
      dsimp only
      split_ifs with shorter
      · exact ⟨Nat.le_of_lt shorter, inverts data bytes packed⟩
      · exact ⟨le_refl _, rfl⟩
  · exact ⟨le_refl _, rfl⟩

/-- What writing an extent does to a store. -/
structure Wrote (zstd : Zstd) (store : Store Hash) (data : Bytes) (hash : Hash)
    (extent : ExtentDescriptor) (next : Store Hash) : Prop where
  allocated : ∃ middle, Allocated store extent.length extent.zoneId extent.offsetInZone middle ∧
    next.freeLists = middle.freeLists ∧ next.zoneCursors = middle.zoneCursors
  plain : extent.eccGroupId = 0
  geo : next.geo = store.geo
  refcounts : next.refcounts = store.refcounts
  epoch : next.epoch = store.epoch
  len : store.device.len ≤ next.device.len
  reads : next.readExtent zstd extent = some data
  others : ∀ other : ExtentDescriptor, other.range.2 ≤ store.geo.zoneSize →
    (other.zoneId = extent.zoneId → Apart other.range extent.range) →
    next.readExtent zstd other = store.readExtent zstd other
  /-- Closed segments are added to, and the extent is recorded. -/
  tracks : ∃ closing, next.closedSegments = store.closedSegments ++ closing ∧
    ∀ closed other, next.Tracks (closed ++ closing) other ↔
      other = (extent, hash) ∨ store.Tracks closed other
  zoned : store.Zoned → next.Zoned

variable {store : Store Hash}

theorem Geometry.zoneOffset_eq {geo : Geometry} {zone : Nat} (zoned : zone < geo.zoneCount) :
    geo.zoneOffset zone = some (dataStart + zone * geo.zoneSize) := if_neg (by omega)

/-- The last steps of writing an extent, with its space allocated. -/
theorem wrote_of_allocated {middle : Store Hash} {extent : ExtentDescriptor} {payload data : Bytes}
    (hash : Hash) (size : store.geo.totalSize ≤ store.device.len) (plain : extent.eccGroupId = 0)
    (whole : extent.length = payload.length)
    (decodes : match extent.compressionType with
      | .store => payload = data
      | .zstd => zstd.decode payload = some data)
    (allocated : Allocated store extent.length extent.zoneId extent.offsetInZone middle) :
    Wrote zstd store data hash extent
      (({ middle with
          device := middle.device.write
            (dataStart + extent.zoneId * store.geo.zoneSize + extent.offsetInZone)
            payload }).record extent.zoneId (extent, hash)) := by
  have geometry : middle.geo = store.geo := by rw [allocated.same]
  have device : middle.device = store.device := by rw [allocated.same]
  have zoned := allocated.zone_lt
  have below : extent.range.2 ≤ store.geo.zoneSize := allocated.below.trans (allocated.within _)
  have sameTracks : ∀ closed other, middle.Tracks closed other ↔ store.Tracks closed other := by
    intro closed other
    rw [allocated.same]
    rfl
  obtain ⟨closing, closed, tracks⟩ := Store.tracks_record
    { middle with
      device := middle.device.write
        (dataStart + extent.zoneId * store.geo.zoneSize + extent.offsetInZone) payload }
    (show extent.zoneId < middle.geo.zoneCount by rw [geometry]; exact zoned) (extent, hash)
  refine
    { allocated := ⟨middle, allocated, by rw [Store.record_same], by rw [Store.record_same]⟩
      plain := plain
      geo := by rw [Store.record_same]; exact geometry
      refcounts := by rw [Store.record_same, allocated.same]
      epoch := by rw [Store.record_same, allocated.same]
      len := ?_
      reads := ?_
      others := ?_
      tracks := ⟨closing, ?_, fun closed other => ?_⟩
      zoned := ?_ }
  · rw [Store.record_same]
    change store.device.len ≤ max middle.device.len _
    rw [device]
    exact le_max_left _ _
  · rw [Store.record_same]
    unfold Store.readExtent
    dsimp only
    rw [geometry, Geometry.zoneOffset_eq zoned]
    dsimp only
    rw [whole, Device.read_write_same]
    revert decodes
    cases extent.compressionType with
    | store => exact congrArg some
    | zstd => exact id
  · intro other mem apart
    rw [Store.record_same]
    unfold Store.readExtent
    dsimp only
    rw [geometry, device]
    by_cases exists' : other.zoneId < store.geo.zoneCount
    · rw [Geometry.zoneOffset_eq exists']
      dsimp only
      have addresses := Geometry.address_apart store.geo other.zoneId _ mem below apart
      have room : other.zoneId * store.geo.zoneSize + store.geo.zoneSize ≤
          store.geo.zoneCount * store.geo.zoneSize := by
        rw [← Nat.succ_mul]
        exact Nat.mul_le_mul_right _ exists'
      unfold ExtentDescriptor.range at mem
      unfold Geometry.totalSize at size
      dsimp only at mem
      rw [Device.read_write_apart]
      · unfold ExtentDescriptor.range at addresses
        unfold Apart at addresses ⊢
        dsimp only at addresses ⊢
        omega
      · omega
    · have absent : store.geo.zoneOffset other.zoneId = none := if_pos (by omega)
      rw [absent]
  · rw [closed, allocated.same]
  · rw [tracks]
    exact or_congr_right (sameTracks closed other)
  · intro before
    apply Store.Zoned.record
    · rw [allocated.same]
      exact before
    · rfl

theorem writeExtent_refcounts (zstd : Zstd) (data : Bytes) (hash : Hash) (compress : Bool)
    (store : Store Hash) :
    (writeExtent zstd data hash compress store).2.refcounts = store.refcounts := by
  have allocates : ∀ length zone offset middle,
      store.allocate length = some (zone, offset, middle) → middle.refcounts = store.refcounts := by
    intro length zone offset middle space
    unfold Store.allocate at space
    split at space
    · rw [← (Prod.mk.inj (Prod.mk.inj (some.inj space)).2).2]
    · split at space
      · rw [← (Prod.mk.inj (Prod.mk.inj (some.inj space)).2).2]
      · cases space
  unfold writeExtent
  dsimp only
  cases space : store.allocate (u32 (payloadOf zstd data compress).1.length) with
  | none => rfl
  | some found =>
    obtain ⟨zone, offset, middle⟩ := found
    have same := allocates _ zone offset middle space
    dsimp only
    cases store.geo.zoneOffset zone with
    | none => exact same
    | some base =>
      dsimp only
      rw [Store.record_same]
      exact same

/-- An extent that is written is written as described; otherwise nothing changes. -/
theorem writeExtent_spec (inverts : zstd.Inverts) (small : store.geo.zoneSize ≤ 2 ^ 32)
    (within : ∀ zone, store.zoneCursors zone ≤ store.geo.zoneSize)
    (free : ∀ zone, ∀ entry ∈ store.freeLists zone, (span entry).2 ≤ store.zoneCursors zone)
    (disj : ∀ zone, Disjoint (store.freeLists zone)) (size : store.geo.totalSize ≤ store.device.len)
    {data : Bytes} (short : data.length < 2 ^ 32) (hash : Hash) (compress : Bool) :
    (∃ extent next, writeExtent zstd data hash compress store = (some extent, next) ∧
        Wrote zstd store data hash extent next) ∨
      writeExtent zstd data hash compress store = (none, store) := by
  obtain ⟨shorter, decodes⟩ := payloadOf_spec inverts data compress
  have exact : u32 (payloadOf zstd data compress).1.length =
      (payloadOf zstd data compress).1.length := Nat.mod_eq_of_lt (by omega)
  unfold writeExtent
  dsimp only
  rw [exact]
  cases space : store.allocate (payloadOf zstd data compress).1.length with
  | none => exact .inr rfl
  | some found =>
    obtain ⟨zone, offset, middle⟩ := found
    have allocated := allocated_of_allocate small within free disj (by omega) space
    dsimp only
    rw [Geometry.zoneOffset_eq allocated.zone_lt]
    exact .inl ⟨_, _, rfl, wrote_of_allocated hash size rfl rfl decodes allocated⟩

end LionFS.Cluster.Extents
