import LionFS.Cluster.Extents.Store
import Mathlib.Tactic.Ring

/-!
# What an allocation may touch

The space an extent is given is taken out of the free lists or lies beyond the
cursor of its zone, so it is apart from whatever lies below the cursor and off
the free list. What is read of the device elsewhere does not change.
-/
namespace LionFS.Cluster.Extents
open Function (update_self update_apply update forall_update_iff)
open LionFS Ranges List Option Nat Prod

/-- The bytes of a free list entry. -/
def span (entry : Nat × Nat) : Nat × Nat := (entry.1, entry.1 + entry.2)

/-- Entries of a free list have no byte in common. -/
def Disjoint (entries : List (Nat × Nat)) : Prop :=
  entries.Pairwise fun a b => Apart (span a) (span b)

/-- What carving an extent out of a free list leaves. -/
structure Carved (entries : List (Nat × Nat)) (length offset : Nat) (rest : List (Nat × Nat)) :
    Prop where
  /-- The extent lies in one entry. -/
  source : ∃ entry ∈ entries, offset = entry.1 ∧ length ≤ entry.2
  /-- What is left lies in entries there were. -/
  part : ∀ left ∈ rest, ∃ entry ∈ entries,
    (span entry).1 ≤ (span left).1 ∧ (span left).2 ≤ (span entry).2
  /-- What is left is disjoint. -/
  disjoint : Disjoint rest
  /-- What is left does not meet the extent. -/
  apart : ∀ left ∈ rest, Apart (offset, offset + length) (span left)

/-- Carving takes the start of one entry, and the entry with it if nothing is left. -/
theorem carve_eq {segmentSize length offset : Nat} {entries rest : List (Nat × Nat)}
    (carved : carve segmentSize length entries = some (offset, rest)) :
    ∃ before size after, entries = before ++ (offset, size) :: after ∧ length ≤ size ∧
      rest = before ++ (if size - length = 0 then [] else
        [(u32 (offset + length), size - length)]) ++ after := by
  induction entries generalizing rest with
  | nil => cases carved
  | cons first others ih =>
    unfold carve at carved
    split_ifs at carved with fits whole
    · cases carved
      exact ⟨[], first.2, others, rfl, fits.1, by rw [if_pos whole]; rfl⟩
    · cases carved
      exact ⟨[], first.2, others, rfl, fits.1, by rw [if_neg whole]; rfl⟩
    · cases found : carve segmentSize length others with
      | none =>
        rw [found] at carved
        cases carved
      | some pair =>
        rw [found] at carved
        cases carved
        obtain ⟨before, size, after, split, room, left⟩ := ih found
        exact ⟨first :: before, size, after, congrArg _ split, room, congrArg _ left⟩

theorem carved_of_carve {segmentSize length offset : Nat} {entries rest : List (Nat × Nat)}
    (small : ∀ entry ∈ entries, entry.1 + entry.2 ≤ 2 ^ 32) (disjoint : Disjoint entries)
    (carved : carve segmentSize length entries = some (offset, rest)) :
    Carved entries length offset rest := by
  obtain ⟨before, size, after, rfl, room, rfl⟩ := carve_eq carved
  have bound := small (offset, size) (by simp)
  have left : ∀ entry ∈ (if size - length = 0 then [] else
      [(u32 (offset + length), size - length)]),
      span entry = (offset + length, offset + size) := by
    intro entry mem
    split_ifs at mem with whole
    · cases mem
    · have place : u32 (offset + length) = offset + length := mod_eq_of_lt (by omega)
      rw [mem_singleton.mp mem, place]
      exact congrArg (Prod.mk _) (by omega)
  have single : Disjoint (if size - length = 0 then [] else
      [(u32 (offset + length), size - length)]) := by
    split_ifs
    · exact .nil
    · exact pairwise_singleton _ _
  revert left single
  generalize (if size - length = 0 then [] else [(u32 (offset + length), size - length)]) = remains
  intro left single
  obtain ⟨first, last, across⟩ := pairwise_append.mp disjoint
  obtain ⟨behind, later⟩ := pairwise_cons.mp last
  have ahead := fun entry mem => (across entry mem (offset, size) mem_cons_self).symm
  have inside : ∀ {part other : Nat × Nat}, Apart (span (offset, size)) other →
      offset ≤ part.1 → part.2 ≤ offset + size → Apart part other :=
    fun apart low high => apart.part low high
  have whole : (offset, size) ∈ before ++ (offset, size) :: after := by simp
  refine ⟨⟨_, whole, rfl, room⟩, fun entry mem => ?_, ?_, fun entry mem => ?_⟩
  · rcases mem_append.mp mem with early | late
    · rcases mem_append.mp early with old | part
      · exact ⟨entry, mem_append_left _ old, le_refl _, le_refl _⟩
      · rw [left entry part]
        exact ⟨_, whole, le_add_right _ _, le_refl _⟩
    · exact ⟨entry, mem_append_right _ (mem_cons_of_mem _ late), le_refl _, le_refl _⟩
  · refine pairwise_append.mpr ⟨pairwise_append.mpr ⟨first, single, ?_⟩, later, ?_⟩
    · intro entry old part mem
      rw [left part mem]
      exact (inside (ahead entry old) (le_add_right _ _) (le_refl _)).symm
    · intro entry mem other late
      rcases mem_append.mp mem with old | part
      · exact across entry old other (mem_cons_of_mem _ late)
      · rw [left entry part]
        exact inside (behind other late) (le_add_right _ _) (le_refl _)
  · rcases mem_append.mp mem with early | late
    · rcases mem_append.mp early with old | part
      · exact inside (ahead entry old) (le_refl _) (Nat.add_le_add_left room _)
      · rw [left entry part]
        exact .inl (le_refl _)
    · exact inside (behind entry late) (le_refl _) (Nat.add_le_add_left room _)

/-- A place in a zone is at its cursor or later, with room up to the end of the zone. -/
theorem place_within {geo : Geometry} {length cursor start : Nat}
    (placed : place geo length cursor = some start) :
    cursor ≤ start ∧ start + length ≤ geo.zoneSize := by
  unfold place at placed
  split_ifs at placed with full fits beyond
  · have same := some.inj placed
    omega
  · have same := some.inj placed
    have division := div_add_mod cursor geo.segmentSize
    have remainder := mod_lt cursor geo.segment_pos
    have next : (cursor / geo.segmentSize + 1) * geo.segmentSize =
        geo.segmentSize * (cursor / geo.segmentSize) + geo.segmentSize := by ring
    omega

section Allocated
variable {Hash : Type} {store next : Store Hash} {length zone offset : Nat}

/-- What an allocation does: the space it gives lies in a zone, below the new cursor, and is apart
from what lay below the old one off the free list; the rest of the free lists is as it was. -/
structure Allocated (store : Store Hash) (length zone offset : Nat) (next : Store Hash) :
    Prop where
  /-- The zone exists. -/
  zone_lt : zone < store.geo.zoneCount
  /-- Only free lists and cursors change. -/
  same : next = { store with freeLists := next.freeLists, zoneCursors := next.zoneCursors }
  /-- Cursors do not go back. -/
  forward : ∀ zone, store.zoneCursors zone ≤ next.zoneCursors zone
  /-- Cursors stay in their zones. -/
  within : ∀ zone, next.zoneCursors zone ≤ store.geo.zoneSize
  /-- The space ends by the cursor. -/
  below : offset + length ≤ next.zoneCursors zone
  /-- Free space was free before. -/
  part : ∀ zone, ∀ left ∈ next.freeLists zone, ∃ entry ∈ store.freeLists zone,
    (span entry).1 ≤ (span left).1 ∧ (span left).2 ≤ (span entry).2
  disjoint : ∀ zone, Disjoint (next.freeLists zone)
  /-- The space was not in use. -/
  unused : ∀ range : Nat × Nat, range.2 ≤ store.zoneCursors zone →
    (∀ entry ∈ store.freeLists zone, Apart range (span entry)) →
    Apart (offset, offset + length) range
  /-- The space is free no more. -/
  taken : ∀ left ∈ next.freeLists zone, Apart (offset, offset + length) (span left)

variable (small : store.geo.zoneSize ≤ 2 ^ 32)
  (within : ∀ zone, store.zoneCursors zone ≤ store.geo.zoneSize)
  (free : ∀ zone, ∀ entry ∈ store.freeLists zone, (span entry).2 ≤ store.zoneCursors zone)
  (disjoint : ∀ zone, Disjoint (store.freeLists zone))
include small within free disjoint

theorem allocated_free {rest : List (Nat × Nat)}
    (found : store.takeFree length = some (zone, offset, rest)) :
    Allocated store length zone offset
      { store with freeLists := update store.freeLists zone rest } := by
  obtain ⟨cand, among, taken⟩ := exists_of_findSome?_eq_some found
  obtain ⟨pair, carved, same⟩ := map_eq_some_iff.mp taken
  obtain ⟨rfl, rfl⟩ := mk.inj same
  have carving := carved_of_carve
    (fun entry mem => ((free cand entry mem).trans (within cand)).trans small)
    (disjoint cand) carved
  obtain ⟨entry, mem, start, room⟩ := carving.source
  have below : offset + length ≤ store.zoneCursors cand := by
    have bound := free cand entry mem
    unfold span at bound
    dsimp only at bound
    omega
  refine
    { zone_lt := mem_range.mp among
      same := rfl
      forward := fun _ => le_refl _
      within := within
      below := below
      part := ?_
      disjoint := ?_
      unused := ?_
      taken := ?_ }
  · intro zone left present
    dsimp only at present
    rw [update_apply] at present
    split_ifs at present with here
    · exact here ▸ carving.part left present
    · exact ⟨left, present, le_refl _, le_refl _⟩
  · exact (forall_update_iff _ fun _ (entries : List (Nat × Nat)) => entries.Pairwise _).mpr
      ⟨carving.disjoint, fun zone _ => disjoint zone⟩
  · intro range _ apart
    refine ((apart entry mem).symm.part (le_of_eq start.symm) ?_)
    change offset + length ≤ entry.1 + entry.2
    omega
  · intro left present
    dsimp only at present
    rw [update_self] at present
    exact carving.apart left present

theorem allocated_fresh {start : Nat} (short : length < 2 ^ 32)
    (found : store.takeFresh length = some (zone, start)) :
    Allocated store length zone (u32 (u32 (start + length) + 2 ^ 32 - length))
      { store with
        zoneCursors := update store.zoneCursors zone (start + length) } := by
  obtain ⟨index, among, taken⟩ := exists_of_findSome?_eq_some found
  obtain ⟨place, placed, same⟩ := map_eq_some_iff.mp taken
  obtain ⟨zoned, rfl⟩ := mk.inj same
  rw [zoned] at placed
  obtain ⟨cursor, room⟩ := place_within placed
  have count : 0 < store.geo.zoneCount := by
    have bound := mem_range.mp among
    omega
  have offsetWhere : u32 (u32 (place + length) + 2 ^ 32 - length) ≤ place ∧
      (0 < length → u32 (u32 (place + length) + 2 ^ 32 - length) = place) := by
    unfold u32
    omega
  refine
    { zone_lt := by rw [← zoned]; exact mod_lt _ count
      same := rfl
      forward := ?_
      within := ?_
      below := ?_
      part := fun zone left present => ⟨left, present, le_refl _, le_refl _⟩
      disjoint := disjoint
      unused := ?_
      taken := ?_ }
  · refine (forall_update_iff _ fun other cursor => store.zoneCursors other ≤ cursor).mpr ?_
    exact ⟨by omega, fun _ _ => le_refl _⟩
  · refine (forall_update_iff _ fun _ cursor => cursor ≤ store.geo.zoneSize).mpr ?_
    exact ⟨room, fun other _ => within other⟩
  · dsimp only
    rw [update_self]
    omega
  · intro range below _
    unfold Apart
    dsimp only
    omega
  · intro left present
    have below := free zone left present
    unfold Apart
    dsimp only
    omega

/-- Every allocation is as described. -/
theorem allocated_of_allocate (short : length < 2 ^ 32)
    (allocate : store.allocate length = some (zone, offset, next)) :
    Allocated store length zone offset next := by
  unfold Store.allocate at allocate
  cases free' : store.takeFree length with
  | some taken =>
    rw [free'] at allocate
    obtain ⟨rfl, same⟩ := mk.inj (some.inj allocate)
    obtain ⟨rfl, rfl⟩ := mk.inj same
    exact allocated_free small within free disjoint free'
  | none =>
    rw [free'] at allocate
    cases fresh : store.takeFresh length with
    | none =>
      rw [fresh] at allocate
      cases allocate
    | some taken =>
      rw [fresh] at allocate
      obtain ⟨rfl, same⟩ := mk.inj (some.inj allocate)
      obtain ⟨rfl, rfl⟩ := mk.inj same
      exact allocated_fresh small within free disjoint short fresh

end Allocated

section Device

/-- Writing elsewhere does not change what is read. -/
theorem Device.read_write_apart {device : Device} {offset length start : Nat} {data : Bytes}
    (apart : Apart (offset, offset + length) (start, start + data.length))
    (inside : offset + length ≤ device.len) :
    (device.write start data).read offset length = device.read offset length := by
  unfold Device.read Device.write
  dsimp only
  rw [if_neg (by omega), if_neg (by omega)]
  congr 1
  refine map_congr_left fun index mem => ?_
  have bound := mem_range.mp mem
  unfold Apart at apart
  dsimp only at apart
  rw [if_neg (by omega)]

theorem Device.read_write_same {device : Device} {start : Nat} {data : Bytes} :
    (device.write start data).read start data.length = some data := by
  unfold Device.read Device.write
  dsimp only
  rw [if_neg (by omega)]
  congr 1
  refine ext_getElem (by rw [length_map, length_range]) fun index _ bound => ?_
  rw [getElem_map, getElem_range, if_pos (by omega), Nat.add_sub_cancel_left,
    getD_eq_getElem?_getD, getElem?_eq_getElem bound, getD_some]

/-- Ranges of two zones, or ranges of one zone that are apart, are apart on the device. -/
theorem Geometry.address_apart (geo : Geometry) (zone other : Nat) {range against : Nat × Nat}
    (mem : range.2 ≤ geo.zoneSize) (within : against.2 ≤ geo.zoneSize)
    (apart : zone = other → Apart range against) :
    Apart (dataStart + zone * geo.zoneSize + range.1, dataStart + zone * geo.zoneSize + range.2)
      (dataStart + other * geo.zoneSize + against.1,
        dataStart + other * geo.zoneSize + against.2) := by
  by_cases same : zone = other
  · have here := apart same
    rw [same]
    unfold Apart at here ⊢
    dsimp only
    omega
  · rcases lt_or_gt_of_ne same with less | greater
    · have room : (zone + 1) * geo.zoneSize ≤ other * geo.zoneSize :=
        mul_le_mul_right _ less
      rw [succ_mul] at room
      refine .inl ?_
      dsimp only
      omega
    · have room : (other + 1) * geo.zoneSize ≤ zone * geo.zoneSize :=
        mul_le_mul_right _ greater
      rw [succ_mul] at room
      refine .inr (.inl ?_)
      dsimp only
      omega

end Device
end LionFS.Cluster.Extents
