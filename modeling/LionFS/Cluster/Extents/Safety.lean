import LionFS.Cluster.Extents.Cleaning

/-!
# Live extents, and remounting

In runs whose calls meet `Careful`, the extent handed out last for a live hash
reads back, and live extents, free ranges and the space beyond the cursors are
disjoint. The code itself checks none of this: a cleaning frees the whole of a
segment that the cursor has not left, and the next extent is written twice over.

A remount forgets the open segments. The extents recorded there stay intact as
long as no later cleaning is of a segment they lie in, whose cleaner no longer
knows them.
-/
namespace LionFS.Cluster.Extents
open LionFS Ranges Machine Function
variable {Hash : Type} [DecidableEq Hash]
namespace Traced

/-- The extent handed out last for a hash, when the hash is live. -/
def Live (traced : Traced Hash) (hash : Hash) (extent : ExtentDescriptor) : Prop :=
  traced.latest hash = some extent ∧ 0 < traced.store.refcount hash

/-- Live extents read back, and live extents, free ranges and the space at or beyond the cursors
are pairwise disjoint. -/
structure Intact (zstd : Zstd) (traced : Traced Hash) : Prop where
  /-- A live extent reads back the bytes written. -/
  reads : ∀ hash extent, traced.Live hash extent → ∃ data, traced.content hash = some data ∧
    traced.store.readExtent zstd extent = some data
  apart : ∀ hash extent other against, traced.Live hash extent → traced.Live other against →
    hash ≠ other → extent.zoneId = against.zoneId → Apart extent.range against.range
  unfreed : ∀ hash extent, traced.Live hash extent →
    ∀ entry ∈ traced.store.freeLists extent.zoneId, Apart extent.range (span entry)
  below : ∀ hash extent, traced.Live hash extent →
    extent.range.2 ≤ traced.store.zoneCursors extent.zoneId
  disjoint : ∀ zone, Disjoint (traced.store.freeLists zone)
  free : ∀ zone, ∀ entry ∈ traced.store.freeLists zone,
    (span entry).2 ≤ traced.store.zoneCursors zone

/-- `Store::open` on the device followed by `restore` of the state. -/
def remount (traced : Traced Hash) : Traced Hash :=
  { traced with store := traced.store.reopen.restore traced.store.state }

/-- What was live before and is not released reads back the bytes it had. -/
def Serves (zstd : Zstd) (before traced : Traced Hash) : Prop :=
  ∀ hash extent, before.Live hash extent → 0 < traced.store.refcount hash →
    ∃ handed, traced.latest hash = some handed ∧
      traced.store.readExtent zstd handed = before.content hash

/-- Contents and descriptors once known stay known. -/
structure Remembers (before traced : Traced Hash) : Prop where
  content : ∀ hash data, before.content hash = some data → traced.content hash = some data
  /-- A hash that was handed an extent has one. -/
  latest : ∀ hash extent, before.latest hash = some extent → ∃ handed,
    traced.latest hash = some handed

end Traced

section Runs
variable {zstd : Zstd} {traced before : Traced Hash}

omit [DecidableEq Hash] in
/-- A sound store has its live extents intact. -/
theorem Sound.intact (sound : Sound zstd traced) : traced.Intact zstd where
  reads := fun hash extent live => sound.reads _ (sound.latest hash extent live.1 live.2)
  apart := by
    intro hash extent other against live alive different
    refine sound.apart _ (sound.latest hash extent live.1 live.2) _
      (sound.latest other against alive.1 alive.2) fun same => different ?_
    exact (Prod.mk.inj same).2
  unfreed := fun hash extent live => sound.unfreed _ (sound.latest hash extent live.1 live.2)
  below := fun hash extent live => sound.below _ (sound.latest hash extent live.1 live.2)
  disjoint := sound.disjoint
  free := sound.free

omit [DecidableEq Hash] in
theorem Sound.remount (sound : Sound zstd traced) : Sound zstd traced.remount := by
  have fewer : ∀ entry ∈ traced.remount.store.recorded, entry ∈ traced.store.recorded := by
    intro entry mem
    rcases Store.mem_recorded.mp mem with ⟨zone, _, segment, opened, _⟩ | closed
    · cases opened
    · exact Store.mem_recorded.mpr (.inr closed)
  exact
    { sound with
      zoned := by
        intro zone segment opened
        cases opened
      plain := fun entry mem => sound.plain entry (fewer entry mem)
      recorded := fun entry mem live => sound.recorded entry (fewer entry mem) live }

omit [DecidableEq Hash] in
theorem Traced.Remembers.refl (traced : Traced Hash) : traced.Remembers traced :=
  ⟨fun _ _ known => known, fun _ extent known => ⟨extent, known⟩⟩

theorem Traced.Remembers.write (remembers : before.Remembers traced) {data : Bytes} {hash : Hash}
    (fits : traced.FitsContent data hash) (compress : Bool) :
    before.Remembers (traced.write zstd data hash compress) := by
  unfold Traced.write
  split
  · refine ⟨fun other bytes known => fits.known (remembers.content other bytes known),
      fun other extent known => ?_⟩
    unfold Traced.wrote
    dsimp only
    rw [update_apply]
    split_ifs
    · exact ⟨_, rfl⟩
    · exact remembers.latest other extent known
  · exact ⟨remembers.content, remembers.latest⟩

theorem Traced.Remembers.clean (remembers : before.Remembers traced) (index : Nat) :
    before.Remembers (traced.clean zstd index) := by
  unfold Traced.clean
  cases traced.store.closedSegments[index]? with
  | none => exact remembers
  | some segment =>
    dsimp only
    split_ifs with complete
    · refine ⟨remembers.content, fun hash extent known => ?_⟩
      rcases announce_cases (relocate zstd segment.extents traced.store).moves traced.latest hash
        with ⟨same, -⟩ | ⟨moved, -, last⟩
      · obtain ⟨handed, still⟩ := remembers.latest hash extent known
        exact ⟨handed, same.trans still⟩
      · exact ⟨moved, last⟩
    · exact ⟨remembers.content, remembers.latest⟩

theorem Traced.Remembers.perform (remembers : before.Remembers traced) {event : Event Hash}
    (careful : traced.Careful event) : before.Remembers (traced.perform zstd event) := by
  cases event with
  | write data hash compress => exact remembers.write careful compress
  | add hash delta => exact ⟨remembers.content, remembers.latest⟩
  | clean index => exact remembers.clean index

omit [DecidableEq Hash] in
theorem Sound.serves (was : Sound zstd before) (sound : Sound zstd traced)
    (remembers : before.Remembers traced) : before.Serves zstd traced := by
  intro hash extent live alive
  obtain ⟨data, content, -⟩ := was.reads _ (was.latest hash extent live.1 live.2)
  obtain ⟨handed, known⟩ := remembers.latest hash extent live.1
  obtain ⟨bytes, present, read⟩ := sound.reads _ (sound.latest hash handed known alive)
  have same : bytes = data := by
    have still := remembers.content hash data content
    rw [present] at still
    exact Option.some.inj still
  refine ⟨handed, known, ?_⟩
  rw [read, content, same]

/-- One careful call of a store that tracks what it handed out. -/
theorem sound_step (inverts : zstd.Inverts) (state : Traced Hash) (event : Event Hash)
    (next : Traced Hash) (fine : Sound zstd state ∧ Tracked state)
    (careful : state.Careful event) (taken : state.step zstd event = some next) :
    Sound zstd next ∧ Tracked next := by
  obtain ⟨sound, tracked⟩ := fine
  cases taken
  have knows : state.Knows event := by
    cases event with
    | clean index => exact tracked.remembered
    | _ => trivial
  exact ⟨sound.perform inverts careful knows, tracked.perform inverts sound careful⟩

omit [DecidableEq Hash] in
theorem tracked_start (geo : Geometry) : Tracked (Traced.start geo : Traced Hash) := by
  intro hash extent known
  cases known

end Runs

section Claims
variable {zstd : Zstd} {geo : Geometry}

/-- In every run of careful calls on zones of at most `2 ^ 32` bytes, live extents stay intact. -/
theorem live_extents_intact (inverts : zstd.Inverts) (small : geo.zoneSize ≤ 2 ^ 32)
    (events : List (Event Hash))
    (careful : Along (Traced.step zstd) Traced.Careful events (Traced.start geo)) :
    Always (Traced.step zstd) (Traced.Intact zstd) events (Traced.start geo) :=
  always_of_along (sound_step inverts) (fun _ fine => fine.1.intact)
    ⟨sound_start zstd small, tracked_start geo⟩ careful

/-- After a remount, in every run of careful calls whose cleanings know the live extents in their
segment, what was live at the remount and is not released reads back the bytes it had, as it does
in every run of careful calls without the remount. -/
theorem remount_serves_live (inverts : zstd.Inverts) (small : geo.zoneSize ≤ 2 ^ 32)
    (events later : List (Event Hash)) (traced : Traced Hash)
    (ran : run (Traced.step zstd) events (Traced.start geo) = some traced)
    (careful : Along (Traced.step zstd) Traced.Careful events (Traced.start geo)) :
    (Along (Traced.step zstd)
        (fun state event => state.Careful event ∧ state.Knows event) later
        traced.remount →
      Always (Traced.step zstd) (traced.Serves zstd) later traced.remount) ∧
    (Along (Traced.step zstd) Traced.Careful later traced →
      Always (Traced.step zstd) (traced.Serves zstd) later traced) := by
  obtain ⟨sound, tracked⟩ := run_keeps (sound_step inverts)
    ⟨sound_start zstd small, tracked_start geo⟩ careful ran
  have own := Traced.Remembers.refl traced
  constructor
  · apply @always_of_along _ _ _ _ fun state => Sound zstd state ∧ traced.Remembers state
    · intro state event next fine allowed taken
      cases taken
      exact ⟨fine.1.perform inverts allowed.1 allowed.2, fine.2.perform allowed.1⟩
    · intro state fine
      exact sound.serves fine.1 fine.2
    · exact ⟨sound.remount, own.content, own.latest⟩
  · apply @always_of_along _ _ _ _ fun state =>
      (Sound zstd state ∧ Tracked state) ∧ traced.Remembers state
    · intro state event next fine allowed taken
      refine ⟨sound_step inverts state event next fine.1 allowed taken, ?_⟩
      cases taken
      exact fine.2.perform allowed
    · intro state fine
      exact sound.serves fine.1.1 fine.2
    · exact ⟨⟨sound, tracked⟩, own⟩

end Claims

section Examples

/-- A compressor that never makes anything shorter. -/
def uncompressed : Zstd where
  encode := fun _ => none
  decode := fun _ => none

/-- It inverts what it compresses, which is nothing. -/
theorem uncompressed_inverts : uncompressed.Inverts := by
  intro data packed encoded
  cases encoded

/-- One zone of four segments of eight bytes. -/
def smallGeometry : Geometry where
  zoneCount := 1
  zoneSize := 32
  segmentSize := 8
  segment_pos := by decide

/-- Some equal bytes. -/
def bytes (count : Nat) (byte : UInt8) : Bytes := List.replicate count byte

/-- Five extents. The second cleaning is of a segment that the cursor has not left, and frees all
of it; the fourth extent is put there, and the fifth at the cursor inside it. -/
def clobber : List (Event Nat) :=
  [.write (bytes 8 1) 1 false, .add 1 1, .write (bytes 4 2) 2 false, .add 2 1, .add 1 (-1),
    .clean 0, .write (bytes 4 3) 3 false, .add 3 1, .clean 0, .write (bytes 8 4) 4 false,
    .add 4 1, .write (bytes 4 5) 5 false, .add 5 1]

/-- The store after it. -/
def clobbered : Traced Nat := reach (Traced.step uncompressed) clobber (Traced.start smallGeometry)

/-- The fourth extent is live, and half of it is gone. -/
theorem overwrites_live_extent :
    ¬ ∀ (zstd : Zstd) (geo : Geometry) (events : List (Event Nat)), zstd.Inverts →
      geo.zoneSize ≤ 2 ^ 32 →
      Always (Traced.step zstd) (Traced.Intact zstd) events (Traced.start geo) := by
  intro all
  have ran : run (Traced.step uncompressed) clobber (Traced.start smallGeometry) =
      some clobbered := run_eq_reach (by decide +kernel)
  have intact := (all uncompressed smallGeometry clobber uncompressed_inverts (by decide)).last ran
  have handed : clobbered.latest 4 = some ⟨0, 8, 8, 0, .store⟩ := by decide +kernel
  have live : 0 < clobbered.store.refcount 4 := by decide +kernel
  have written : clobbered.content 4 = some (bytes 8 4) := by decide +kernel
  have read : clobbered.store.readExtent uncompressed ⟨0, 8, 8, 0, .store⟩ =
      some (bytes 4 4 ++ bytes 4 5) := by decide +kernel
  obtain ⟨data, content, same⟩ := intact.reads 4 _ ⟨handed, live⟩
  rw [written] at content
  rw [read, ← content] at same
  exact absurd same (by decide)

/-- Two extents, of which the first dies and its segment is cleaned, and a third in its place. -/
def reuse : List (Event Nat) :=
  [.write (bytes 8 1) 1 false, .add 1 1, .write (bytes 4 2) 2 false, .add 2 1, .add 1 (-1),
    .clean 0, .write (bytes 4 3) 3 false, .add 3 1]

/-- A run with a cleaning and the reuse of what it freed. -/
theorem live_extents_intact_reused :
    Along (Traced.step uncompressed) Traced.Careful reuse
        (Traced.start smallGeometry) ∧
      Always (Traced.step uncompressed) (Traced.Intact uncompressed) reuse
        (Traced.start smallGeometry) :=
  ⟨by decide +kernel,
    live_extents_intact uncompressed_inverts (by decide) reuse (by decide +kernel)⟩

/-- An extent that fills half a segment. -/
def half : List (Event Nat) := [.write (bytes 4 1) 1 false, .add 1 1]

/-- The store after it. -/
def halved : Traced Nat := reach (Traced.step uncompressed) half (Traced.start smallGeometry)

/-- A second extent in the other half of the segment, which is closed and cleaned when that
extent has died. -/
def refill : List (Event Nat) :=
  [.write (bytes 4 2) 2 false, .add 2 1, .write (bytes 4 3) 3 false, .add 3 1, .add 2 (-1),
    .clean 0, .write (bytes 8 4) 4 false]

/-- The store after it, with a remount before. -/
def refilled : Traced Nat := reach (Traced.step uncompressed) refill halved.remount

/-- The first extent, recorded nowhere after the remount, is freed with the segment and written
over, although every call is careful. -/
theorem remount_loses_live_extent :
    ¬ ∀ (zstd : Zstd) (geo : Geometry) (events later : List (Event Nat)) (traced : Traced Nat),
      zstd.Inverts → geo.zoneSize ≤ 2 ^ 32 →
      run (Traced.step zstd) events (Traced.start geo) = some traced →
      Along (Traced.step zstd) Traced.Careful events (Traced.start geo) →
      Along (Traced.step zstd) Traced.Careful later traced →
      Along (Traced.step zstd) Traced.Careful later traced.remount →
      Always (Traced.step zstd) (traced.Serves zstd) later traced.remount := by
  intro all
  have first : run (Traced.step uncompressed) half (Traced.start smallGeometry) = some halved :=
    run_eq_reach (by decide +kernel)
  have ran : run (Traced.step uncompressed) refill halved.remount = some refilled :=
    run_eq_reach (by decide +kernel)
  have serves := (all uncompressed smallGeometry half refill halved uncompressed_inverts
    (by decide) first (by decide +kernel) (by decide +kernel) (by decide +kernel)).last ran
  have live : halved.Live 1 ⟨0, 0, 4, 0, .store⟩ := ⟨by decide +kernel, by decide +kernel⟩
  have counted : 0 < refilled.store.refcount 1 := by decide +kernel
  have handed : refilled.latest 1 = some ⟨0, 0, 4, 0, .store⟩ := by decide +kernel
  have read : refilled.store.readExtent uncompressed ⟨0, 0, 4, 0, .store⟩ ≠
      halved.content 1 := by decide +kernel
  obtain ⟨extent, known, same⟩ := serves 1 _ live counted
  rw [handed] at known
  rw [← Option.some.inj known] at same
  exact read same

/-- Two extents in two segments, the first of which is closed. -/
def spread : List (Event Nat) :=
  [.write (bytes 4 1) 1 false, .add 1 1, .write (bytes 8 2) 2 false, .add 2 1]

/-- The store after it. -/
def spreaded : Traced Nat := reach (Traced.step uncompressed) spread (Traced.start smallGeometry)

/-- A cleaning after a remount of a segment that holds nothing whose record was forgotten. -/
theorem remount_serves_live_cleaned :
    run (Traced.step uncompressed) spread (Traced.start smallGeometry) = some spreaded ∧
      Always (Traced.step uncompressed) (spreaded.Serves uncompressed) [.clean 0]
        spreaded.remount :=
  have ran := run_eq_reach (by decide +kernel)
  ⟨ran, (remount_serves_live uncompressed_inverts (by decide) spread [.clean 0] spreaded ran
    (by decide +kernel)).1 (by decide +kernel)⟩

end Examples
end LionFS.Cluster.Extents
