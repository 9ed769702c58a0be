import LionFS.Cluster.Extents.Writing
import LionFS.Data.Machine
import Mathlib.Data.Fintype.Defs

/-!
# Extents that are kept

A store together with what its callers know: for each hash the bytes written
under it and the descriptor handed out last, and the extents written none of
whose bytes was freed since. `Sound` says that the kept extents, the free lists
and the space beyond the cursors are disjoint, that kept extents read back, and
that what the store holds live is kept. A write keeps it; a change of a count
and a cleaning keep it under conditions that say what the code does not check.
-/
namespace LionFS.Cluster.Extents
open LionFS Ranges
variable {Hash : Type}

/-- A store and what is known of its extents. -/
structure Traced (Hash : Type) where
  store : Store Hash
  /-- The descriptor handed out last for a hash, by a write or by a list of moves. -/
  latest : Hash → Option ExtentDescriptor
  /-- The bytes written last under a hash. -/
  content : Hash → Option Bytes
  /-- The extents written and not freed since, in any part. -/
  kept : List (ExtentDescriptor × Hash)

/-- A call of the store. -/
inductive Event (Hash : Type) where
  /-- `write_extent`. -/
  | write (data : Bytes) (hash : Hash) (compress : Bool)
  /-- `refcount_add`. -/
  | add (hash : Hash) (delta : Int)
  /-- `clean_segment`. -/
  | clean (index : Nat)

/-- A store that was formatted. -/
def Traced.start (geo : Geometry) : Traced Hash where
  store := format geo
  latest := fun _ => none
  content := fun _ => none
  kept := []

/-- An extent of a zone that some freed ranges do not meet. -/
def Spared (zone : Nat) (freed : List (Nat × Nat)) (entry : ExtentDescriptor × Hash) : Prop :=
  entry.1.zoneId = zone → ∀ range ∈ freed, Apart entry.1.range range

instance (zone : Nat) (freed : List (Nat × Nat)) (entry : ExtentDescriptor × Hash) :
    Decidable (Spared zone freed entry) := by
  unfold Spared
  infer_instance

theorem relocate_refcounts (zstd : Zstd) (entries : List (ExtentDescriptor × Hash))
    (store : Store Hash) : (relocate zstd entries store).store.refcounts = store.refcounts := by
  induction entries generalizing store with
  | nil => rfl
  | cons entry rest ih =>
    unfold relocate
    split_ifs
    · exact ih store
    · rfl
    · cases store.readExtent zstd entry.1 with
      | none => rfl
      | some data =>
        have wrote := writeExtent_refcounts zstd data entry.2 false store
        dsimp only
        cases written : writeExtent zstd data entry.2 false store with
        | mk result next =>
          rw [written] at wrote
          cases result with
          | none => exact wrote
          | some moved => exact (ih next).trans wrote

section Perform
variable [DecidableEq Hash]

/-- The descriptors handed out last, after a list of moves was returned. -/
def announce (moves : List (Hash × ExtentDescriptor)) (latest : Hash → Option ExtentDescriptor) :
    Hash → Option ExtentDescriptor :=
  moves.foldl (fun latest move => Function.update latest move.1 (some move.2)) latest

namespace Traced
variable (zstd : Zstd) (traced : Traced Hash)

/-- What is known after `write_extent` returned. -/
def wrote (data : Bytes) (hash : Hash) (extent : ExtentDescriptor) (next : Store Hash) :
    Traced Hash where
  store := next
  latest := Function.update traced.latest hash (some extent)
  content := Function.update traced.content hash (some data)
  kept := (extent, hash) :: traced.kept

/-- What is known after the moves of a cleaning. -/
def relocated (relocation : Relocation Hash) : Traced Hash :=
  { traced with
    store := relocation.store
    kept := relocation.moves.map Prod.swap ++ traced.kept }

/-- What is known after a cleaning has freed what is dead. -/
def reclaimed (index : Nat) (segment : SegmentMeta Hash) : Traced Hash :=
  { traced with
    store := traced.store.reclaim index segment
    kept := traced.kept.filter fun entry =>
      Spared segment.zoneId (traced.store.deadRanges index segment) entry }

/-- `write_extent`, and what is known after it. -/
def write (data : Bytes) (hash : Hash) (compress : Bool) : Traced Hash :=
  match writeExtent zstd data hash compress traced.store with
  | (some extent, next) => traced.wrote data hash extent next
  | (none, next) => { traced with store := next }

/-- `refcount_add`, and what is known after it. -/
def add (hash : Hash) (delta : Int) : Traced Hash :=
  { traced with store := traced.store.refcountAdd hash delta }

/-- `clean_segment`, and what is known after it. -/
def clean (index : Nat) : Traced Hash :=
  match traced.store.closedSegments[index]? with
  | none => traced
  | some segment =>
    let relocation := relocate zstd segment.extents traced.store
    if relocation.complete then
      { traced.relocated relocation with
        latest := announce relocation.moves traced.latest }.reclaimed index segment
    else traced.relocated relocation

/-- A call of the store, and what is known after it. -/
def perform : Event Hash → Traced Hash
  | .write data hash compress => traced.write zstd data hash compress
  | .add hash delta => traced.add hash delta
  | .clean index => traced.clean zstd index

/-- The machine of a store. -/
def step (event : Event Hash) : Option (Traced Hash) :=
  some (traced.perform zstd event)

/-- A hash goes with one content, shorter than `2 ^ 32` bytes. -/
def FitsContent (data : Bytes) (hash : Hash) : Prop :=
  data.length < 2 ^ 32 ∧ (traced.content hash = none ∨ traced.content hash = some data)

/-- A count rises from zero only while no extent recorded for the hash was freed and the one
handed out last is recorded. -/
def Revives (hash : Hash) (delta : Int) : Prop :=
  traced.store.refcount hash = 0 → 0 < delta →
    (∀ entry ∈ traced.store.recorded, entry.2 = hash → entry ∈ traced.kept) ∧
      ∀ extent ∈ traced.latest hash, (extent, hash) ∈ traced.store.recorded

/-- The cursor has left the segment that is cleaned, and no free range meets it. -/
def LeftBehind (index : Nat) : Prop :=
  ∀ segment ∈ traced.store.closedSegments[index]?,
    (segment.bounds traced.store.geo).2 ≤ traced.store.zoneCursors segment.zoneId ∧
      ∀ range ∈ traced.store.freeLists segment.zoneId,
        Apart (segment.bounds traced.store.geo) (span range)

/-- The extents handed out last for live hashes that meet the segment that is cleaned are recorded
in a segment. -/
def Remembered (index : Nat) : Prop :=
  ∀ segment ∈ traced.store.closedSegments[index]?,
    ∀ entry ∈ traced.kept, 0 < traced.store.refcount entry.2 →
      traced.latest entry.2 = some entry.1 → entry.1.zoneId = segment.zoneId →
      ¬ Apart entry.1.range (segment.bounds traced.store.geo) → entry ∈ traced.store.recorded

/-- What the code does not check of a call. -/
def Careful : Event Hash → Prop
  | .write data hash _ => traced.FitsContent data hash
  | .add hash delta => traced.Revives hash delta
  | .clean index => traced.LeftBehind index

/-- What a cleaning has to know, when segments were forgotten. -/
def Knows : Event Hash → Prop
  | .write _ _ _ => True
  | .add _ _ => True
  | .clean index => traced.Remembered index

instance : (event : Event Hash) → Decidable (traced.Careful event)
  | .write data hash _ => by unfold Careful FitsContent; infer_instance
  | .add hash delta => by unfold Careful Revives; infer_instance
  | .clean index => by unfold Careful LeftBehind; infer_instance

instance : (event : Event Hash) → Decidable (traced.Knows event)
  | .write _ _ _ => .isTrue trivial
  | .add _ _ => .isTrue trivial
  | .clean index => by unfold Knows Remembered; infer_instance

theorem clean_spec (index : Nat) :
    (traced.clean zstd index).store = (cleanSegment zstd index traced.store).2 ∧
      ((traced.clean zstd index).latest =
        match (cleanSegment zstd index traced.store).1 with
        | some (_, moves) => announce moves traced.latest
        | none => traced.latest) ∧
      (traced.clean zstd index).store.refcounts = traced.store.refcounts ∧
      (traced.clean zstd index).content = traced.content := by
  unfold clean cleanSegment
  cases traced.store.closedSegments[index]? with
  | none => exact ⟨rfl, rfl, rfl, rfl⟩
  | some segment =>
    have moved := relocate_refcounts zstd segment.extents traced.store
    dsimp only
    split_ifs with complete
    · exact ⟨rfl, rfl, moved, rfl⟩
    · exact ⟨rfl, rfl, moved, rfl⟩

end Traced
end Perform
end LionFS.Cluster.Extents
