import Mathlib.Data.List.Induction
import Mathlib.Data.List.TakeDrop
import Mathlib.Order.Nat
import LionFS.Data.Machine

/-!
# Small writes

`wiring::small_write` keeps small writes as records of their file, and
`read_overlay` lays the records over zeros. It does so whatever the type of a
record: a truncation cuts nothing off, and a deleted file stays. What is read is
what the records mean, in every state, exactly when no record deletes and none cuts.
-/
namespace LionFS.SmallWrite
open Function List

/-- The types of records with file state. -/
inductive RecordType where
  | create
  | data
  | delete
  | truncate
deriving DecidableEq

structure OverlayRec where
  kind : RecordType
  offset : Nat
  payload : List UInt8
deriving DecidableEq

/-- The records of each file, in the order they were appended. -/
abbrev Overlay := Nat → List OverlayRec

/-- A call of `write`, and whether the sink of the log takes the record. -/
structure Request where
  fileId : Nat
  record : OverlayRec
  sinkTakes : Bool

inductive WriteRoute where
  | recordLog
  | tree
deriving DecidableEq

inductive AppendError where
  | exceedsThreshold
  | controlPayload
  | sink
deriving DecidableEq

def smallFileMax : Nat := 4032

/-- `RecordLog::append`, by the error it returns. -/
def append (record : OverlayRec) (sinkTakes : Bool) : Option AppendError :=
  let refused : Option AppendError := match record.kind with
    | .create | .data =>
      if smallFileMax < record.payload.length then some .exceedsThreshold else none
    | .delete | .truncate => if record.payload = [] then none else some .controlPayload
  refused.or (if sinkTakes then none else some .sink)

variable (overlay : Overlay)

/-- `SmallWriteRouter::write`. -/
def write (request : Request) : Except AppendError WriteRoute × Overlay :=
  if smallFileMax < request.record.payload.length then (.ok .tree, overlay)
  else match append request.record request.sinkTakes with
    | some error => (.error error, overlay)
    | none => (.ok .recordLog,
        update overlay request.fileId (overlay request.fileId ++ [request.record]))

/-- Where the bytes of a record end. -/
def OverlayRec.stop (record : OverlayRec) : Nat := record.offset + record.payload.length

/-- A buffer with the bytes of a record in their place. -/
def OverlayRec.copied (record : OverlayRec) (buf : List UInt8) : List UInt8 :=
  buf.take record.offset ++ record.payload ++ buf.drop record.stop

def furthest (recs : List OverlayRec) : Nat :=
  recs.foldl (fun furthest record => max furthest record.stop) 0

/-- The records copied into a buffer, one after the other. -/
def lay (recs : List OverlayRec) (buf : List UInt8) : List UInt8 :=
  recs.foldl (fun buf record => if record.stop ≤ buf.length then record.copied buf else buf) buf

/-- `isize::MAX`, the greatest length of a vector. -/
def isizeMax : Nat := 9223372036854775807

/-- `read_overlay`; it panics when there is no vector of the length. -/
def readOverlay (fileId : Nat) : Option (Option (List UInt8)) :=
  let recs := overlay fileId
  if recs = [] then some none
  else if isizeMax < furthest recs then none
  else some (some (lay recs (replicate (furthest recs) 0)))

/-- Some bytes with zeros up to a size. -/
def zeroFilled (size : Nat) (bytes : List UInt8) : List UInt8 :=
  bytes ++ replicate (size - bytes.length) 0

/-- What a record means for a file. -/
def OverlayRec.apply (file : Option (List UInt8)) (record : OverlayRec) : Option (List UInt8) :=
  match record.kind, file with
  | .create, file => some (record.copied (zeroFilled record.stop (file.getD [])))
  | .data, some bytes => some (record.copied (zeroFilled record.stop bytes))
  | .truncate, some bytes => some ((zeroFilled record.offset bytes).take record.offset)
  | _, _ => none

/-- What the records mean, from an empty file. -/
def content (recs : List OverlayRec) : Option (List UInt8) := recs.foldl OverlayRec.apply (some [])

def step (request : Request) : Option Overlay :=
  some (write overlay request).2

/-- Of every file with records what they mean is read. -/
def Reads : Prop :=
  ∀ fileId, overlay fileId ≠ [] → readOverlay overlay fileId = some (content (overlay fileId))

/-- A record that is kept has its place in a vector, does not delete, and does not cut. -/
def Overlays (request : Request) : Prop :=
  (write overlay request).1 = .ok .recordLog →
    request.record.stop ≤ isizeMax ∧ request.record.kind ≠ .delete ∧
      (request.record.kind = .truncate → furthest (overlay request.fileId) ≤ request.record.offset)

variable {overlay : Overlay} {request : Request} {record : OverlayRec} {recs : List OverlayRec}

theorem length_zeroFilled (size : Nat) (bytes : List UInt8) :
    (zeroFilled size bytes).length = max bytes.length size := by
  rw [zeroFilled, length_append, length_replicate]
  omega

variable {buf : List UInt8}

theorem length_copied (fits : record.stop ≤ buf.length) :
    (record.copied buf).length = buf.length := by
  unfold OverlayRec.stop at fits
  simp only [OverlayRec.copied, OverlayRec.stop, length_append, length_take, length_drop]
  omega

theorem furthest_append (recs : List OverlayRec) (record : OverlayRec) :
    furthest (recs ++ [record]) = max (furthest recs) record.stop := foldl_append

theorem lay_append (recs : List OverlayRec) (record : OverlayRec)
    (fits : record.stop ≤ (lay recs buf).length) :
    lay (recs ++ [record]) buf = record.copied (lay recs buf) :=
  foldl_append.trans (if_pos fits)

/-- Laying records that fit keeps the length and commutes with filling up. -/
theorem lay_zeroFilled (fits : furthest recs ≤ buf.length) (size : Nat) :
    (lay recs buf).length = buf.length ∧
      lay recs (zeroFilled size buf) = zeroFilled size (lay recs buf) := by
  induction recs using List.reverseRecOn with
  | nil => exact ⟨rfl, rfl⟩
  | append_singleton front record ih =>
    rw [furthest_append, Nat.max_le] at fits
    obtain ⟨length, filled⟩ := ih fits.1
    have inside : record.stop ≤ (lay front buf).length := fits.2.trans_eq length.symm
    have start : record.offset ≤ (lay front buf).length := (Nat.le_add_right _ _).trans inside
    have wider : record.stop ≤ (lay front (zeroFilled size buf)).length := by
      rw [filled, length_zeroFilled]
      exact inside.trans (le_max_left _ _)
    rw [lay_append _ _ inside, lay_append _ _ wider, length_copied inside, filled]
    refine ⟨length, ?_⟩
    rw [zeroFilled, zeroFilled, length_copied inside, OverlayRec.copied, OverlayRec.copied,
      take_append_of_le_length start, drop_append_of_le_length inside, append_assoc _ (drop _ _)]

variable (recs)

/-- The bytes that are read. -/
def laid : List UInt8 := lay recs (replicate (furthest recs) 0)

theorem laid_zeroFilled (size : Nat) : (laid recs).length = furthest recs ∧
      lay recs (zeroFilled size (replicate (furthest recs) 0)) = zeroFilled size (laid recs) := by
  have zeros : (replicate (furthest recs) (0 : UInt8)).length = furthest recs := length_replicate
  have filled := lay_zeroFilled zeros.ge size
  rwa [zeros] at filled

/-- One more record is copied into the bytes before it, filled up. -/
theorem laid_append (record : OverlayRec) :
    laid (recs ++ [record]) = record.copied (zeroFilled record.stop (laid recs)) := by
  have filled := (laid_zeroFilled recs record.stop).2
  have zeros : replicate (furthest (recs ++ [record])) (0 : UInt8) =
      zeroFilled record.stop (replicate (furthest recs) 0) := by
    rw [zeroFilled, length_replicate, replicate_append_replicate, furthest_append]
    congr 1
    omega
  rw [laid, zeros, lay_append, filled]
  rw [filled, length_zeroFilled]
  exact le_max_right _ _

/-- The records mean what is laid, and it has its place in a vector. -/
def Laid : Prop :=
  content recs = some (laid recs) ∧ furthest recs ≤ isizeMax

variable {recs}

theorem Laid.append_iff (before : Laid recs)
    (control : record.kind = .truncate → record.payload = []) :
    Laid (recs ++ [record]) ↔ record.stop ≤ isizeMax ∧ record.kind ≠ .delete ∧
      (record.kind = .truncate → furthest recs ≤ record.offset) := by
  have meant : content (recs ++ [record]) = record.apply (some (laid recs)) := by
    rw [content, foldl_append, ← content, before.1]
    rfl
  rw [Laid, furthest_append, meant, laid_append, Nat.max_le, and_iff_right before.2, and_comm]
  refine and_congr_right fun _ => ?_
  unfold OverlayRec.apply
  cases kind : record.kind with
  | create => simp
  | data => simp
  | delete => simp
  | truncate =>
    have stop : record.stop = record.offset := by
      rw [OverlayRec.stop, control kind, length_nil, Nat.add_zero]
    rw [OverlayRec.copied, control kind, append_nil, stop, take_append_drop]
    simp only [Option.some.injEq, take_eq_self_iff, length_zeroFilled, (laid_zeroFilled recs 0).1,
      Nat.max_le, Std.le_refl, and_true, ne_eq, reduceCtorEq, not_false_eq_true, forall_const,
      true_and]

theorem reads_iff : Reads overlay ↔ ∀ fileId, Laid (overlay fileId) := by
  refine forall_congr' fun fileId => ?_
  by_cases none : overlay fileId = []
  · rw [none]
    exact ⟨fun _ => ⟨rfl, Nat.zero_le _⟩, fun _ absent => absurd rfl absent⟩
  · rw [readOverlay, if_neg none, Laid]
    split_ifs with beyond
    · simp [none, Nat.not_le.mpr beyond]
    · simp [none, Nat.not_lt.mp beyond, eq_comm, laid]

/-- A call keeps a record, at the end of those of its file, or changes nothing. -/
theorem write_cases (overlay : Overlay) (request : Request) :
    ((write overlay request).1 = .ok .recordLog ∧
      (request.record.kind = .truncate → request.record.payload = []) ∧
      (write overlay request).2 =
        update overlay request.fileId (overlay request.fileId ++ [request.record])) ∨
    ((write overlay request).1 ≠ .ok .recordLog ∧ (write overlay request).2 = overlay) := by
  unfold write
  split_ifs
  · exact .inr ⟨by simp, rfl⟩
  · cases appended : append request.record request.sinkTakes with
    | some error => exact .inr ⟨by simp, rfl⟩
    | none =>
      refine .inl ⟨rfl, fun kind => ?_, rfl⟩
      by_contra payload
      simp [append, kind, payload] at appended

/-- From an empty overlay: in every state what the records mean is read exactly when every record
kept has its place in a vector, does not delete, and does not cut. -/
theorem readOverlay_content_iff (requests : List Request) :
    Machine.Always step Reads requests (fun _ => []) ↔
      Machine.Along step Overlays requests (fun _ => []) := by
  refine Machine.always_iff_along (fun _ good => good) (fun overlay request next good taken => ?_)
    (fun _ _ _ refused => nomatch refused) (reads_iff.mpr fun _ => ⟨rfl, Nat.zero_le _⟩)
  have laid := reads_iff.mp good
  obtain rfl := Option.some.inj taken
  unfold Overlays
  obtain ⟨kept, control, after⟩ | ⟨dropped, after⟩ := write_cases overlay request
  · rw [reads_iff, after, forall_update_iff overlay fun _ => Laid,
      (laid request.fileId).append_iff control]
    exact ⟨fun fine => ⟨fine kept, fun other _ => laid other⟩, fun fine _ => fine.1⟩
  · rw [after]
    exact ⟨fun _ => good, fun _ kept => absurd kept dropped⟩

/-- Two bytes are written and one of them is cut off; both are read. -/
theorem truncate_cuts_nothing : ¬ ∀ requests : List Request,
    Machine.Always step Reads requests (fun _ => []) := by
  intro reads
  have always := reads [⟨1, ⟨.create, 0, [7, 8]⟩, true⟩, ⟨1, ⟨.truncate, 1, []⟩, true⟩]
  exact absurd (always.2.2 1 (by decide)) (by decide)

end LionFS.SmallWrite
