import LionFS.Cluster.Checkpoint.Model
import LionFS.Cluster.Extents.Allocation
import Mathlib.Data.List.Induction

/-!
# Superblock copies in a file

What the superblock copies and the zone map of a file read as after writes: a
copy that is written reads back, and writes elsewhere leave it. `open` finds the
copy with the greatest epoch.
-/
namespace LionFS.Cluster.Checkpoint
open LionFS Extents Ranges List Nat Words
variable {Hash : Type} {codec : Codec Hash} {writes : List (Nat × Bytes)} {file : Device}
section Files

theorem checkpointOffset_eq : checkpointOffset = 16384 := rfl

theorem dataStart_eq : dataStart = 16384 + 8 * 1024 * 1024 := rfl

theorem flush_cons (write : Nat × Bytes) (writes : List (Nat × Bytes)) (file : Device) :
    flush (write :: writes) file = flush writes (file.write write.1 write.2) := rfl

theorem len_le_flush (writes : List (Nat × Bytes)) (file : Device) :
    file.len ≤ (flush writes file).len := by
  induction writes generalizing file with
  | nil => exact le_refl _
  | cons write rest ih =>
    rw [flush_cons]
    exact (le_max_left file.len _).trans (ih (file.write write.1 write.2))

theorem read_flush {offset length : Nat} (behind : ∀ write ∈ writes, offset + length ≤ write.1)
    (mem : offset + length ≤ file.len) :
    (flush writes file).read offset length = file.read offset length := by
  induction writes generalizing file with
  | nil => rfl
  | cons write rest ih =>
    have here := behind write mem_cons_self
    rw [flush_cons, ih (forall_mem_cons.mp behind).2
      (mem.trans (le_max_left _ _)), Device.read_write_apart _ mem]
    exact .inl here

/-- What is read from where something was written begins with it. -/
theorem read_write_front {offset length : Nat} {data : Bytes} (fits : data.length ≤ length)
    (inside : offset + length ≤ file.len) :
    ∃ behind, (file.write offset data).read offset length = some (data ++ behind) ∧
      (data ++ behind).length = length := by
  refine ⟨(range (length - data.length)).map fun index =>
    file.cell (offset + (data.length + index)), ?_, ?_⟩
  · have split : range length = range data.length ++
        (range (length - data.length)).map (data.length + ·) := by
      rw [← range_add, Nat.add_sub_cancel' fits]
    have same := @Device.read_write_same file offset data
    unfold Device.read Device.write at same ⊢
    dsimp only at same ⊢
    rw [if_neg (by omega)] at same
    rw [if_neg (by omega), split, map_append, Option.some.inj same, map_map]
    congr 2
    refine map_congr_left fun index mem => ?_
    have bound := mem_range.mp mem
    exact if_neg (by dsimp only; omega)
  · rw [length_append, length_map, length_range]
    omega

/-- What is read of the end of a range. -/
theorem read_tail {offset front length : Nat} {bytes : Bytes}
    (read : file.read offset (front + length) = some bytes) :
    file.read (offset + front) length = some (bytes.drop front) := by
  unfold Device.read at read ⊢
  split_ifs at read with short
  rw [if_neg (by omega), ← Option.some.inj read, range_add, map_append,
    drop_left' (by simp), map_map]
  congr 1
  refine map_congr_left fun index _ => ?_
  rw [Function.comp_apply, add_assoc]

end Files

variable {sb : Superblock Hash}
section Parsing

@[simp] theorem length_framed (body : Bytes) : (framed codec body).length = 8 + body.length := by
  simp only [framed, framedWith, length_append, length_encodeBig]

@[simp] theorem length_sbFrame (sb : Superblock Hash) :
    (sbFrame codec sb).length = 16 + (codec.serialize sb).length := by
  simp only [sbFrame, length_append, length_encodeBig]

theorem parseSbCopy_sbFrame (lawful : codec.Lawful) (narrow : sb.Narrow)
    (magic : sb.magic = sbMagic) (behind : Bytes) :
    parseSbCopy codec (sbFrame codec sb ++ behind) = some sb := by
  have fits := lawful.superblock_fits sb
  have bound := (codec.crc (codec.serialize sb)).toNat_lt
  obtain ⟨len, crc⟩ := decodeBig_front (codec.serialize sb).length
    (codec.crc (codec.serialize sb)).toNat
    (encodeBig 8 sb.epoch ++ (codec.serialize sb ++ behind))
  rw [mod_eq_of_lt (by omega)] at len
  rw [mod_eq_of_lt bound] at crc
  have body : (sbFrame codec sb ++ behind).drop 16 = codec.serialize sb ++ behind := by
    rw [sbFrame, append_assoc, drop_left' (by simp)]
  have frame : sbFrame codec sb ++ behind = encodeBig 4 (codec.serialize sb).length ++
      (encodeBig 4 (codec.crc (codec.serialize sb)).toNat ++
        (encodeBig 8 sb.epoch ++ (codec.serialize sb ++ behind))) := by
    simp only [sbFrame, append_assoc]
  rw [← frame] at len crc
  unfold parseSbCopy
  dsimp only
  rw [len, crc, body, take_left, length_append, length_sbFrame, if_neg (by omega),
    if_neg (by omega), if_neg (by simp), lawful.superblock sb narrow]
  exact Option.filter_some_pos (by simpa using magic)

theorem parseGeometry_framed (lawful : codec.Lawful) {geo : Geometry}
    (narrow : NarrowGeometry geo) (behind : Bytes) :
    parseGeometry codec (framed codec (codec.serializeGeometry geo) ++ behind) =
      if geo.zoneCount ≠ 0 ∧ geo.zoneSize ≠ 0 then some geo else none := by
  have fits := lawful.geometry_fits geo
  have bound := (codec.crc (codec.serializeGeometry geo)).toNat_lt
  obtain ⟨len, crc⟩ := decodeBig_front (codec.serializeGeometry geo).length
    (codec.crc (codec.serializeGeometry geo)).toNat (codec.serializeGeometry geo ++ behind)
  rw [mod_eq_of_lt (by omega)] at len
  rw [mod_eq_of_lt bound] at crc
  unfold parseGeometry framed framedWith
  rw [append_assoc, append_assoc]
  dsimp only
  rw [len, crc, ← append_assoc, drop_left' (by simp), take_left,
    if_neg (by simp; omega), if_neg (by simp; omega), if_neg (by simp), lawful.geometry geo narrow]
  simp only [Option.filter_some, decide_eq_true_eq]

end Parsing

section Copies

/-- A superblock copy in a file. -/
def copyIn (codec : Codec Hash) (file : Device) (index : Nat) : Option (Superblock Hash) :=
  (file.read (index * 4096) 4096).bind (parseSbCopy codec)

/-- The geometry in a file. -/
def geometryIn (codec : Codec Hash) (file : Device) : Option Geometry :=
  (file.read (3 * 4096) 4096).bind (parseGeometry codec)

/-- The superblock that `open` finds in a file. -/
def newestIn (codec : Codec Hash) (file : Device) : Option (Superblock Hash) :=
  newest ((range 3).filterMap (copyIn codec file))

theorem copyIn_write (lawful : codec.Lawful) (narrow : sb.Narrow) (magic : sb.magic = sbMagic)
    (long : dataStart ≤ file.len) {index other : Nat} (mem : index < 3) :
    copyIn codec (file.write (other * 4096) (sbFrame codec sb)) index =
      if index = other then some sb else copyIn codec file index := by
  have fits := lawful.superblock_fits sb
  have size := @length_sbFrame _ codec sb
  have start := dataStart_eq
  unfold copyIn
  by_cases same : index = other
  · obtain ⟨behind, read, -⟩ := @read_write_front file (other * 4096) 4096 (sbFrame codec sb)
      (by omega) (by omega)
    rw [if_pos same, same, read, Option.bind_some, parseSbCopy_sbFrame lawful narrow magic]
  · rw [if_neg same, Device.read_write_apart _ (by omega)]
    unfold Apart
    dsimp only
    omega

theorem copyIn_flush (long : dataStart ≤ file.len) (behind : ∀ write ∈ writes, 3 * 4096 ≤ write.1)
    {index : Nat} (inside : index < 3) :
    copyIn codec (flush writes file) index = copyIn codec file index := by
  have start := dataStart_eq
  unfold copyIn
  rw [read_flush (fun write mem => ?_) (by omega)]
  have here := behind write mem
  omega

theorem geometryIn_flush (long : dataStart ≤ file.len)
    (behind : ∀ write ∈ writes, checkpointOffset ≤ write.1) :
    geometryIn codec (flush writes file) = geometryIn codec file := by
  have start := dataStart_eq
  have slot := checkpointOffset_eq
  unfold geometryIn
  rw [read_flush (fun write mem => ?_) (by omega)]
  have here := behind write mem
  omega

theorem newest_spec (copies : List (Superblock Hash)) :
    (newest copies = none → copies = []) ∧
      ∀ best, newest copies = some best → best ∈ copies ∧ ∀ sb ∈ copies, sb.epoch ≤ best.epoch := by
  unfold newest
  induction copies using reverseRecOn with
  | nil => exact ⟨fun _ => rfl, fun best found => nomatch found⟩
  | append_singleton copies sb ih =>
    rw [foldl_append, foldl_cons, foldl_nil]
    cases before : copies.foldl _ none with
    | none =>
      have empty := ih.1 before
      rw [empty]
      refine ⟨fun absent => (nomatch absent), fun best found => ?_⟩
      cases found
      simp
    | some old =>
      obtain ⟨mem, most⟩ := ih.2 old before
      dsimp only
      split_ifs with later
      · refine ⟨fun absent => (nomatch absent), fun best found => ?_⟩
        cases found
        refine ⟨by simp, forall_mem_append.mpr ⟨?_, forall_mem_singleton.mpr le_rfl⟩⟩
        exact fun other early => (most other early).trans later
      · refine ⟨fun absent => (nomatch absent), fun best found => ?_⟩
        cases found
        refine ⟨mem_append_left _ mem, forall_mem_append.mpr ⟨most, forall_mem_singleton.mpr ?_⟩⟩
        omega

theorem newestIn_eq (one : ∃ index < 3, copyIn codec file index = some sb)
    (others : ∀ index < 3, ∀ other, copyIn codec file index = some other →
      other = sb ∨ other.epoch < sb.epoch) : newestIn codec file = some sb := by
  obtain ⟨index, inside, found⟩ := one
  have among : sb ∈ (range 3).filterMap (copyIn codec file) :=
    mem_filterMap.mpr ⟨index, mem_range.mpr inside, found⟩
  obtain ⟨absent, present⟩ := newest_spec ((range 3).filterMap (copyIn codec file))
  unfold newestIn
  cases best : newest ((range 3).filterMap (copyIn codec file)) with
  | none =>
    rw [absent best] at among
    cases among
  | some other =>
    obtain ⟨mem, most⟩ := present other best
    obtain ⟨place, bound, read⟩ := mem_filterMap.mp mem
    rcases others place (mem_range.mp bound) other read with same | less
    · rw [same]
    · have greater := most sb among
      omega

end Copies
end LionFS.Cluster.Checkpoint
