import LionFS.Cluster.Engine.Model
import Mathlib.Data.Nat.Pairing

/-!
# An instance of what the engine takes from elsewhere

Hashes that are numbers coding what they are of, chunks that are whole files,
and no compression, encryption or parity, to run the engine on small inputs.
-/
namespace LionFS.Cluster.Instance
open LionFS Extents Nat

/-- A number that codes a string of bytes. -/
def codeBytes : Bytes → Nat
  | [] => 0
  | byte :: rest => byte.toNat + 1 + 257 * codeBytes rest

/-- A number that codes a list of numbers. -/
def codeList : List Nat → Nat
  | [] => 0
  | number :: rest => pair number (codeList rest) + 1

/-- A number for each kind of node. -/
def codeKind : NodeKind → Nat
  | .file => 0
  | .directory => 1
  | .tombstone => 2

/-- A number that codes a node. -/
def codeNode (node : VersionNode Nat) : Nat :=
  pair node.contentHash (pair (codeList node.parents)
    (pair node.vclock (pair node.timestamp (codeKind node.kind))))

/-- The digits of a number to the base two, as bytes one and two. -/
def digits : Nat → Nat → Bytes
  | 0, _ => []
  | fuel + 1, number => (if number % 2 = 0 then 1 else 2) :: digits fuel (number / 2)

/-- A list of numbers, each ended by a zero. -/
def packNumbers : List Nat → Bytes
  | [] => []
  | number :: rest => digits (number.log2 + 1) number ++ 0 :: packNumbers rest

/-- Read a list of numbers back. -/
def unpackNumbers : Bytes → Option (List Nat)
  | [] => some []
  | byte :: rest =>
    match unpackNumbers rest with
    | none => none
    | some numbers =>
      if byte = 0 then some (0 :: numbers)
      else
        match numbers with
        | [] => none
        | number :: later => some ((2 * number + if byte = 1 then 0 else 1) :: later)

/-- The instance. -/
def numbers : Outside Nat Nat where
  of := codeBytes
  zero := 0
  nodeHash := codeNode
  dirHash := fun children => codeList (children.map fun entry => pair entry.1 entry.2)
  pack := packNumbers
  unpack := unpackNumbers
  chunk := fun data => if data = [] then [] else [data]
  zstd := { encode := fun _ => none, decode := fun _ => none }
  encrypt := fun _ data => some data
  decrypt := fun _ data => some data
  parity := fun _ => none
  crc := fun _ => 0

theorem codeBytes_injective : Function.Injective codeBytes := by
  intro first
  induction first with
  | nil =>
    intro second same
    cases second with
    | nil => rfl
    | cons byte rest =>
      unfold codeBytes at same
      omega
  | cons byte rest ih =>
    intro second same
    cases second with
    | nil =>
      unfold codeBytes at same
      omega
    | cons other later =>
      have low := byte.toNat_lt
      have high := other.toNat_lt
      unfold codeBytes at same
      have bytes : byte.toNat = other.toNat := by omega
      have rests : codeBytes rest = codeBytes later := by omega
      rw [UInt8.toNat_inj.mp bytes, ih rests]

theorem codeList_injective : Function.Injective codeList := by
  intro first
  induction first with
  | nil =>
    intro second same
    cases second with
    | nil => rfl
    | cons number rest =>
      unfold codeList at same
      omega
  | cons number rest ih =>
    intro second same
    cases second with
    | nil =>
      unfold codeList at same
      omega
    | cons other later =>
      unfold codeList at same
      obtain ⟨numbers, rests⟩ := pair_eq_pair.mp (succ.inj same)
      rw [numbers, ih rests]

/-- Nodes with one code are equal. -/
theorem codeNode_injective : Function.Injective codeNode := by
  intro first second same
  obtain ⟨content, same⟩ := pair_eq_pair.mp same
  obtain ⟨parents, same⟩ := pair_eq_pair.mp same
  obtain ⟨vclock, same⟩ := pair_eq_pair.mp same
  obtain ⟨time, same⟩ := pair_eq_pair.mp same
  have kind : first.kind = second.kind := by
    cases one : first.kind <;> cases two : second.kind <;> rw [one, two] at same <;>
      first | rfl | exact absurd same (by decide)
  cases first
  cases second
  dsimp only at content parents vclock time kind
  rw [content, codeList_injective parents, vclock, time, kind]

theorem unpack_digits {fuel number : Nat} (fits : number < 2 ^ fuel) {tail : Bytes}
    {later : List Nat} (read : unpackNumbers tail = some (0 :: later)) :
    unpackNumbers (digits fuel number ++ tail) = some (number :: later) := by
  induction fuel generalizing number with
  | zero =>
    have zero : number = 0 := by omega
    rw [zero]
    exact read
  | succ fuel ih =>
    have half : number / 2 < 2 ^ fuel := by
      rw [pow_succ] at fits
      omega
    have below := ih half
    unfold digits
    rw [List.cons_append]
    unfold unpackNumbers
    rw [below]
    dsimp only
    by_cases even : number % 2 = 0
    · rw [if_pos even, if_neg (by decide), if_pos rfl]
      have whole : 2 * (number / 2) + 0 = number := by omega
      rw [whole]
    · rw [if_neg even, if_neg (by decide), if_neg (by decide)]
      have whole : 2 * (number / 2) + 1 = number := by omega
      rw [whole]

theorem unpack_pack (list : List Nat) : unpackNumbers (packNumbers list) = some list := by
  induction list with
  | nil => rfl
  | cons number rest ih =>
    have ended : unpackNumbers (0 :: packNumbers rest) = some (0 :: rest) := by
      unfold unpackNumbers
      rw [ih]
      rfl
    exact unpack_digits lt_log2_self ended

/-- Nothing collides, and what is undone is what was done. -/
theorem numbers_lawful : numbers.Lawful where
  of_injective := codeBytes_injective
  nodeHash_injective := codeNode_injective
  dirHash_injective := by
    intro first second same
    refine List.map_injective_iff.mpr ?_ (codeList_injective same)
    intro one two equal
    obtain ⟨name, hash⟩ := pair_eq_pair.mp equal
    exact Prod.ext name hash
  unpack_pack := unpack_pack
  inverts := by
    intro data packed encoded
    cases encoded
  decrypt_encrypt := fun _ _ _ wrapped => wrapped.symm

/-- Payloads are journaled; eight data shards and three of parity; half a segment may be dead. -/
def config : Config where
  walMode := .full
  dataShards := 8
  parityShards := 3
  threshold := (1, 2)

/-- One zone of sixty-four segments. -/
def geometry : Geometry where
  zoneCount := 1
  zoneSize := 4096
  segmentSize := 64
  segment_pos := by decide

end LionFS.Cluster.Instance
