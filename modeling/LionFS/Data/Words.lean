import Mathlib.Tactic.Ring

/-!
# Little-endian words

A word of fixed width is the list of its base-256 digits, least significant
digit first. Reading a word takes its digits from the front of a byte list and
returns the bytes after them, so a record of words is read by one pass over its
bytes and every field law is an instance of `take_encode`.
-/
namespace LionFS.Words
open List

/-- The given number of low digits of a natural, least significant first. -/
def encode : (width value : Nat) → List UInt8
  | 0, _ => []
  | width + 1, value => UInt8.ofNat value :: encode width (value / 256)

/-- The natural with the given digits. -/
def decode : List UInt8 → Nat
  | [] => 0
  | digit :: rest => digit.toNat + 256 * decode rest

@[simp] theorem length_encode (width value : Nat) : (encode width value).length = width := by
  induction width generalizing value with
  | zero => rfl
  | succ width ih => simp [encode, ih]

/-- Decoding returns the value modulo the width of the word. -/
theorem decode_encode (width value : Nat) : decode (encode width value) = value % 256 ^ width := by
  induction width generalizing value with
  | zero => simp [encode, decode, Nat.mod_one]
  | succ width ih =>
    have digit : (UInt8.ofNat value).toNat = value % 256 := by simp
    simp only [encode, decode, ih, digit]
    rw [pow_succ', Nat.mod_mul]

/-- Digits are the encoding of their number. -/
theorem encode_decode (digits : List UInt8) : encode digits.length (decode digits) = digits := by
  induction digits with
  | nil => rfl
  | cons digit rest ih =>
    have bound := digit.toNat_lt
    have low : UInt8.ofNat (digit.toNat + 256 * decode rest) = digit := by
      apply UInt8.toNat_inj.mp
      simp only [UInt8.toNat_ofNat']
      omega
    have high : (digit.toNat + 256 * decode rest) / 256 = decode rest := by omega
    simp only [length_cons, encode, decode, low, high, ih]

/-- A digit list denotes a value below the capacity of its length. -/
theorem decode_lt (digits : List UInt8) : decode digits < 256 ^ digits.length := by
  induction digits with
  | nil => simp [decode]
  | cons digit rest ih =>
    have bound := digit.toNat_lt
    simp only [decode, length_cons, pow_succ']
    omega

/-- The number whose digits are the first bytes of a sequence. -/
@[irreducible] def ofBytes (count : Nat) (bytes : Nat → UInt8) : Nat :=
  decode ((range count).map bytes)

/-- The number tells the first bytes of two sequences apart. -/
theorem ofBytes_inj {count : Nat} {one two : Nat → UInt8}
    (same : ofBytes count one = ofBytes count two) (index : Nat) (mem : index < count) :
    one index = two index := by
  unfold ofBytes at same
  have lists : (range count).map one = (range count).map two := by
    rw [← encode_decode ((range count).map one),
      ← encode_decode ((range count).map two), length_map, length_map, same]
  exact map_inj_left.mp lists index (mem_range.mpr mem)

/-- Read one word from the front, returning the bytes after it. -/
def take (width : Nat) (bytes : List UInt8) : Nat × List UInt8 :=
  (decode (bytes.take width), bytes.drop width)

/-- Reading an encoded word returns its value and exactly the bytes after it. -/
@[simp] theorem take_encode (width value : Nat) (rest : List UInt8) :
    take width (encode width value ++ rest) = (value % 256 ^ width, rest) := by
  simp [take, decode_encode]

/-- Reading a word off a byte list and writing it back restores the list. -/
theorem encode_take (width : Nat) (bytes : List UInt8) (long : width ≤ bytes.length) :
    encode width (take width bytes).1 ++ (take width bytes).2 = bytes := by
  have exact := encode_decode (bytes.take width)
  rw [length_take, Nat.min_eq_left long] at exact
  simp only [take, exact, take_append_drop]

section BigEndian

/-- The given number of low digits of a natural, most significant first. -/
def encodeBig (width value : Nat) : List UInt8 := (encode width value).reverse

/-- The natural with the given digits, most significant first. -/
def decodeBig (digits : List UInt8) : Nat := decode digits.reverse

@[simp] theorem length_encodeBig (width value : Nat) : (encodeBig width value).length = width := by
  rw [encodeBig, length_reverse, length_encode]

/-- Decoding returns the value modulo the width of the word. -/
theorem decodeBig_encodeBig (width value : Nat) :
    decodeBig (encodeBig width value) = value % 256 ^ width := by
  rw [decodeBig, encodeBig, reverse_reverse, decode_encode]

/-- Two words of four digits at the front of bytes. -/
theorem decodeBig_front (first second : Nat) (rest : List UInt8) :
    decodeBig ((encodeBig 4 first ++ (encodeBig 4 second ++ rest)).take 4) = first % 2 ^ 32 ∧
      decodeBig (((encodeBig 4 first ++ (encodeBig 4 second ++ rest)).drop 4).take 4) =
        second % 2 ^ 32 := by
  rw [take_left' (length_encodeBig _ _), drop_left' (length_encodeBig _ _),
    take_left' (length_encodeBig _ _), decodeBig_encodeBig, decodeBig_encodeBig]
  exact ⟨rfl, rfl⟩

end BigEndian
end LionFS.Words
