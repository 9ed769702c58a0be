import LionFS.File.Write

/-!
# The pieces of a call's data

The loops of `write_file` and `read_file` cut their data at block boundaries. In
closed form there is one piece for each block from the first to the last one,
the part of the data that lies in the block. Every byte of the data lies in one
piece.
-/
namespace LionFS.File

/-- The piece of some data at an offset that lies in a block. -/
def pieceIn (offset length logicalBlock : Nat) : Chunk :=
  let start := max offset (logicalBlock * blockSize)
  { logicalBlock := logicalBlock
    blockOffset := start - logicalBlock * blockSize
    dataPos := start - offset
    size := min (offset + length) ((logicalBlock + 1) * blockSize) - start }

/-- The block behind the last one that some data lies in. -/
def endBlock (offset length : Nat) : Nat :=
  if length = 0 then offset / blockSize else (offset + length - 1) / blockSize + 1

/-- The data ends no earlier than it begins. -/
theorem le_endBlock (offset length : Nat) : offset / blockSize ≤ endBlock offset length := by
  unfold endBlock blockSize
  split_ifs <;> omega

/-- The loop from a position on, which is the start or lies on a block boundary, goes through the
blocks from there to the last one. -/
theorem chunksFrom_eq {offset length fuel spot : Nat} (enough : length - spot ≤ fuel)
    (aligned : spot = 0 ∨ (offset + spot) % blockSize = 0) (mem : spot < length) :
    chunksFrom length fuel spot (offset + spot) =
      (List.range' ((offset + spot) / blockSize)
        (endBlock offset length - (offset + spot) / blockSize)).map (pieceIn offset length) := by
  induction fuel generalizing spot with
  | zero => omega
  | succ fuel ih =>
    unfold chunksFrom
    rw [if_pos mem]
    have piece : (⟨(offset + spot) / blockSize, (offset + spot) % blockSize, spot,
        min (blockSize - (offset + spot) % blockSize) (length - spot)⟩ : Chunk) =
          pieceIn offset length ((offset + spot) / blockSize) := by
      unfold pieceIn
      dsimp only
      unfold blockSize at aligned ⊢
      rw [Chunk.mk.injEq]
      omega
    have ends : endBlock offset length = (offset + length - 1) / blockSize + 1 := by
      unfold endBlock
      rw [if_neg (by omega)]
    dsimp only
    rw [piece]
    by_cases last : spot + min (blockSize - (offset + spot) % blockSize) (length - spot) < length
    · have one_more : endBlock offset length - (offset + spot) / blockSize =
          (endBlock offset length - ((offset + spot) / blockSize + 1)) + 1 := by
        rw [ends]
        unfold blockSize at last ⊢
        omega
      have next_block : (offset + (spot + min (blockSize - (offset + spot) % blockSize)
          (length - spot))) / blockSize = (offset + spot) / blockSize + 1 := by
        unfold blockSize at last ⊢
        omega
      have rest := @ih (spot + min (blockSize - (offset + spot) % blockSize)
        (length - spot)) (by unfold blockSize; omega) (by unfold blockSize at last ⊢; omega) last
      rw [next_block] at rest
      rw [one_more, List.range'_succ, List.map_cons, ← rest, Nat.add_assoc]
    · have only : endBlock offset length - (offset + spot) / blockSize = 1 := by
        rw [ends]
        unfold blockSize at last ⊢
        omega
      have stops : ∀ current, chunksFrom length fuel (spot +
          min (blockSize - (offset + spot) % blockSize) (length - spot)) current = [] := by
        intro current
        cases fuel with
        | zero => rfl
        | succ fuel =>
          unfold chunksFrom
          rw [if_neg last]
      rw [only, stops]
      rfl

/-- The loops go through the pieces in the blocks from the first to the last one. -/
theorem chunks_eq (offset length : Nat) :
    chunks offset length =
      (List.range' (offset / blockSize)
        (endBlock offset length - offset / blockSize)).map (pieceIn offset length) := by
  unfold chunks
  by_cases empty : length = 0
  · subst empty
    unfold endBlock
    rw [if_pos rfl, Nat.sub_self]
    rfl
  · exact @chunksFrom_eq offset length length 0 (by omega) (.inl rfl) (by omega)

end LionFS.File
