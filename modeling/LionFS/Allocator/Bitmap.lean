import LionFS.Data.Run
import Mathlib.Algebra.Group.Nat.Defs
import Mathlib.Logic.Function.Basic
import Mathlib.Tactic.SplitIfs

/-!
# The block bitmap

`allocator::bitmap`: first-fit allocation over the bitmap of one block group.
A scan walks the bitmap blocks, their bytes and the bits of each byte from a
starting block on, leaves a full byte after one test, and takes the first run
of free blocks that is long enough; the callers differ in where they start and
in how much of the run they mark. `scanFrom` is the plain scan bit by bit, and
`scanRun_eq` says that the three loops compute it.
-/
namespace LionFS.Allocator
open Run

/-- The allocation state: the bitmap and the context's two positions. -/
structure Bitmap where
  /-- The bytes of the bitmap blocks. -/
  bytes : Nat → Nat → BitVec 8
  blocksPerGroup : Nat
  /-- `TxContext::alloc_cursor`. -/
  allocCursor : Option Nat
  /-- `TxContext::meta_high_water`. -/
  metaHighWater : Nat

/-- Bits of one bitmap block. -/
def bitsPerBitmapBlock : Nat := 4096 * 8

/-- Whether the bytes of the bitmap blocks have the bit of a block. -/
def bitAt (bytes : Nat → Nat → BitVec 8) (block : Nat) : Bool :=
  (bytes (block / bitsPerBitmapBlock) (block % bitsPerBitmapBlock / 8)).getLsbD (block % 8)

/-- Whether a block is in use. -/
def Bitmap.used (bitmap : Bitmap) (block : Nat) : Bool := bitAt bitmap.bytes block

/-! ## Setting and clearing bits -/

/-- The state of `modify_blocks`: the bitmap blocks, the number of the one in `buf`, and whether
`buf` was changed. -/
structure Buffered where
  bytes : Nat → Nat → BitVec 8
  /-- `current_bm_idx`, which starts at a number no bitmap block has. -/
  current : Option Nat
  buf : Nat → BitVec 8
  modified : Bool

/-- The bitmap blocks once a changed buffer is written back. -/
def Buffered.flush (state : Buffered) : Nat → Nat → BitVec 8 :=
  match state.current with
  | some index =>
    if state.modified then Function.update state.bytes index state.buf else state.bytes
  | none => state.bytes

/-- The buffer holds a bitmap block; another one is written back first. -/
def Buffered.load (state : Buffered) (index : Nat) : Buffered :=
  if state.current = some index then state
  else ⟨state.flush, some index, state.flush index, false⟩

/-- A byte with one bit set or cleared. -/
def modifyByte (set : Bool) (byte : BitVec 8) (bit : Nat) : BitVec 8 :=
  if set then byte ||| 1#8 <<< bit else byte &&& ~~~(1#8 <<< bit)

/-- One round of the loop of `modify_blocks`. -/
def Buffered.modifyBit (set : Bool) (state : Buffered) (block : Nat) : Buffered :=
  let loaded := state.load (block / bitsPerBitmapBlock)
  let byte := block % bitsPerBitmapBlock / 8
  { loaded with
    buf := Function.update loaded.buf byte (modifyByte set (loaded.buf byte) (block % 8))
    modified := true }

/-- The rounds of `modify_blocks`. -/
def modifyRounds (bytes : Nat → Nat → BitVec 8) (start count : Nat) (set : Bool) : Buffered :=
  (List.range count).foldl (fun state index => state.modifyBit set (start + index))
    (Buffered.mk bytes none (fun _ => 0#8) false)

/-- `modify_blocks`: set or clear the bits of a range. -/
def Bitmap.modifyBlocks (bitmap : Bitmap) (start count : Nat) (set : Bool) : Bitmap :=
  { bitmap with bytes := (modifyRounds bitmap.bytes start count set).flush }

/-- `free_extents`. -/
def Bitmap.freeExtents (bitmap : Bitmap) (start count : Nat) : Bitmap :=
  bitmap.modifyBlocks start count false

/-- A round changes one bit of the byte, whichever block was in the buffer. -/
theorem Buffered.flush_modifyBit {state : Buffered} (set : Bool) (block : Nat)
    (held : state.current ≠ none → state.modified = true) :
    (state.modifyBit set block).flush =
      Function.update state.flush (block / bitsPerBitmapBlock)
        (Function.update (state.flush (block / bitsPerBitmapBlock))
          (block % bitsPerBitmapBlock / 8)
          (modifyByte set (state.flush (block / bitsPerBitmapBlock)
            (block % bitsPerBitmapBlock / 8)) (block % 8))) := by
  by_cases same : state.current = some (block / bitsPerBitmapBlock)
  · have changed := held (by simp [same])
    simp [modifyBit, load, flush, same, changed]
  · simp [modifyBit, load, same]
    simp [flush]

/-- The mask of a bit has that bit only. -/
theorem getLsbD_mask (bit : Nat) {other : Nat} (inside : other < 8) :
    (1#8 <<< bit).getLsbD other = decide (other = bit) := by
  rw [BitVec.getLsbD_shiftLeft, BitVec.getLsbD_one]
  simp only [inside, decide_true, Bool.true_and]
  by_cases below : other < bit
  · simp [below, Nat.ne_of_lt below]
  · simp only [below, decide_false, Bool.not_false, Bool.true_and]
    have same : other - bit = 0 ↔ other = bit := by omega
    simp [same]

/-- The mask of a bit tests that bit. -/
theorem and_mask_eq_zero (byte : BitVec 8) {bit : Nat} (inside : bit < 8) :
    byte &&& 1#8 <<< bit = 0#8 ↔ byte.getLsbD bit = false := by
  constructor
  · intro clear
    have own := congrArg (fun word => word.getLsbD bit) clear
    simpa [getLsbD_mask bit inside] using own
  · intro clear
    refine BitVec.eq_of_getLsbD_eq fun other within => ?_
    rw [BitVec.getLsbD_and, getLsbD_mask bit within]
    by_cases same : other = bit
    · simp [same, clear]
    · simp [same]

/-- Setting or clearing a bit of a byte leaves its other bits. -/
theorem getLsbD_modifyByte (set : Bool) (byte : BitVec 8) {bit other : Nat} (inside : other < 8) :
    (modifyByte set byte bit).getLsbD other = if other = bit then set else byte.getLsbD other := by
  have mask := getLsbD_mask bit inside
  unfold modifyByte
  cases set with
  | false =>
    rw [if_neg Bool.false_ne_true, BitVec.getLsbD_and, BitVec.getLsbD_not, mask]
    by_cases same : other = bit <;> simp [same, inside]
  | true =>
    rw [if_pos rfl, BitVec.getLsbD_or, mask]
    by_cases same : other = bit <;> simp [same]

/-- The bit of another block stays. -/
theorem bitAt_modifyBit {state : Buffered} (set : Bool) (block other : Nat)
    (held : state.current ≠ none → state.modified = true) :
    bitAt (state.modifyBit set block).flush other =
      if other = block then set else bitAt state.flush other := by
  unfold bitAt
  rw [Buffered.flush_modifyBit set block held]
  by_cases index : other / bitsPerBitmapBlock = block / bitsPerBitmapBlock
  · rw [index, Function.update_self]
    by_cases byte : other % bitsPerBitmapBlock / 8 = block % bitsPerBitmapBlock / 8
    · rw [byte, Function.update_self, getLsbD_modifyByte set _ (by omega)]
      have same : other % 8 = block % 8 ↔ other = block := by
        unfold bitsPerBitmapBlock at index byte
        omega
      simp only [same]
    · rw [Function.update_of_ne byte, if_neg fun same => byte (by rw [same])]
  · rw [Function.update_of_ne index, if_neg fun same => index (by rw [same])]

/-- The rounds give the bits of the range the value and leave the others. From the first one on
the buffer is changed, so it is written back before it is replaced. -/
theorem bitAt_modifyRounds (bytes : Nat → Nat → BitVec 8) (start count : Nat) (set : Bool)
    (block : Nat) :
    ((modifyRounds bytes start count set).current ≠ none →
      (modifyRounds bytes start count set).modified = true) ∧
    bitAt (modifyRounds bytes start count set).flush block =
      if start ≤ block ∧ block < start + count then set else bitAt bytes block := by
  induction count with
  | zero =>
    refine ⟨fun some => absurd rfl some, ?_⟩
    rw [if_neg (by omega)]
    rfl
  | succ count ih =>
    obtain ⟨held, bits⟩ := ih
    have round : modifyRounds bytes start (count + 1) set =
        (modifyRounds bytes start count set).modifyBit set (start + count) := by
      simp [modifyRounds, List.range_succ]
    rw [round]
    refine ⟨fun _ => rfl, ?_⟩
    rw [bitAt_modifyBit set _ _ held, bits]
    split_ifs <;> first | rfl | omega

/-- `modify_blocks` gives the bits of the range the value and leaves the others. -/
@[simp] theorem Bitmap.used_modifyBlocks (bitmap : Bitmap) (start count : Nat) (set : Bool)
    (block : Nat) : (bitmap.modifyBlocks start count set).used block =
      if start ≤ block ∧ block < start + count then set else bitmap.used block :=
  (bitAt_modifyRounds bitmap.bytes start count set block).2

@[simp] theorem Bitmap.used_freeExtents (bitmap : Bitmap) (start count block : Nat) :
    (bitmap.freeExtents start count).used block =
      if start ≤ block ∧ block < start + count then false else bitmap.used block :=
  bitmap.used_modifyBlocks start count false block

/-! ## Scanning -/

/-- What a loop of the scan leaves: a run of the length looked for, or the length and the first
block of the run it is in. -/
inductive Scanned where
  | found (start : Nat)
  | going (run runStart : Nat)

/-- The bit loop of `scan_free_run` over the last bits of a byte; the first bit of the byte is
that of block `base`. -/
def scanByte (group count base : Nat) (byte : BitVec 8) : (left run runStart : Nat) → Scanned
  | 0, run, runStart => .going run runStart
  | left + 1, run, runStart =>
    let bit := 7 - left
    let block := base + bit
    if group ≤ block then .going run runStart
    else if byte &&& 1#8 <<< bit = 0#8 then
      let runStart := if run = 0 then block else runStart
      if run + 1 = count then .found runStart
      else scanByte group count base byte left (run + 1) runStart
    else scanByte group count base byte left 0 runStart

/-- The byte loop over the last bytes of a bitmap block. The first byte is read from `startBit`
on, and a byte `0xFF` is left at once. -/
def scanBytes (group count base : Nat) (buf : Nat → BitVec 8) :
    (left startBit run runStart : Nat) → Scanned
  | 0, _, run, runStart => .going run runStart
  | left + 1, startBit, run, runStart =>
    let byte := 4095 - left
    if buf byte = 0xFF#8 then scanBytes group count base buf left 0 0 runStart
    else
      match scanByte group count (base + byte * 8) (buf byte) (8 - startBit) run runStart with
      | .found start => .found start
      | .going run runStart => scanBytes group count base buf left 0 run runStart

/-- The loop over the last bitmap blocks of a group; the first one is read from a byte and a bit
on. -/
def Bitmap.scanBlocks (bitmap : Bitmap) (count total : Nat) :
    (left startByte startBit run runStart : Nat) → Option Nat
  | 0, _, _, _, _ => none
  | left + 1, startByte, startBit, run, runStart =>
    let index := total - (left + 1)
    match scanBytes bitmap.blocksPerGroup count (index * bitsPerBitmapBlock) (bitmap.bytes index)
        (4096 - startByte) startBit run runStart with
    | .found start => some start
    | .going run runStart => bitmap.scanBlocks count total left 0 0 run runStart

/-- The bitmap blocks of a group. -/
def Bitmap.totalBitmapBlocks (bitmap : Bitmap) : Nat :=
  (bitmap.blocksPerGroup + bitsPerBitmapBlock - 1) / bitsPerBitmapBlock

/-- The search of `scan_free_run`. Past the last bitmap block it starts in the last one. -/
def Bitmap.scanRun (bitmap : Bitmap) (count fromBit : Nat) : Option Nat :=
  let total := bitmap.totalBitmapBlocks
  let first := min (fromBit / bitsPerBitmapBlock) (total - 1)
  bitmap.scanBlocks count total (total - first) (fromBit % bitsPerBitmapBlock / 8) (fromBit % 8) 0 0

/-- `scan_free_run`: find a run and mark the first blocks of it. -/
def Bitmap.scanFreeRun (bitmap : Bitmap) (count fromBit markCount : Nat) :
    Option (Nat × Bitmap) :=
  (bitmap.scanRun count fromBit).map fun start =>
    (start, bitmap.modifyBlocks start markCount true)

/-- The scan bit by bit: the start of the first run of `count` free blocks, where the `run`
blocks before this one are free. -/
def Bitmap.scanFrom (bitmap : Bitmap) (count : Nat) : (fuel block run : Nat) → Option Nat
  | 0, _, _ => none
  | fuel + 1, block, run =>
    if bitmap.blocksPerGroup ≤ block then none
    else if bitmap.used block then bitmap.scanFrom count fuel (block + 1) 0
    else if run + 1 = count then some (block - run)
    else bitmap.scanFrom count fuel (block + 1) (run + 1)

variable {bitmap : Bitmap} {count : Nat}

/-- Behind the group nothing is found. -/
theorem Bitmap.scanFrom_past {block : Nat} (past : bitmap.blocksPerGroup ≤ block)
    (fuel run : Nat) : bitmap.scanFrom count fuel block run = none := by
  cases fuel with
  | zero => rfl
  | succ fuel => rw [Bitmap.scanFrom, if_pos past]

/-- Blocks in use end the run. -/
theorem Bitmap.scanFrom_used {block run : Nat} (fuel : Nat) {left : Nat} (some : 0 < left)
    (used : ∀ other, block ≤ other → other < block + left → bitmap.used other = true) :
    bitmap.scanFrom count (left + fuel) block run =
      bitmap.scanFrom count fuel (block + left) 0 := by
  induction left generalizing block run with
  | zero => omega
  | succ left ih =>
    by_cases past : bitmap.blocksPerGroup ≤ block
    · rw [scanFrom_past past, scanFrom_past (by omega)]
    · rw [show left + 1 + fuel = left + fuel + 1 by omega, scanFrom, if_neg past,
        if_pos (used block (by omega) (by omega))]
      rcases Nat.eq_zero_or_pos left with rfl | more
      · rw [Nat.zero_add]
      · rw [ih more fun other low high => used other (by omega) (by omega)]
        congr 1
        omega

/-- The first block of the run, as a loop keeps it, is where the run starts. -/
def Bitmap.Begun (bitmap : Bitmap) (block run runStart : Nat) : Prop :=
  block < bitmap.blocksPerGroup → 0 < run → runStart + run = block

/-- A loop does what the scan bit by bit does up to a block. -/
def Scanned.Agrees (bitmap : Bitmap) (count fuel block : Nat) (plain : Option Nat) :
    Scanned → Prop
  | found start => plain = some start
  | going run runStart =>
    plain = bitmap.scanFrom count fuel block run ∧ bitmap.Begun block run runStart

variable (count) in
/-- The bit loop is the scan of the byte's blocks. -/
theorem scanByte_agrees {base : Nat} {byte : BitVec 8}
    (bits : ∀ bit < 8, byte.getLsbD bit = bitmap.used (base + bit)) (fuel : Nat)
    {left run runStart : Nat} (within : left ≤ 8)
    (begun : bitmap.Begun (base + (8 - left)) run runStart) :
    (scanByte bitmap.blocksPerGroup count base byte left run runStart).Agrees bitmap count fuel
      (base + 8) (bitmap.scanFrom count (left + fuel) (base + (8 - left)) run) := by
  induction left generalizing run runStart with
  | zero => exact ⟨by rw [Nat.zero_add], begun⟩
  | succ left ih =>
    have bit : 8 - (left + 1) = 7 - left := by omega
    have next : base + (7 - left) + 1 = base + (8 - left) := by omega
    have free : byte &&& 1#8 <<< (7 - left) = 0#8 ↔ bitmap.used (base + (7 - left)) = false := by
      rw [← bits _ (by omega)]
      exact and_mask_eq_zero byte (by omega)
    rw [bit] at begun ⊢
    rw [scanByte, show left + 1 + fuel = left + fuel + 1 by omega, Bitmap.scanFrom]
    dsimp only
    by_cases past : bitmap.blocksPerGroup ≤ base + (7 - left)
    · rw [if_pos past, if_pos past]
      exact ⟨(Bitmap.scanFrom_past (by omega) _ _).symm, fun inside => by omega⟩
    · rw [if_neg past, if_neg past, next]
      cases used : bitmap.used (base + (7 - left)) with
      | true =>
        have busy : ¬ byte &&& 1#8 <<< (7 - left) = 0#8 := fun clear => by
          rw [free.mp clear] at used
          cases used
        rw [if_neg busy, if_pos rfl]
        exact ih (by omega) fun _ none => absurd none (Nat.lt_irrefl 0)
      | false =>
        have start : (if run = 0 then base + (7 - left) else runStart) + run =
            base + (7 - left) := by
          split_ifs with first
          · omega
          · exact begun (by omega) (by omega)
        rw [if_pos (free.mpr used), if_neg Bool.false_ne_true]
        by_cases long : run + 1 = count
        · rw [if_pos long, if_pos long]
          exact congrArg some (by omega)
        · rw [if_neg long, if_neg long]
          exact ih (by omega) fun _ _ => by omega

variable (count) in
/-- The byte loop is the scan of the bitmap block's blocks: a byte `0xFF` has no free block. -/
theorem scanBytes_agrees {base : Nat} {buf : Nat → BitVec 8}
    (bits : ∀ byte < 4096, ∀ bit < 8, (buf byte).getLsbD bit = bitmap.used (base + byte * 8 + bit))
    (fuel : Nat) {left startBit run runStart : Nat} (within : left ≤ 4096) (inside : startBit < 8)
    (last : left = 0 → startBit = 0)
    (begun : bitmap.Begun (base + (4096 - left) * 8 + startBit) run runStart) :
    (scanBytes bitmap.blocksPerGroup count base buf left startBit run runStart).Agrees bitmap count
      fuel (base + bitsPerBitmapBlock)
      (bitmap.scanFrom count (left * 8 - startBit + fuel)
        (base + (4096 - left) * 8 + startBit) run) := by
  induction left generalizing startBit run runStart with
  | zero =>
    rw [last rfl] at begun ⊢
    exact ⟨by simp [bitsPerBitmapBlock], begun⟩
  | succ left ih =>
    have first : base + (4096 - (left + 1)) * 8 + startBit =
        base + (4095 - left) * 8 + (8 - (8 - startBit)) := by omega
    have later : base + (4095 - left) * 8 + 8 = base + (4096 - left) * 8 + 0 := by omega
    have steps : (left + 1) * 8 - startBit + fuel = 8 - startBit + (left * 8 - 0 + fuel) := by omega
    have own := bits (4095 - left) (by omega)
    rw [first] at begun ⊢
    rw [steps, scanBytes]
    split_ifs with full
    · have used : ∀ other, base + (4095 - left) * 8 + (8 - (8 - startBit)) ≤ other →
          other < base + (4095 - left) * 8 + (8 - (8 - startBit)) + (8 - startBit) →
          bitmap.used other = true := by
        intro other low high
        obtain ⟨bit, rfl⟩ : ∃ bit, other = base + (4095 - left) * 8 + bit :=
          ⟨other - (base + (4095 - left) * 8), by omega⟩
        have ones : ∀ bit < 8, (0xFF#8).getLsbD bit = true := by decide
        rw [← own bit (by omega), full, ones bit (by omega)]
      rw [Bitmap.scanFrom_used _ (by omega) used,
        show base + (4095 - left) * 8 + (8 - (8 - startBit)) + (8 - startBit) =
          base + (4096 - left) * 8 + 0 by omega]
      exact ih (by omega) (by omega) (fun _ => rfl) fun _ none => absurd none (Nat.lt_irrefl 0)
    · have byte := scanByte_agrees count own (left * 8 - 0 + fuel)
        (show 8 - startBit ≤ 8 by omega) begun
      cases scanned : scanByte bitmap.blocksPerGroup count (base + (4095 - left) * 8)
          (buf (4095 - left)) (8 - startBit) run runStart with
      | found start =>
        rw [scanned] at byte
        exact byte
      | going run runStart =>
        rw [scanned] at byte
        obtain ⟨same, begun⟩ := byte
        rw [later] at same begun
        rw [same]
        exact ih (by omega) (by omega) (fun _ => rfl) begun

/-- The loop over the bitmap blocks is the scan of the group. -/
theorem Bitmap.scanBlocks_eq {total left startByte startBit run runStart : Nat}
    (within : left ≤ total) (byte : startByte < 4096) (bit : startBit < 8)
    (begun : bitmap.Begun ((total - left) * bitsPerBitmapBlock + startByte * 8 + startBit) run
      runStart) :
    bitmap.scanBlocks count total left startByte startBit run runStart =
      bitmap.scanFrom count (left * bitsPerBitmapBlock - (startByte * 8 + startBit))
        ((total - left) * bitsPerBitmapBlock + startByte * 8 + startBit) run := by
  induction left generalizing startByte startBit run runStart with
  | zero =>
    rw [Nat.zero_mul, Nat.zero_sub]
    rfl
  | succ left ih =>
    have bits : ∀ byte < 4096, ∀ bit < 8, (bitmap.bytes (total - (left + 1)) byte).getLsbD bit =
        bitmap.used ((total - (left + 1)) * bitsPerBitmapBlock + byte * 8 + bit) := by
      intro byte low bit small
      unfold used bitAt bitsPerBitmapBlock
      congr 2 <;> omega
    have block := scanBytes_agrees count bits (left * bitsPerBitmapBlock)
      (show 4096 - startByte ≤ 4096 by omega) bit (fun none => by omega)
      (show bitmap.Begun _ run runStart by
        rwa [show 4096 - (4096 - startByte) = startByte by omega])
    rw [show 4096 - (4096 - startByte) = startByte by omega,
      show (4096 - startByte) * 8 - startBit + left * bitsPerBitmapBlock =
        (left + 1) * bitsPerBitmapBlock - (startByte * 8 + startBit) by
          unfold bitsPerBitmapBlock; omega,
      show (total - (left + 1)) * bitsPerBitmapBlock + bitsPerBitmapBlock =
        (total - left) * bitsPerBitmapBlock + 0 * 8 + 0 by
          unfold bitsPerBitmapBlock; omega] at block
    rw [scanBlocks]
    cases scanned : scanBytes bitmap.blocksPerGroup count
        ((total - (left + 1)) * bitsPerBitmapBlock) (bitmap.bytes (total - (left + 1)))
        (4096 - startByte) startBit run runStart with
    | found start =>
      rw [scanned] at block
      exact block.symm
    | going run runStart =>
      rw [scanned] at block
      rw [block.1]
      exact ih (by omega) (by omega) (by omega) block.2

/-- The block a scan starts at: past the last bitmap block, the offset into the last one. -/
def Bitmap.scanStart (bitmap : Bitmap) (fromBit : Nat) : Nat :=
  min (fromBit / bitsPerBitmapBlock) (bitmap.totalBitmapBlocks - 1) * bitsPerBitmapBlock +
    fromBit % bitsPerBitmapBlock

/-- `scan_free_run` searches bit by bit from its start to the end of the last bitmap block. -/
theorem Bitmap.scanRun_eq (count fromBit : Nat) : bitmap.scanRun count fromBit =
    bitmap.scanFrom count (bitmap.totalBitmapBlocks * bitsPerBitmapBlock -
      bitmap.scanStart fromBit) (bitmap.scanStart fromBit) 0 := by
  unfold scanRun scanStart
  dsimp only
  generalize first : min (fromBit / bitsPerBitmapBlock) (bitmap.totalBitmapBlocks - 1) = index
  have bound : index ≤ bitmap.totalBitmapBlocks := by omega
  have back : bitmap.totalBitmapBlocks - (bitmap.totalBitmapBlocks - index) = index := by omega
  have bits : fromBit % bitsPerBitmapBlock / 8 * 8 + fromBit % 8 =
      fromBit % bitsPerBitmapBlock := by
    unfold bitsPerBitmapBlock
    omega
  rw [scanBlocks_eq (by omega) (by unfold bitsPerBitmapBlock; omega) (by omega)
    fun _ none => absurd none (Nat.lt_irrefl 0), back, Nat.add_assoc, bits, Nat.sub_mul,
    Nat.sub_sub]

/-- Take a run that a scan found and move the cursor behind the marked blocks. -/
def takeRun (markCount : Nat) (found : Option (Nat × Bitmap)) : Run Bitmap Nat := fun bitmap =>
  match found with
  | some (start, marked) => (some start, { marked with allocCursor := some (start + markCount) })
  | none => (none, bitmap)

/-- `allocate_extents`. -/
def allocateExtents (count : Nat) : Run Bitmap Nat := do
  let bitmap ← Run.get
  if count = 0 then Run.fail
  else
    takeRun count <|
      match bitmap.allocCursor with
      | some cursor => (bitmap.scanFreeRun count cursor count).or (bitmap.scanFreeRun count 0 count)
      | none => bitmap.scanFreeRun count 0 count

/-- `locality::preferred_search_start` for a known last block, whose successor is a 64-bit sum. -/
def Bitmap.preferredSearchStart (bitmap : Bitmap) (last : Nat) : Nat :=
  min ((last + 1) % 2 ^ 64) bitmap.blocksPerGroup

/-- `allocate_extents_hinted`. -/
def allocateExtentsHinted (count hint : Nat) : Run Bitmap Nat := do
  let bitmap ← Run.get
  if count = 0 then Run.fail
  else
    takeRun count <|
      ((bitmap.scanFreeRun count (bitmap.preferredSearchStart hint) count).or
        (bitmap.allocCursor.bind fun cursor => bitmap.scanFreeRun count cursor count)).or
          (bitmap.scanFreeRun count 0 count)

/-- `allocate_extents_meta`: from the end of the group. The high-water mark is a 64-bit word. -/
def allocateExtentsMeta (count : Nat) : Run Bitmap Nat := fun bitmap =>
  if count = 0 then (none, bitmap)
  else
    let endZone := bitmap.blocksPerGroup - (1 + bitmap.metaHighWater) % 2 ^ 64
    match ((bitmap.scanFreeRun count endZone count).or
        (bitmap.scanFreeRun count (bitmap.blocksPerGroup / 2) count)).or
          (bitmap.scanFreeRun count 0 count) with
    | some (start, marked) =>
      (some start, { marked with
        metaHighWater :=
          (max (bitmap.blocksPerGroup - start) bitmap.metaHighWater + count - 1) % 2 ^ 64 })
    | none => (none, bitmap)

/-- Where `allocate_extents_reserved` looks for the whole speculative run. -/
def Bitmap.wantRun (bitmap : Bitmap) (want mark : Nat) : (hint : Option Nat) → Option (Nat × Bitmap)
  | some hint =>
    (bitmap.scanFreeRun want (bitmap.preferredSearchStart hint) mark).or
      (bitmap.scanFreeRun want 0 mark)
  | none =>
    match bitmap.allocCursor with
    | some cursor => (bitmap.scanFreeRun want cursor mark).or (bitmap.scanFreeRun want 0 mark)
    | none => bitmap.scanFreeRun want 0 mark

/-- `allocate_extents_reserved`: a run of `want` blocks of which `mark` are taken, or else a run
of `mark` blocks. -/
def allocateExtentsReserved (want mark : Nat) (hint : Option Nat) : Run Bitmap Nat := do
  let bitmap ← Run.get
  if mark = 0 ∨ want < mark then Run.fail
  else takeRun mark <| (bitmap.wantRun want mark hint).or (bitmap.scanFreeRun mark 0 mark)

/-- A run was free and is now marked; no other bit changed. -/
structure Taken (before : Bitmap) (start count : Nat) (after : Bitmap) : Prop where
  free : ∀ block, start ≤ block → block < start + count → before.used block = false
  inside : start + count ≤ before.blocksPerGroup
  used : ∀ block, after.used block =
    if start ≤ block ∧ block < start + count then true else before.used block
  group : after.blocksPerGroup = before.blocksPerGroup

/-- No bit was cleared. -/
structure Grows (before after : Bitmap) : Prop where
  used : ∀ block, before.used block = true → after.used block = true
  group : after.blocksPerGroup = before.blocksPerGroup

theorem Grows.refl (bitmap : Bitmap) : Grows bitmap bitmap := ⟨fun _ used => used, rfl⟩

variable {block : Nat}

theorem Grows.free {before after : Bitmap} (grows : Grows before after)
    (free : after.used block = false) : before.used block = false := by
  cases used : before.used block with
  | false => rfl
  | true =>
    rw [grows.used block used] at free
    cases free

theorem Grows.trans {first second third : Bitmap} (one : Grows first second)
    (two : Grows second third) : Grows first third :=
  ⟨fun block used => two.used block (one.used block used), two.group.trans one.group⟩

variable {start count : Nat}

/-- Marking a run clears no bit. -/
theorem Taken.grows {before after : Bitmap} (taken : Taken before start count after) :
    Grows before after := by
  refine ⟨fun block used => ?_, taken.group⟩
  rw [taken.used, used]
  exact ite_self _

variable {bitmap : Bitmap}

theorem Bitmap.scanFrom_sound {fuel run : Nat}
    (free : ∀ other, block - run ≤ other → other < block → bitmap.used other = false)
    (begun : run ≤ block) (found : bitmap.scanFrom count fuel block run = some start) :
    start + count ≤ bitmap.blocksPerGroup ∧
      ∀ other, start ≤ other → other < start + count → bitmap.used other = false := by
  induction fuel generalizing block run with
  | zero => cases found
  | succ fuel ih =>
    unfold Bitmap.scanFrom at found
    split_ifs at found with past taken long
    · exact ih (fun other low high => by omega) (Nat.zero_le _) found
    · rw [Option.some.injEq] at found
      constructor
      · omega
      · intro other low high
        by_cases last : other = block
        · rw [last]
          exact Bool.eq_false_iff.mpr taken
        · exact free other (by omega) (by omega)
    · refine ih (fun other low high => ?_) (by omega) found
      by_cases last : other = block
      · rw [last]
        exact Bool.eq_false_iff.mpr taken
      · exact free other (by omega) (by omega)

/-- A run of free blocks of the group. -/
def Bitmap.FreeRun (bitmap : Bitmap) (start count : Nat) : Prop :=
  start + count ≤ bitmap.blocksPerGroup ∧
    ∀ block, start ≤ block → block < start + count → bitmap.used block = false

theorem Bitmap.scanFrom_complete {fuel run : Nat} (enough : bitmap.blocksPerGroup ≤ block + fuel)
    (short : run < count) (missed : bitmap.scanFrom count fuel block run = none)
    (ahead : block ≤ start + run) : ¬ bitmap.FreeRun start count := by
  intro found
  have fits := found.1
  induction fuel generalizing block run with
  | zero => omega
  | succ fuel ih =>
    unfold Bitmap.scanFrom at missed
    split_ifs at missed with past taken long
    · omega
    · by_cases before : start ≤ block
      · rw [found.2 block before (by omega)] at taken
        cases taken
      · exact ih (by omega) (by omega) missed (by omega)
    · exact ih (by omega) (by omega) missed (by omega)

/-- What a search finds is taken. -/
def Finds (bitmap : Bitmap) (count : Nat) (found : Option (Nat × Bitmap)) : Prop :=
  ∀ start marked, found = some (start, marked) → Taken bitmap start count marked

/-- There is no run to take. -/
def Bitmap.Full (bitmap : Bitmap) (count : Nat) : Prop :=
  0 < count → ∀ start, ¬ bitmap.FreeRun start count

section Searching
variable {markCount : Nat} {first second : Option (Nat × Bitmap)}

/-- A scan takes free blocks, at most as many as it looked for. -/
theorem finds_scanFreeRun (fromBit : Nat) (fits : markCount ≤ count) :
    Finds bitmap markCount (bitmap.scanFreeRun count fromBit markCount) := by
  intro start marked found
  unfold Bitmap.scanFreeRun at found
  rw [Option.map_eq_some_iff] at found
  obtain ⟨first, scanned, same⟩ := found
  rw [Prod.mk.injEq] at same
  obtain ⟨rfl, rfl⟩ := same
  rw [Bitmap.scanRun_eq] at scanned
  have sound := Bitmap.scanFrom_sound (fun other low high => by omega) (Nat.zero_le _) scanned
  constructor
  · exact fun block low high => sound.2 block low (by omega)
  · omega
  · exact fun block => bitmap.used_modifyBlocks first markCount true block
  · rfl

/-- A scan of the whole group misses no run. -/
theorem full_of_scanFreeRun (missed : bitmap.scanFreeRun count 0 markCount = none) :
    bitmap.Full count := by
  intro pos start
  have first : bitmap.scanStart 0 = 0 := by simp [Bitmap.scanStart]
  unfold Bitmap.scanFreeRun at missed
  rw [Option.map_eq_none_iff, Bitmap.scanRun_eq, first] at missed
  refine Bitmap.scanFrom_complete ?_ pos missed (Nat.zero_le _)
  unfold Bitmap.totalBitmapBlocks bitsPerBitmapBlock
  omega

/-- One of two scans took the run. -/
theorem Finds.or (one : Finds bitmap count first) (two : Finds bitmap count second) :
    Finds bitmap count (first.or second) := by
  intro start marked found
  cases first with
  | none => exact two start marked (by simpa using found)
  | some run => exact one start marked (by simpa using found)

end Searching

/-- What an allocation promises: the blocks it returns were free and are now marked. When it
fails, the bitmap is what it was. -/
def Allocates (command : Run Bitmap Nat) (count : Nat) : Prop :=
  ∀ bitmap, wp command (fun start after => Taken bitmap start count after)
    (fun after => after = bitmap) bitmap

/-- An allocation that fails only when there is no run. -/
def Exact (command : Run Bitmap Nat) (count : Nat) : Prop :=
  ∀ bitmap, wp command (fun start after => Taken bitmap start count after)
    (fun after => after = bitmap ∧ bitmap.Full count) bitmap

theorem Exact.allocates {command : Run Bitmap Nat} (exact : Exact command count) :
    Allocates command count :=
  fun bitmap => wp_mono (exact bitmap) (fun _ _ taken => taken) fun _ failed => failed.1

/-- A search that ends with a scan of the whole group. -/
theorem takeRun_exact {found : Option (Nat × Bitmap)} (finds : Finds bitmap count found) :
    wp (takeRun count (found.or (bitmap.scanFreeRun count 0 count)))
      (fun start after => Taken bitmap start count after)
      (fun after => after = bitmap ∧ bitmap.Full count) bitmap := by
  have either := finds.or (finds_scanFreeRun 0 (Nat.le_refl count))
  unfold wp takeRun
  cases all : found.or (bitmap.scanFreeRun count 0 count) with
  | none => exact ⟨rfl, full_of_scanFreeRun (Option.or_eq_none_iff.mp all).2⟩
  | some run => exact { either run.1 run.2 all with }

theorem Bitmap.full_zero (bitmap : Bitmap) : bitmap.Full 0 :=
  fun pos => absurd pos (Nat.lt_irrefl 0)

/-- `allocate_extents` takes free blocks. -/
theorem allocateExtents_exact (count : Nat) : Exact (allocateExtents count) count := by
  intro bitmap
  unfold allocateExtents
  rw [wp_bind, wp_get]
  split_ifs with zero
  · subst zero
    exact ⟨rfl, bitmap.full_zero⟩
  · cases bitmap.allocCursor with
    | none => exact @takeRun_exact count bitmap none nofun
    | some cursor => exact takeRun_exact (finds_scanFreeRun _ (Nat.le_refl _))

theorem allocateExtents_allocates (count : Nat) : Allocates (allocateExtents count) count :=
  (allocateExtents_exact count).allocates

theorem allocateExtentsHinted_exact (count hint : Nat) :
    Exact (allocateExtentsHinted count hint) count := by
  intro bitmap
  unfold allocateExtentsHinted
  rw [wp_bind, wp_get]
  split_ifs with zero
  · subst zero
    exact ⟨rfl, bitmap.full_zero⟩
  · refine takeRun_exact ((finds_scanFreeRun _ (Nat.le_refl _)).or fun start marked found => ?_)
    obtain ⟨cursor, -, found⟩ := Option.bind_eq_some_iff.mp found
    exact finds_scanFreeRun _ (Nat.le_refl _) start marked found

theorem allocateExtentsHinted_allocates (count hint : Nat) :
    Allocates (allocateExtentsHinted count hint) count :=
  (allocateExtentsHinted_exact count hint).allocates

theorem allocateExtentsMeta_exact (count : Nat) : Exact (allocateExtentsMeta count) count := by
  intro bitmap
  unfold wp allocateExtentsMeta
  split_ifs with zero
  · subst zero
    exact ⟨rfl, bitmap.full_zero⟩
  · dsimp only
    cases found : ((bitmap.scanFreeRun count
        (bitmap.blocksPerGroup - (1 + bitmap.metaHighWater) % 2 ^ 64) count).or
          (bitmap.scanFreeRun count (bitmap.blocksPerGroup / 2) count)).or
          (bitmap.scanFreeRun count 0 count) with
    | none => exact ⟨rfl, full_of_scanFreeRun (Option.or_eq_none_iff.mp found).2⟩
    | some run =>
      have scan : ∀ fromBit, Finds bitmap count (bitmap.scanFreeRun count fromBit count) :=
        fun _ => finds_scanFreeRun _ (Nat.le_refl _)
      exact { ((scan _).or (scan _)).or (scan 0) run.1 run.2 found with }

theorem allocateExtentsMeta_allocates (count : Nat) : Allocates (allocateExtentsMeta count) count :=
  (allocateExtentsMeta_exact count).allocates

theorem Bitmap.finds_wantRun {want mark : Nat} (fits : mark ≤ want) (hint : Option Nat) :
    Finds bitmap mark (bitmap.wantRun want mark hint) := by
  unfold Bitmap.wantRun
  cases hint with
  | some hint => exact (finds_scanFreeRun _ fits).or (finds_scanFreeRun _ fits)
  | none =>
    cases bitmap.allocCursor with
    | none => exact finds_scanFreeRun _ fits
    | some cursor => exact (finds_scanFreeRun _ fits).or (finds_scanFreeRun _ fits)

theorem allocateExtentsReserved_exact {want mark : Nat} (fits : mark ≤ want) (hint : Option Nat) :
    Exact (allocateExtentsReserved want mark hint) mark := by
  intro bitmap
  unfold allocateExtentsReserved
  rw [wp_bind, wp_get]
  split_ifs with bad
  · obtain rfl : mark = 0 := by omega
    exact ⟨rfl, bitmap.full_zero⟩
  · exact takeRun_exact (bitmap.finds_wantRun fits hint)

theorem allocateExtentsReserved_allocates (want mark : Nat) (hint : Option Nat) :
    Allocates (allocateExtentsReserved want mark hint) mark := by
  by_cases fits : mark ≤ want
  · exact (allocateExtentsReserved_exact fits hint).allocates
  · intro bitmap
    unfold allocateExtentsReserved
    rw [wp_bind, wp_get, if_pos (by omega)]
    rfl

/-- Each of the allocations takes a run of free blocks of the group, and fails only if there is
none. -/
theorem allocations_exact (count hint want : Nat) (region : Option Nat) (pos : 0 < count)
    (fits : count ≤ want) (bitmap : Bitmap) :
    ∀ command ∈ [allocateExtents count, allocateExtentsHinted count hint,
      allocateExtentsMeta count, allocateExtentsReserved want count region],
    (∀ start after, command bitmap = (some start, after) → Taken bitmap start count after) ∧
      ∀ after, command bitmap = (none, after) →
        after = bitmap ∧ ∀ start, ¬ bitmap.FreeRun start count := by
  have all : ∀ command ∈ [allocateExtents count, allocateExtentsHinted count hint,
      allocateExtentsMeta count, allocateExtentsReserved want count region],
      Exact command count := by
    simp [allocateExtents_exact, allocateExtentsHinted_exact, allocateExtentsMeta_exact,
      allocateExtentsReserved_exact fits]
  intro command mem
  have exact := all command mem bitmap
  constructor
  · intro start after returned
    rwa [wp, returned] at exact
  · intro after failed
    rw [wp, failed] at exact
    exact ⟨exact.1, exact.2 pos⟩

/-- A group of which the first block is in use. -/
def firstUsed (group : Nat) : Bitmap :=
  ⟨fun index byte => if index = 0 ∧ byte = 0 then 1#8 else 0#8, group, none, 0⟩

/-- A group of a thousand blocks, the first two hundred in use. -/
def twoHundredUsed : Bitmap :=
  ⟨fun index byte => if index = 0 ∧ byte < 25 then 0xFF#8 else 0#8, 1000, none, 0⟩

/-- The first block of an empty group. -/
theorem allocations_exact_first :
    0 < 2 ∧ 2 ≤ 4 ∧ Taken (firstUsed 8) 1 2 (allocateExtents 2 (firstUsed 8)).2 :=
  ⟨by decide, by decide, (allocations_exact 2 0 4 none (by decide) (by decide) (firstUsed 8) _
    List.mem_cons_self).1 _ _ rfl⟩

end LionFS.Allocator
