import Mathlib.Algebra.Group.Nat.Defs
import Mathlib.Order.Nat
import Mathlib.Tactic.SplitIfs

/-!
# Alignment of submissions

`media::alignment`: the rounding of an allocation to a class's unit, and the split
of a submission at unit boundaries: a head up to the first one, a run of whole
units, and a tail.
-/
namespace LionFS.Media
open List

/-- `AlignmentClass`. -/
inductive AlignmentClass where
  | k4
  | k16
  | k64
  | sector
deriving DecidableEq

/-- `bytes`. -/
def AlignmentClass.bytes : AlignmentClass → Nat
  | .k4 => 4096
  | .k16 => 16 * 1024
  | .k64 => 64 * 1024
  | .sector => 512

/-- `div_ceil`. -/
def divCeil (value unit : Nat) : Nat := (value + unit - 1) / unit

/-- `round_allocation`: aligned offset, aligned length, and blocks of padding. -/
def roundAllocation (cls : AlignmentClass) (offset len : Nat) : Nat × Nat × Nat :=
  let alignedOffset := offset / cls.bytes * cls.bytes
  let stop := divCeil (min (offset + len) (2 ^ 64 - 1)) cls.bytes * cls.bytes
  let alignedLen := stop - alignedOffset
  (alignedOffset, alignedLen, divCeil (alignedLen - len) 4096)

/-- The inner loop of `split_for_submission`, of so many turns at most. -/
def runFrom (unit cur remaining : Nat) : (turns run : Nat) → Nat
  | 0, run => run
  | turns + 1, run =>
    if unit ≤ remaining - run ∧ (cur + run) % unit = 0 ∧ run + unit ≤ remaining then
      runFrom unit cur remaining turns (run + unit)
    else run

/-- The bytes that a turn of the outer loop takes. -/
def taken (unit cur remaining : Nat) : Nat :=
  let intoUnit := unit - cur % unit
  let run :=
    if intoUnit = unit ∧ unit ≤ remaining then runFrom unit cur remaining remaining 0 else 0
  if 0 < run then run else min intoUnit remaining

/-- The outer loop of `split_for_submission`, of so many turns at most. -/
def segmentsFrom (unit : Nat) : (turns cur remaining : Nat) → List (Nat × Nat)
  | 0, _, _ => []
  | turns + 1, cur, remaining =>
    if remaining = 0 then []
    else
      let take := taken unit cur remaining
      (cur, take) :: segmentsFrom unit turns (cur + take) (remaining - take)

/-- `split_for_submission`: the segments, and whether a bounce buffer is needed. Every turn of a
loop takes a byte or more. -/
def splitForSubmission (cls : AlignmentClass) (offset len : Nat) : List (Nat × Nat) × Bool :=
  let unit := cls.bytes
  if unit = 512 ∨ offset % unit = 0 ∧ len % unit = 0 then ([(offset, len)], false)
  else (segmentsFrom unit len offset len, offset % unit ≠ 0 ∨ len < unit)

/-- Segments follow one another from a place to another. -/
def Tiles (start : Nat) : List (Nat × Nat) → Nat → Prop
  | [], stop => start = stop
  | segment :: rest, stop => segment.1 = start ∧ Tiles (start + segment.2) rest stop

/-- A segment starts and ends on boundaries. -/
def OnBoundaries (unit : Nat) (segment : Nat × Nat) : Prop :=
  segment.1 % unit = 0 ∧ (segment.1 + segment.2) % unit = 0

/-- Segments tile a range; but for the first ones and the last, two at most besides the first
ones, they are of whole units. -/
structure Cuts (unit start stop first : Nat) (segments : List (Nat × Nat)) : Prop where
  tiles : Tiles start segments stop
  nonempty : start ≠ stop → ∀ segment ∈ segments, 0 < segment.2
  few : segments.length ≤ first + 2
  whole : ∀ segment ∈ (segments.drop first).dropLast, OnBoundaries unit segment

/-- What the segments and the rounding of a request should be: of the ranges of whole units
around the request the rounded one is the least, and so is the padding of the numbers of blocks
that cover what was added. -/
structure AlignedExactly (cls : AlignmentClass) (offset len : Nat) (segments : List (Nat × Nat))
    (rounded : Nat × Nat × Nat) : Prop where
  split : Cuts cls.bytes offset (offset + len) 1 segments
  aligned : OnBoundaries cls.bytes (rounded.1, rounded.2.1)
  least : ∀ start stop, start % cls.bytes = 0 → stop % cls.bytes = 0 →
    (start ≤ offset ∧ offset + len ≤ stop ↔
      start ≤ rounded.1 ∧ rounded.1 + rounded.2.1 ≤ stop)
  padding : ∀ blocks, rounded.2.2 ≤ blocks ↔ rounded.2.1 - len ≤ blocks * 4096

variable {unit cur remaining turns : Nat}

/-- The run ends with the last whole unit. -/
theorem runFrom_eq (some_unit : 0 < unit) (aligned : cur % unit = 0) {run : Nat}
    (enough : remaining ≤ run + turns) (whole : run % unit = 0) (inside : run ≤ remaining) :
    runFrom unit cur remaining turns run = remaining - remaining % unit := by
  induction turns generalizing run with
  | zero =>
    have all : run = remaining := by omega
    rw [runFrom, ← all, whole, Nat.sub_zero]
  | succ turns ih =>
    have place : (cur + run) % unit = 0 := by rw [Nat.add_mod, aligned, whole, Nat.zero_mod]
    unfold runFrom
    split_ifs with more
    · exact ih (by omega) (by rw [Nat.add_mod_right, whole]) more.2.2
    · have rest : remaining % unit = remaining - run := by
        rw [← Nat.mod_eq_of_lt (show remaining - run < unit by omega),
          ← Nat.add_sub_cancel' inside, Nat.add_mod, whole, Nat.zero_add, Nat.mod_mod,
          Nat.add_sub_cancel_left]
      omega

/-- A turn that takes all is the last. -/
theorem segmentsFrom_last (all : taken unit cur remaining = remaining)
    (enough : remaining ≤ turns) :
    segmentsFrom unit turns cur remaining = if remaining = 0 then [] else [(cur, remaining)] := by
  cases turns with
  | zero => simp [segmentsFrom, Nat.le_zero.mp enough]
  | succ turns =>
    have none : segmentsFrom unit turns (cur + remaining) 0 = [] := by cases turns <;> rfl
    simp only [segmentsFrom, all, Nat.sub_self, none]

theorem cuts_last (all : taken unit cur remaining = remaining) (enough : remaining ≤ turns)
    (first : Nat) :
    Cuts unit cur (cur + remaining) first (segmentsFrom unit turns cur remaining) := by
  rw [segmentsFrom_last all enough]
  split_ifs with none
  · exact ⟨by rw [none]; rfl, nofun, Nat.zero_le _, by simp⟩
  · exact ⟨⟨rfl, rfl⟩, by simp; omega, by simp, by cases first <;> simp⟩

/-- At a boundary a turn takes all whole units, or the tail. -/
theorem taken_aligned (some_unit : 0 < unit) (aligned : cur % unit = 0) :
    taken unit cur remaining =
      if remaining < unit then remaining else remaining - remaining % unit := by
  have run := @runFrom_eq unit cur remaining remaining some_unit aligned 0 (by omega)
    (Nat.zero_mod _) (Nat.zero_le _)
  have rest := Nat.mod_lt remaining some_unit
  unfold taken
  rw [aligned, run]
  dsimp only
  split_ifs <;> omega

/-- From a boundary on there is a run of whole units at most, and a tail. -/
theorem cuts_aligned (some_unit : 0 < unit) (aligned : cur % unit = 0)
    (enough : remaining ≤ turns) :
    Cuts unit cur (cur + remaining) 0 (segmentsFrom unit turns cur remaining) := by
  by_cases short : remaining < unit
  · exact cuts_last (by rw [taken_aligned some_unit aligned, if_pos short]) enough 0
  · have rest := Nat.mod_lt remaining some_unit
    have next : (cur + (remaining - remaining % unit)) % unit = 0 := by
      rw [Nat.add_mod, aligned, Nat.zero_add, Nat.mod_mod]
      exact Nat.sub_mod_eq_zero_of_mod_eq (Nat.mod_mod _ _).symm
    obtain ⟨turns, rfl⟩ : ∃ fewer, turns = fewer + 1 := ⟨turns - 1, by omega⟩
    unfold segmentsFrom
    rw [if_neg (by omega), taken_aligned some_unit aligned, if_neg short]
    dsimp only
    rw [Nat.sub_sub_self (Nat.mod_le _ _),
      segmentsFrom_last (by rw [taken_aligned some_unit next, if_pos rest]) (by omega)]
    split_ifs with none
    · exact ⟨⟨rfl, by simp [Tiles, none]⟩, by simp; omega, by simp, nofun⟩
    · refine ⟨⟨rfl, rfl, ?_⟩, by simp; omega, by simp, ?_⟩
      · exact (Nat.add_assoc _ _ _).trans (congrArg _ (Nat.sub_add_cancel (Nat.mod_le _ _)))
      · intro segment mem
        rw [mem_singleton.mp mem]
        exact ⟨aligned, next⟩

/-- A partial head adds one segment. -/
theorem cuts_segmentsFrom (some_unit : 0 < unit) (enough : remaining ≤ turns) :
    Cuts unit cur (cur + remaining) 1 (segmentsFrom unit turns cur remaining) := by
  by_cases aligned : cur % unit = 0
  · have cuts := cuts_aligned some_unit aligned enough
    refine ⟨cuts.tiles, cuts.nonempty, Nat.le_succ_of_le cuts.few, fun segment mem => ?_⟩
    rw [drop_one, ← tail_dropLast] at mem
    exact cuts.whole segment (mem_of_mem_tail mem)
  have into := Nat.mod_lt cur some_unit
  have head : taken unit cur remaining = min (unit - cur % unit) remaining := by
    unfold taken
    dsimp only
    rw [if_neg (show ¬ (unit - cur % unit = unit ∧ unit ≤ remaining) by omega)]
    rfl
  by_cases all : remaining ≤ unit - cur % unit
  · exact cuts_last (by rw [head, Nat.min_eq_right all]) enough 1
  · have next : (cur + (unit - cur % unit)) % unit = 0 := by
      have := Nat.div_add_mod cur unit
      rw [show cur + (unit - cur % unit) = unit * (cur / unit) + unit by omega,
        Nat.add_mod_right, Nat.mul_mod_right]
    obtain ⟨turns, rfl⟩ : ∃ fewer, turns = fewer + 1 := ⟨turns - 1, by omega⟩
    have cuts := @cuts_aligned unit _ (remaining - (unit - cur % unit)) turns some_unit next
      (by omega)
    unfold segmentsFrom
    rw [if_neg (by omega), head, Nat.min_eq_left (by omega)]
    refine ⟨⟨rfl, ?_⟩, fun _ => ?_, Nat.succ_le_succ cuts.few, cuts.whole⟩
    · rw [show cur + remaining = cur + (unit - cur % unit) + (remaining - (unit - cur % unit)) by
        omega]
      exact cuts.tiles
    · exact forall_mem_cons.mpr ⟨by dsimp only; omega, cuts.nonempty (by omega)⟩

/-- Every request is split into three segments at most that tile it, and rounded to the least
range of whole units around it. -/
theorem aligned_exactly (cls : AlignmentClass) (offset len : Nat)
    (bounded : offset + len + 65536 < 2 ^ 64) : AlignedExactly cls offset len
      (splitForSubmission cls offset len).1 (roundAllocation cls offset len) := by
  refine ⟨?_, ?_, ?_, ?_⟩
  · unfold splitForSubmission
    dsimp only
    split_ifs
    · exact ⟨⟨rfl, rfl⟩, by simp; omega, by simp, nofun⟩
    · exact cuts_segmentsFrom (by cases cls <;> decide) (Nat.le_refl _)
  all_goals cases cls <;> simp only [OnBoundaries, roundAllocation, divCeil, AlignmentClass.bytes]
    <;> omega

/-- A request with a head, a run and a tail. -/
theorem aligned_exactly_three :
    (splitForSubmission .k4 4000 9000).1 = [(4000, 96), (4096, 8192), (12288, 712)] ∧
      AlignedExactly .k4 4000 9000 (splitForSubmission .k4 4000 9000).1
        (roundAllocation .k4 4000 9000) :=
  ⟨by decide +kernel, aligned_exactly .k4 4000 9000 (by decide)⟩

end LionFS.Media
