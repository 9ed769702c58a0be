import LionFS.Data.Machine
import LionFS.Integrity.Coverage
import Mathlib.Algebra.Order.BigOperators.Group.Finset
import Mathlib.Order.Interval.Finset.Nat

/-!
# Pinning a range

The coverage tree holds runs that do not overlap: no block is in two of them.
`pin_range` takes the runs that overlap its range apart, and fills the gaps
between them; afterwards still no block is in two runs, and every block of the
range is pinned once more than before, every other block as often as before. A
count is a `u32` that nothing checks: the block that is pinned 2³² times has none.
-/
namespace LionFS.Integrity
open List Assoc

/-- A run has a block. -/
abbrev Contains (run : Nat × CoverageEntry) (block : Nat) : Prop :=
  run.1 ≤ block ∧ block < run.2.stop

/-- Two runs do not overlap. -/
def Apart (first second : Nat × CoverageEntry) : Prop :=
  first.2.stop ≤ second.1 ∨ second.2.stop ≤ first.1

/-- A run is filed under its first block, has blocks and pins them. -/
structure Formed (run : Nat × CoverageEntry) : Prop where
  start : run.1 = run.2.physicalStart
  positive : run.1 < run.2.stop
  counted : 0 < run.2.count

/-- What the coverage tree keeps: runs in order that do not overlap. -/
structure Disjoint (runs : Coverage) : Prop where
  ordered : Assoc.Ordered runs
  formed : ∀ run ∈ runs, Formed run
  apart : runs.Pairwise Apart

/-- The weight of the runs that have a block. -/
def weigh (weight : CoverageEntry → Nat) (runs : Coverage) (block : Nat) : Nat :=
  (runs.map fun run => if run.1 ≤ block ∧ block < run.2.stop then weight run.2 else 0).sum

/-- Every run weighs one, so that the weight at a block is how many runs have it. -/
def one (_ : CoverageEntry) : Nat := 1

section Weigh
variable {weight : CoverageEntry → Nat} {runs first second : Coverage} {block : Nat}
  {run : Nat × CoverageEntry}

@[simp] theorem weigh_nil : weigh weight [] block = 0 := rfl

@[simp] theorem weigh_cons : weigh weight (run :: runs) block =
    (if run.1 ≤ block ∧ block < run.2.stop then weight run.2 else 0) + weigh weight runs block := by
  simp only [weigh, map_cons, sum_cons]

@[simp] theorem weigh_append :
    weigh weight (first ++ second) block =
      weigh weight first block + weigh weight second block := by
  simp only [weigh, map_append, sum_append]

variable {other : CoverageEntry → Nat}

theorem weigh_add :
    weigh (fun entry => weight entry + other entry) runs block =
      weigh weight runs block + weigh other runs block := by
  induction runs with
  | nil => rfl
  | cons run rest ih =>
    rw [weigh_cons, weigh_cons, weigh_cons, ih]
    split_ifs <;> omega

theorem weigh_le (le : ∀ run ∈ runs, weight run.2 ≤ other run.2) :
    weigh weight runs block ≤ weigh other runs block := by
  induction runs with
  | nil => exact le_rfl
  | cons run rest ih =>
    have here := le run mem_cons_self
    have later := ih (forall_mem_cons.mp le).2
    rw [weigh_cons, weigh_cons]
    split_ifs <;> omega

theorem weigh_perm (perm : first.Perm second) :
    weigh weight first block = weigh weight second block :=
  (perm.map _).sum_nat

theorem le_weigh (weight : CoverageEntry → Nat) (mem : run ∈ runs) (contains : Contains run block) :
    weight run.2 ≤ weigh weight runs block := by
  obtain ⟨before, after, rfl⟩ := append_of_mem mem
  rw [weigh_append, weigh_cons, if_pos contains]
  omega

theorem weigh_eq_zero (missed : ∀ run ∈ runs, ¬ Contains run block) :
    weigh weight runs block = 0 := by
  induction runs with
  | nil => rfl
  | cons run rest ih =>
    rw [weigh_cons, if_neg (missed run mem_cons_self), ih (forall_mem_cons.mp missed).2]

theorem missed_of_free (free : weigh one runs block = 0) : ∀ run ∈ runs, ¬ Contains run block := by
  intro run mem contains
  have held := le_weigh one mem contains
  simp only [one] at held
  omega

/-- A block that is in one run only has the weight of that run. -/
theorem weigh_eq (mem : run ∈ runs) (contains : Contains run block)
    (once : weigh one runs block ≤ 1) : weigh weight runs block = weight run.2 := by
  obtain ⟨before, after, rfl⟩ := append_of_mem mem
  rw [weigh_append, weigh_cons, if_pos contains, one] at once
  rw [weigh_append, weigh_cons, if_pos contains, weigh_eq_zero (missed_of_free (by omega)),
    weigh_eq_zero (missed_of_free (by omega))]
  omega

/-- Runs do not overlap when no block is in two of them. -/
theorem apart_iff (formed : ∀ run ∈ runs, Formed run) :
    runs.Pairwise Apart ↔ ∀ block, weigh one runs block ≤ 1 := by
  induction runs with
  | nil => simp
  | cons run rest ih =>
    rw [pairwise_cons, ih (forall_mem_cons.mp formed).2]
    simp only [weigh_cons, one]
    constructor
    · rintro ⟨away, once⟩ block
      have held := once block
      split_ifs with contains
      · rw [weigh_eq_zero]
        intro other mem there
        have apart := away other mem
        unfold Apart at apart
        omega
      · omega
    · intro once
      refine ⟨fun other mem => ?_, fun block => by have := once block; omega⟩
      have here := (formed run mem_cons_self).positive
      have there := (formed other (mem_cons_of_mem _ mem)).positive
      have held := once (max run.1 other.1)
      by_contra overlap
      unfold Apart at overlap
      have both := le_weigh one mem (show Contains other (max run.1 other.1) by omega)
      rw [if_pos (by omega)] at held
      simp only [one] at both
      omega

end Weigh

variable {runs : Coverage} {start stop block : Nat}

/-- Inside the range the overlapping runs weigh what all runs weigh. -/
theorem weigh_overlapping {weight : CoverageEntry → Nat} (low : start ≤ block)
    (high : block < stop) :
    weigh weight (overlapping runs start stop) block = weigh weight runs block := by
  induction runs with
  | nil => rfl
  | cons run rest ih =>
    unfold overlapping at ih ⊢
    rw [filter_cons, weigh_cons, ← ih]
    split_ifs with overlaps contains contains
    · rw [weigh_cons, if_pos contains]
    · rw [weigh_cons, if_neg contains]
    · exact absurd (decide_eq_true (by omega)) overlaps
    · omega

variable {hit : Coverage}
section Pieces
variable {run piece : Nat × CoverageEntry} {recount : Nat → Option Nat}

theorem formed_pieces (formed : Formed run) (low_high : max run.1 start < min run.2.stop stop)
    (counts : ∀ count new, recount count = some new → 0 < new)
    (mem : piece ∈ pieces start stop recount run) : Formed piece := by
  have counted := formed.counted
  unfold pieces at mem
  simp only [mem_append, if_pos low_high, mem_map, Option.mem_toList] at mem
  rcases mem with (left | ⟨count, new, rfl⟩) | right
  · split_ifs at left with before
    · rw [mem_singleton.mp left]
      exact ⟨rfl, by simp only [CoverageEntry.stop]; omega, counted⟩
    · cases left
  · exact ⟨rfl, by simp only [CoverageEntry.stop] at low_high ⊢; omega, counts _ _ new⟩
  · split_ifs at right with behind
    · rw [mem_singleton.mp right]
      exact ⟨rfl, by simp only [CoverageEntry.stop] at behind ⊢; omega, counted⟩
    · cases right

theorem weigh_piece (weight : Nat → Nat) (low high block : Nat) (count : Option Nat) :
    weigh (fun entry => weight entry.count) (if low < high then
      count.toList.map fun count => (low, ⟨low, high - low, count⟩) else []) block =
        if low ≤ block ∧ block < high then count.elim 0 weight else 0 := by
  cases count with
  | none => simp
  | some count =>
    split_ifs with room mem mem
    · simp [CoverageEntry.stop, Nat.add_sub_cancel' room.le, mem]
    · simp [CoverageEntry.stop, Nat.add_sub_cancel' room.le, mem]
    · omega
    · rfl

/-- The pieces have the blocks of the run, with the new count inside the range. -/
theorem weigh_pieces (weight : Nat → Nat) (low_high : max run.1 start < min run.2.stop stop) :
    weigh (fun entry => weight entry.count) (pieces start stop recount run) block =
      if run.1 ≤ block ∧ block < run.2.stop then
        if start ≤ block ∧ block < stop then (recount run.2.count).elim 0 weight
        else weight run.2.count
      else 0 := by
  have left := weigh_piece weight run.1 start block (some run.2.count)
  have right := weigh_piece weight stop run.2.stop block (some run.2.count)
  dsimp only [Option.toList, map, Option.elim] at left right
  unfold pieces
  dsimp only
  rw [weigh_append, weigh_append, left, right, weigh_piece]
  split_ifs <;> omega

theorem weigh_flatMap_pieces (weight : Nat → Nat)
    (low_high : ∀ run ∈ hit, max run.1 start < min run.2.stop stop) :
    weigh (fun entry => weight entry.count) (hit.flatMap (pieces start stop recount)) block =
      if start ≤ block ∧ block < stop then
        weigh (fun entry => (recount entry.count).elim 0 weight) hit block
      else weigh (fun entry => weight entry.count) hit block := by
  induction hit with
  | nil => simp
  | cons run rest ih =>
    rw [flatMap_cons, weigh_append, ih (forall_mem_cons.mp low_high).2,
      weigh_pieces weight (low_high run mem_cons_self), weigh_cons, weigh_cons]
    split_ifs <;> omega

end Pieces

theorem foldl_insertAll (runs hit : Coverage) (cut : Nat × CoverageEntry → Coverage) :
    hit.foldl (fun runs run => insertAll runs (cut run)) runs =
      insertAll runs (hit.flatMap cut) := by
  induction hit generalizing runs with
  | nil => rfl
  | cons run rest ih =>
    rw [foldl_cons, ih, flatMap_cons]
    unfold insertAll
    rw [foldl_append]

/-- What `unpin_range` sums up is in how many runs the blocks of the range are. -/
theorem covered_eq (runs : Coverage) (start stop : Nat) :
    covered runs start stop = ∑ block ∈ Finset.Ico start stop, weigh one runs block := by
  unfold covered
  induction runs with
  | nil => simp [overlapping]
  | cons run rest ih =>
    have part : ∑ block ∈ Finset.Ico start stop,
        (if run.1 ≤ block ∧ block < run.2.stop then one run.2 else 0) =
          min run.2.stop stop - max run.1 start := by
      have blocks : (Finset.Ico start stop).filter
          (fun block => run.1 ≤ block ∧ block < run.2.stop) =
          Finset.Ico (max run.1 start) (min run.2.stop stop) := by
        ext block
        simp only [Finset.mem_filter, Finset.mem_Ico]
        omega
      rw [← Finset.sum_filter, blocks, one, ← Finset.card_eq_sum_ones, Nat.card_Ico]
    simp only [weigh_cons, Finset.sum_add_distrib, part, ← ih]
    unfold overlapping
    rw [filter_cons]
    split_ifs with overlaps
    · rw [map_cons, sum_cons]
    · rw [decide_eq_true_eq] at overlaps
      omega

section
variable (disj : Disjoint runs)
include disj

theorem Disjoint.once (block : Nat) : weigh one runs block ≤ 1 :=
  (apart_iff disj.formed).mp disj.apart block

/-- `coverage_at` counts the pins of a block. -/
theorem Disjoint.coverageAt_eq (block : Nat) :
    coverageAt runs block = weigh CoverageEntry.count runs block := by
  unfold coverageAt
  by_cases free : weigh one runs block = 0
  · have missed := missed_of_free free
    rw [weigh_eq_zero missed]
    cases is_floor : floor block runs with
    | none => rfl
    | some found =>
      obtain ⟨among, below⟩ := mem_of_floor is_floor
      exact if_neg fun inside => missed found among ⟨below, inside.2⟩
  · obtain ⟨run, mem, contains⟩ : ∃ run ∈ runs, Contains run block := by
      by_contra none
      push Not at none
      exact free (weigh_eq_zero none)
    obtain ⟨found, is_floor, above⟩ := le_floor disj.ordered mem contains.1
    obtain ⟨among, below⟩ := mem_of_floor is_floor
    have formed := disj.formed found among
    have once := disj.once found.1
    have stops : run.2.stop = found.2.stop :=
      (weigh_eq mem ⟨above, below.trans_lt contains.2⟩ once).symm.trans
        (weigh_eq among ⟨le_rfl, formed.positive⟩ once)
    have inside : Contains found block := ⟨below, stops ▸ contains.2⟩
    rw [is_floor, weigh_eq among inside (disj.once block)]
    exact if_pos ⟨formed.start, inside.2⟩

theorem Disjoint.sublist {part : Coverage} (sublist : part.Sublist runs) : Disjoint part :=
  ⟨disj.ordered.sublist sublist, fun run mem => disj.formed run (sublist.subset mem),
    disj.apart.sublist sublist⟩

variable {run : Nat × CoverageEntry}

/-- A run of blocks that no run has may be put into the tree. -/
theorem Disjoint.insert (formed : Formed run)
    (free : ∀ block, Contains run block → weigh one runs block = 0) :
    Disjoint (insert run.1 run.2 runs) ∧ (insert run.1 run.2 runs).Perm (run :: runs) := by
  have unbound : find run.1 runs = none := by
    refine find_eq_none.mpr fun other mem same => ?_
    have missed := missed_of_free (free run.1 ⟨le_rfl, formed.positive⟩) other mem
    exact missed ⟨same.le, same ▸ (disj.formed other mem).positive⟩
  have perm : (Assoc.insert run.1 run.2 runs).Perm (run :: runs) := by
    have inserted := insert_perm disj.ordered run.1 run.2
    rwa [erase_eq_self unbound] at inserted
  have all_formed : ∀ other ∈ Assoc.insert run.1 run.2 runs, Formed other := by
    simp only [perm.mem_iff]
    exact forall_mem_cons.mpr ⟨formed, disj.formed⟩
  refine ⟨⟨disj.ordered.insert _ _, all_formed, (apart_iff all_formed).mpr fun block => ?_⟩, perm⟩
  have once := disj.once block
  rw [weigh_perm perm, weigh_cons, one]
  split_ifs with contains
  · rw [free block contains]
  · omega

theorem Disjoint.insertAll {added : Coverage} (formed : ∀ run ∈ added, Formed run)
    (once : ∀ block, weigh one (added ++ runs) block ≤ 1) :
    Disjoint (insertAll runs added) ∧ (insertAll runs added).Perm (added ++ runs) := by
  induction added generalizing runs with
  | nil => exact ⟨disj, .refl _⟩
  | cons run rest ih =>
    have free : ∀ block, Contains run block → weigh one runs block = 0 := by
      intro block contains
      have held := once block
      rw [cons_append, weigh_cons, if_pos contains, weigh_append, one] at held
      omega
    obtain ⟨one_more, perm⟩ := disj.insert (formed run mem_cons_self) free
    have middle : (rest ++ Assoc.insert run.1 run.2 runs).Perm (run :: (rest ++ runs)) :=
      (perm.append_left rest).trans perm_middle
    obtain ⟨fine, all⟩ := ih one_more (forall_mem_cons.mp formed).2
      fun block => (weigh_perm middle).trans_le (once block)
    exact ⟨fine, all.trans middle⟩

theorem Disjoint.eraseAll (subset : hit ⊆ runs) (nodup : (hit.map Prod.fst).Nodup) :
    Disjoint (hit.foldl (fun runs run => erase run.1 runs) runs) ∧
      runs.Perm (hit ++ hit.foldl (fun runs run => erase run.1 runs) runs) := by
  induction hit generalizing runs with
  | nil => exact ⟨disj, .refl _⟩
  | cons run rest ih =>
    rw [map_cons, nodup_cons] at nodup
    have mem := subset mem_cons_self
    have perm : runs.Perm (run :: erase run.1 runs) :=
      erase_perm (find_of_mem disj.ordered.nodup mem)
    have left : rest ⊆ erase run.1 runs := by
      intro other later
      have among := perm.mem_iff.mp (subset (mem_cons_of_mem _ later))
      refine (mem_cons.mp among).resolve_left fun same => nodup.1 ?_
      exact same ▸ mem_map_of_mem later
    obtain ⟨fine, all⟩ := ih (disj.sublist (erase_sublist _ _)) left nodup.2
    exact ⟨fine, perm.trans (all.cons run)⟩

/-- The runs that overlap a range, with what `pin_range` relies on. -/
theorem Disjoint.overlaps (range : start < stop) (mem : run ∈ overlapping runs start stop) :
    Formed run ∧ max run.1 start < min run.2.stop stop := by
  obtain ⟨among, overlaps⟩ := mem_filter.mp mem
  have formed := disj.formed run among
  have pos := formed.positive
  rw [decide_eq_true_eq] at overlaps
  exact ⟨formed, by omega⟩

/-- Cutting the runs around a range changes the counts inside the range only. -/
theorem Disjoint.recut (range : start < stop)
    {recount : Nat → Option Nat} (counts : ∀ count new, recount count = some new → 0 < new) :
    Disjoint (recut runs start stop recount) ∧ ∀ (weight : Nat → Nat) block,
      weigh (fun entry => weight entry.count) (recut runs start stop recount) block =
        if start ≤ block ∧ block < stop then
          weigh (fun entry => (recount entry.count).elim 0 weight) runs block
        else weigh (fun entry => weight entry.count) runs block := by
  unfold Integrity.recut
  dsimp only
  have within : ∀ weight block, start ≤ block ∧ block < stop →
      weigh weight (overlapping runs start stop) block = weigh weight runs block :=
    fun _ _ both => weigh_overlapping both.1 both.2
  have hits : ∀ run ∈ overlapping runs start stop,
      Formed run ∧ max run.1 start < min run.2.stop stop := fun _ => disj.overlaps range
  have hit_sublist : (overlapping runs start stop).Sublist runs := filter_sublist
  revert within hits hit_sublist
  generalize overlapping runs start stop = hit
  intro within hits hit_sublist
  obtain ⟨cleared, perm⟩ := disj.eraseAll hit_sublist.subset
    (disj.sublist hit_sublist).ordered.nodup
  have low_high := fun run mem => (hits run mem).2
  rw [foldl_insertAll]
  have formed : ∀ piece ∈ hit.flatMap (pieces start stop recount), Formed piece := by
    intro piece mem
    obtain ⟨run, among, part⟩ := mem_flatMap.mp mem
    exact formed_pieces (hits run among).1 (low_high run among) counts part
  have total : ∀ (weight : Nat → Nat) block, weigh (fun entry => weight entry.count)
      (hit.flatMap (pieces start stop recount) ++
        hit.foldl (fun runs run => erase run.1 runs) runs) block =
      if start ≤ block ∧ block < stop then
        weigh (fun entry => (recount entry.count).elim 0 weight) runs block
      else weigh (fun entry => weight entry.count) runs block := by
    intro weight block
    rw [weigh_append, weigh_flatMap_pieces weight low_high]
    split_ifs with both
    · have all : weigh one runs block = _ := weigh_perm perm
      rw [weigh_append, within one block both] at all
      have rest := missed_of_free (Nat.left_eq_add.mp all)
      rw [within _ block both, weigh_eq_zero rest, Nat.add_zero]
    · rw [← weigh_append, ← weigh_perm perm]
  obtain ⟨fine, all⟩ := cleared.insertAll formed fun block => by
    have bound := disj.once block
    refine (total (fun _ => 1) block).trans_le ?_
    split_ifs
    · refine le_trans (weigh_le fun run _ => ?_) bound
      cases recount run.2.count <;> simp [one]
    · exact bound
  exact ⟨fine, fun weight block => (weigh_perm all).trans (total weight block)⟩

theorem Disjoint.fill {first last : Nat} (room : first < last)
    (free : ∀ block, first ≤ block → block < last → weigh one runs block = 0) :
    Disjoint (Assoc.insert first ⟨first, last - first, 1⟩ runs) ∧ ∀ weight block,
      weigh weight (Assoc.insert first ⟨first, last - first, 1⟩ runs) block =
        (if first ≤ block ∧ block < last then weight ⟨first, last - first, 1⟩ else 0) +
          weigh weight runs block := by
  have stops : CoverageEntry.stop ⟨first, last - first, 1⟩ = last := by
    show first + (last - first) = last
    omega
  obtain ⟨fine, perm⟩ := @Disjoint.insert runs disj (first, ⟨first, last - first, 1⟩)
    ⟨rfl, room.trans_eq stops.symm, Nat.one_pos⟩
    fun block mem => free block mem.1 (mem.2.trans_eq stops)
  refine ⟨fine, fun weight block => ?_⟩
  rw [weigh_perm perm, weigh_cons, stops]

/-- The gaps of the range become runs with count one. -/
theorem Disjoint.fillGaps {cursor : Nat} (room : cursor < stop)
    (formed : ∀ run ∈ hit, Formed run ∧ run.1 < stop)
    (ascending : hit.Pairwise fun first second => first.2.stop ≤ second.1)
    (held : ∀ block, cursor ≤ block → block < stop → weigh one runs block ≤ weigh one hit block) :
    Disjoint (fillGaps stop cursor hit runs) ∧ ∀ block,
      weigh CoverageEntry.count (fillGaps stop cursor hit runs) block =
        weigh CoverageEntry.count runs block +
          if cursor ≤ block ∧ block < stop then 1 - weigh one hit block else 0 := by
  induction hit generalizing runs cursor with
  | nil =>
    unfold Integrity.fillGaps
    rw [if_pos room]
    obtain ⟨fine, weighs⟩ := disj.fill room
      fun block low high => Nat.le_zero.mp (held block low high)
    refine ⟨fine, fun block => ?_⟩
    rw [weighs, weigh_nil, Nat.add_comm]
  | cons run rest ih =>
    obtain ⟨before, later⟩ := pairwise_cons.mp ascending
    obtain ⟨run_formed, starts⟩ := formed run mem_cons_self
    have pos := run_formed.positive
    have below : ∀ block, block < run.2.stop → weigh one rest block = 0 := by
      intro block early
      refine weigh_eq_zero fun other mem there => ?_
      have behind := before other mem
      omega
    obtain ⟨now, now_eq, now_disjoint, weighs⟩ : ∃ now, now = (if cursor < run.1 then
          Assoc.insert cursor ⟨cursor, min (run.1 - cursor) (stop - cursor), 1⟩ runs else runs) ∧
        Disjoint now ∧ ∀ weight block, weigh weight now block =
          (if cursor ≤ block ∧ block < run.1 then weight ⟨cursor, run.1 - cursor, 1⟩ else 0) +
            weigh weight runs block := by
      refine ⟨_, rfl, ?_⟩
      split_ifs with gap
      · rw [Nat.min_eq_left (by omega)]
        refine disj.fill gap fun block low high => ?_
        have bound := held block low (by omega)
        rw [weigh_cons, if_neg (by omega), below block (by omega)] at bound
        omega
      · refine ⟨disj, fun weight block => ?_⟩
        rw [if_neg (by omega), Nat.zero_add]
    unfold Integrity.fillGaps
    dsimp only
    rw [← now_eq]
    split_ifs with full
    · refine ⟨now_disjoint, fun block => ?_⟩
      have none := below block
      rw [weighs, weigh_cons, one]
      dsimp only
      split_ifs <;> omega
    · have still : ∀ block, max cursor run.2.stop ≤ block → block < stop →
          weigh one now block ≤ weigh one rest block := by
        intro block low high
        have bound := held block (by omega) high
        rw [weigh_cons, if_neg (by omega)] at bound
        rw [weighs, if_neg (by omega)]
        omega
      obtain ⟨fine, filled⟩ := ih now_disjoint (by omega) (forall_mem_cons.mp formed).2 later still
      refine ⟨fine, fun block => ?_⟩
      have none := below block
      rw [filled, weighs, weigh_cons, one]
      dsimp only
      split_ifs <;> omega

/-- `pin_range` pins the blocks of its range once more and leaves the others as they are. -/
theorem Disjoint.pinRange (start length : Nat) :
    Disjoint (pinRange runs start length) ∧ ∀ block,
      coverageAt (pinRange runs start length) block =
        coverageAt runs block +
          if start ≤ block ∧ block < start + length then 1 else 0 := by
  unfold Integrity.pinRange
  split_ifs with empty
  · refine ⟨disj, fun block => ?_⟩
    rw [if_neg (by omega)]
    rfl
  · have range : start < start + length := by omega
    obtain ⟨cut_disjoint, weighs⟩ := disj.recut range fun count new same =>
      (Option.some.inj same ▸ Nat.succ_pos count : 0 < new)
    have ascending : (overlapping runs start (start + length)).Pairwise
        fun first second => first.2.stop ≤ second.1 := by
      refine ((disj.ordered.and disj.apart).sublist filter_sublist).imp_of_mem ?_
      intro first second _ two both
      have pos := (disj.overlaps range two).1.positive
      have away := both.2
      unfold Apart at away
      omega
    obtain ⟨fine, filled⟩ := cut_disjoint.fillGaps range (fun run mem => by
        obtain ⟨formed, low_high⟩ := disj.overlaps range mem
        exact ⟨formed, by omega⟩) ascending fun block low high => by
      have same := weighs (fun _ => 1) block
      rw [if_pos ⟨low, high⟩] at same
      rw [weigh_overlapping low high]
      exact same.le
    refine ⟨fine, fun block => ?_⟩
    have once := disj.once block
    have counts : weigh CoverageEntry.count _ block = if start ≤ block ∧ block < start + length
        then weigh (fun entry => entry.count + one entry) runs block
        else weigh CoverageEntry.count runs block := weighs id block
    rw [fine.coverageAt_eq, disj.coverageAt_eq, filled, counts, weigh_add]
    split_ifs with within
    · rw [weigh_overlapping within.1 within.2]
      omega
    · rfl

theorem Disjoint.isPinned_pinRange (start length block : Nat) :
    isPinned (Integrity.pinRange runs start length) block = true ↔
      isPinned runs block = true ∨ (start ≤ block ∧ block < start + length) := by
  unfold isPinned
  rw [decide_eq_true_eq, decide_eq_true_eq, (disj.pinRange start length).2]
  split_ifs with within
  · simp [within]
  · rw [Nat.add_zero]
    exact ⟨.inl, fun either => either.resolve_right within⟩

/-- A block has no pins exactly when no run has it. -/
theorem Disjoint.coverageAt_eq_zero (block : Nat) :
    coverageAt runs block = 0 ↔ weigh one runs block = 0 := by
  rw [disj.coverageAt_eq]
  refine ⟨fun zero => Nat.le_zero.mp (zero ▸ weigh_le fun run mem => ?_), fun free => ?_⟩
  · exact (disj.formed run mem).counted
  · exact weigh_eq_zero (missed_of_free free)

theorem Disjoint.covered_lt_iff (start length : Nat) :
    covered runs start (start + length) < length ↔
      ∃ block, start ≤ block ∧ block < start + length ∧ coverageAt runs block = 0 := by
  have blocks : ∑ _ ∈ Finset.Ico start (start + length), 1 = length := by
    rw [← Finset.card_eq_sum_ones, Nat.card_Ico, Nat.add_sub_cancel_left]
  rw [covered_eq]
  constructor
  · intro less
    by_contra none
    push Not at none
    refine absurd less (not_lt.mpr (blocks.symm.trans_le (Finset.sum_le_sum fun block mem => ?_)))
    obtain ⟨low, high⟩ := Finset.mem_Ico.mp mem
    exact Nat.pos_of_ne_zero fun zero =>
      none block low high ((disj.coverageAt_eq_zero block).mpr zero)
  · rintro ⟨block, low, high, zero⟩
    refine (Finset.sum_lt_sum (fun block _ => disj.once block)
      ⟨block, Finset.mem_Ico.mpr ⟨low, high⟩, ?_⟩).trans_eq blocks
    rw [(disj.coverageAt_eq_zero block).mp zero]
    exact Nat.one_pos

/-- `unpin_range` fails when a block of its range has no pin, and otherwise takes one from each. -/
theorem Disjoint.unpinRange (start length : Nat) :
    (unpinRange runs start length = none ↔
      ∃ block, start ≤ block ∧ block < start + length ∧ coverageAt runs block = 0) ∧
    ∀ next, unpinRange runs start length = some next → Disjoint next ∧ ∀ block,
      coverageAt next block + (if start ≤ block ∧ block < start + length then 1 else 0) =
        coverageAt runs block := by
  rw [← disj.covered_lt_iff]
  unfold Integrity.unpinRange
  split_ifs with empty uncovered
  · refine ⟨by simp [empty], fun next same => ?_⟩
    cases same
    refine ⟨disj, fun block => ?_⟩
    rw [if_neg (by omega)]
    rfl
  · simp [uncovered]
  · refine ⟨by simp [uncovered], fun next same => ?_⟩
    cases same
    obtain ⟨fine, weighs⟩ := @Disjoint.recut runs start (start + length) disj (by omega)
      (fun count => if 1 < count then some (count - 1) else none) fun count new some => by
        split_ifs at some
        cases some
        omega
    refine ⟨fine, fun block => ?_⟩
    have counts : weigh CoverageEntry.count _ block = _ := weighs id block
    rw [fine.coverageAt_eq, disj.coverageAt_eq, counts]
    split_ifs with within
    · have full : weigh one runs block = 1 := by
        have bound := disj.once block
        have some : weigh one runs block ≠ 0 := fun zero => uncovered
          ((disj.covered_lt_iff start length).mpr
            ⟨block, within.1, within.2, (disj.coverageAt_eq_zero block).mpr zero⟩)
        omega
      rw [← full, ← weigh_add]
      refine le_antisymm (weigh_le fun run mem => ?_) (weigh_le fun run mem => ?_) <;>
      · have counted := (disj.formed run mem).counted
        simp only [one]
        split_ifs <;> simp <;> omega
    · rfl

end

/-- A call of the pin counting. -/
inductive Call where
  | pin (start length : Nat)
  | unpin (start length : Nat)

/-- The runs, and how many calls that succeeded pinned and unpinned each block. -/
structure Tally where
  runs : Coverage
  pins : Nat → Nat
  unpins : Nat → Nat

/-- One more block count for the blocks of a range. -/
def count (counts : Nat → Nat) (start length : Nat) : Nat → Nat := fun block =>
  counts block + if start ≤ block ∧ block < start + length then 1 else 0

/-- One call after another; an unpin that fails changes nothing. -/
def Tally.call (tally : Tally) : Call → Tally
  | .pin start length =>
    { tally with
      runs := pinWords tally.runs start length
      pins := count tally.pins start length }
  | .unpin start length =>
    match unpinWords tally.runs start length with
    | none => tally
    | some runs => { tally with runs := runs, unpins := count tally.unpins start length }

/-- Before any call. -/
def Tally.empty : Tally := ⟨[], fun _ => 0, fun _ => 0⟩

/-- The runs do not overlap and have pins, and count them, and an unpin inside the blocks a word can
number fails exactly when some block of its range has none. -/
structure Tally.Exact (tally : Tally) : Prop where
  disjoint : Disjoint tally.runs
  counts : ∀ block, coverageAt tally.runs block + tally.unpins block = tally.pins block
  refused : ∀ start length, start + length < 2 ^ 64 →
    (unpinWords tally.runs start length = none ↔
      ∃ block, start ≤ block ∧ block < start + length ∧ coverageAt tally.runs block = 0)

/-- The range ends inside a word, and no block to be pinned has as many pins as a word holds. -/
def Tally.Fits (tally : Tally) : Call → Prop
  | .pin start length => start + length < 2 ^ 64 ∧
      ∀ block, start ≤ block → block < start + length → coverageAt tally.runs block < 2 ^ 32 - 1
  | .unpin start length => start + length < 2 ^ 64

/-- Recounts that agree on the runs that overlap the range cut them alike. -/
theorem recut_congr {first second : Nat → Option Nat}
    (same : ∀ run ∈ overlapping runs start stop, first run.2.count = second run.2.count) :
    recut runs start stop first = recut runs start stop second := by
  unfold recut
  dsimp only
  rw [foldl_insertAll, foldl_insertAll]
  congr 1
  refine List.flatMap_congr fun run mem => ?_
  unfold pieces
  rw [same run mem]

section Words
variable (disj : Disjoint runs) {length : Nat} (fits : start + length < 2 ^ 64)
include disj fits

omit fits in
/-- A run that overlaps the range has a block of the range, with the run's pins. -/
theorem Disjoint.exists_pins {run : Nat × CoverageEntry} (range : length ≠ 0)
    (mem : run ∈ overlapping runs start (start + length)) :
    ∃ block, start ≤ block ∧ block < start + length ∧ coverageAt runs block = run.2.count := by
  obtain ⟨formed, low_high⟩ := disj.overlaps (by omega) mem
  have inside : Contains run (max run.1 start) := by omega
  refine ⟨max run.1 start, by omega, by omega, ?_⟩
  rw [disj.coverageAt_eq, weigh_eq (mem_of_mem_filter mem) inside (disj.once _)]

/-- Below the bound of its words `pin_range` counts as on numbers. -/
theorem Disjoint.pinWords_eq (below : ∀ block, start ≤ block → block < start + length →
    coverageAt runs block < 2 ^ 32 - 1) :
    pinWords runs start length = Integrity.pinRange runs start length := by
  unfold pinWords Integrity.pinRange
  split_ifs with empty
  · rfl
  · dsimp only
    rw [Nat.mod_eq_of_lt fits, recut_congr fun run mem => ?_]
    obtain ⟨block, low, high, pins⟩ := disj.exists_pins empty mem
    have bound := below block low high
    rw [Nat.mod_eq_of_lt (by omega)]

/-- `unpin_range` counts as on numbers while the pins fit in a word. -/
theorem Disjoint.unpinWords_eq (small : ∀ block, coverageAt runs block < 2 ^ 32) :
    unpinWords runs start length = Integrity.unpinRange runs start length := by
  unfold unpinWords Integrity.unpinRange
  by_cases empty : length = 0
  · rw [if_pos empty, if_pos empty]
  · rw [if_neg empty, if_neg empty]
    dsimp only
    rw [Nat.mod_eq_of_lt fits, @recut_congr runs start (start + length) _
      (fun count => if 1 < count then some (count - 1) else none) fun run mem => ?_]
    obtain ⟨block, -, -, pins⟩ := disj.exists_pins empty mem
    have counted := (disj.formed run (mem_of_mem_filter mem)).counted
    have bound := small block
    have fewer : (run.2.count + (2 ^ 32 - 1)) % 2 ^ 32 = run.2.count - 1 := by omega
    rw [fewer]
    split_ifs <;> first | rfl | omega

end Words

/-- The runs count the pins, and the pins fit in a word. -/
structure Tally.Counts (tally : Tally) : Prop where
  disjoint : Disjoint tally.runs
  counts : ∀ block, coverageAt tally.runs block + tally.unpins block = tally.pins block
  small : ∀ block, coverageAt tally.runs block < 2 ^ 32

/-- One call keeps the counts, if its range and its pins fit. -/
theorem Tally.Counts.call {tally : Tally} (kept : tally.Counts) {call : Call}
    (fits : tally.Fits call) : (tally.call call).Counts := by
  cases call with
  | pin start length =>
    obtain ⟨short, below⟩ := fits
    obtain ⟨disj, more⟩ := kept.disjoint.pinRange start length
    unfold Tally.call
    dsimp only
    rw [kept.disjoint.pinWords_eq short below]
    refine ⟨disj, fun block => ?_, fun block => ?_⟩
    · have before := kept.counts block
      simp only [count, more]
      omega
    · have before := kept.small block
      have room := below block
      rw [more]
      split_ifs <;> omega
  | unpin start length =>
    obtain ⟨-, taken⟩ := kept.disjoint.unpinRange start length
    unfold Tally.call
    dsimp only
    rw [kept.disjoint.unpinWords_eq fits kept.small]
    cases unpinned : Integrity.unpinRange tally.runs start length with
    | none => exact kept
    | some next =>
      obtain ⟨disj, fewer⟩ := taken next unpinned
      refine ⟨disj, fun block => ?_, fun block => ?_⟩
      · have before := kept.counts block
        have after := fewer block
        simp only [count]
        omega
      · have before := kept.small block
        have after := fewer block
        change coverageAt next block < 2 ^ 32
        omega

/-- In every sequence of pins and unpins whose ranges end inside a word and which pins no block
that has 2³² − 1 pins, the runs are disjoint and pinned at least once, each block has as many pins
as calls that succeeded pinned it less those that unpinned it, and an unpin fails exactly when some
block of its range has none. -/
theorem pins_counted (calls : List Call)
    (fits : Machine.Along (fun tally call => some (Tally.call tally call)) Tally.Fits calls
      .empty) :
    Machine.Always (fun tally call => some (Tally.call tally call)) Tally.Exact calls .empty := by
  have start : Tally.empty.Counts :=
    ⟨⟨.nil, forall_mem_nil _, .nil⟩, fun _ => rfl, fun _ => Nat.two_pow_pos 32⟩
  refine Machine.always_of_along (fun tally call next kept fits taken => ?_) (fun tally kept => ?_)
    start fits
  · cases taken
    exact kept.call fits
  · refine ⟨kept.disjoint, kept.counts, fun start length short => ?_⟩
    rw [kept.disjoint.unpinWords_eq short kept.small]
    exact (kept.disjoint.unpinRange start length).1

/-- Two overlapping ranges are pinned and the first is unpinned. -/
theorem pins_counted_overlapping : Machine.Always (fun tally call => some (Tally.call tally call))
    Tally.Exact [.pin 5 4, .pin 7 4, .unpin 5 4] .empty := by
  refine pins_counted _ ⟨⟨by decide, fun _ _ _ => ?_⟩, ⟨by decide, fun block low high => ?_⟩, ?_⟩
  · exact show 0 < 2 ^ 32 - 1 by decide
  · have blocks : ∀ index < 4, coverageAt (Tally.empty.call (.pin 5 4)).runs (7 + index) <
        2 ^ 32 - 1 := by decide
    have place : 7 + (block - 7) = block := by omega
    exact place ▸ blocks (block - 7) (by omega)
  · exact ⟨show 5 + 4 < 2 ^ 64 by decide, trivial⟩

/-- Pinning one block again and again counts modulo the word. -/
theorem pin_again (times : Nat) (tally : Tally) (pinned : Nat)
    (runs : tally.runs = [(5, ⟨5, 1, pinned % 2 ^ 32⟩)]) :
    let last := (List.replicate times (Call.pin 5 1)).foldl Tally.call tally
    last.runs = [(5, ⟨5, 1, (pinned + times) % 2 ^ 32⟩)] ∧ last.pins 5 = tally.pins 5 + times ∧
      last.unpins = tally.unpins := by
  induction times generalizing tally pinned with
  | zero => exact ⟨runs, rfl, rfl⟩
  | succ times ih =>
    have next : (tally.call (.pin 5 1)).runs = [(5, ⟨5, 1, (pinned + 1) % 2 ^ 32⟩)] := by
      unfold Tally.call
      dsimp only
      rw [runs, ← Nat.mod_add_mod]
      rfl
    obtain ⟨last, pins, unpins⟩ := ih _ _ next
    rw [List.replicate_succ, foldl_cons]
    refine ⟨?_, pins.trans ?_, unpins⟩
    · rw [last, Nat.add_right_comm, Nat.add_assoc]
    · change tally.pins 5 + 1 + times = _
      omega

/-- The block that is pinned 2³² times counts as unpinned. -/
theorem pins_wrap : ¬ ∀ calls, (List.foldl Tally.call .empty calls).Exact := by
  intro exact
  obtain ⟨runs, pins, unpins⟩ := pin_again (2 ^ 32 - 1) (Tally.empty.call (.pin 5 1)) 1 rfl
  have counts := (exact (.pin 5 1 :: List.replicate (2 ^ 32 - 1) (Call.pin 5 1))).counts 5
  rw [foldl_cons, runs, pins, unpins] at counts
  exact absurd counts (by decide)

end LionFS.Integrity
