import Mathlib.Data.List.Sort

/-!
# Half-open ranges and the gaps between them

A range is a pair of bounds, the lower one included and the upper one not. What
a list of ranges leaves of an interval is found by sorting it, merging what
touches, and walking along with a cursor. The gaps found lie in the interval, in
order, and have nothing in common with any range of the list.
-/
namespace LionFS.Ranges
open List

/-- Two ranges have no number in common. -/
def Apart (a b : Nat × Nat) : Prop := a.2 ≤ b.1 ∨ b.2 ≤ a.1 ∨ a.2 ≤ a.1 ∨ b.2 ≤ b.1

instance (a b : Nat × Nat) : Decidable (Apart a b) := by
  unfold Apart
  infer_instance

/-- Being apart is symmetric. -/
theorem Apart.symm {a b : Nat × Nat} (apart : Apart a b) : Apart b a := by
  unfold Apart at apart ⊢
  omega

/-- A part is apart from what the whole is apart from. -/
theorem Apart.part {a b part : Nat × Nat} (apart : Apart a b) (low : a.1 ≤ part.1)
    (high : part.2 ≤ a.2) : Apart part b := by
  unfold Apart at apart ⊢
  omega

/-- The order in which ranges are sorted: by lower bound, then by upper bound. -/
def Before (a b : Nat × Nat) : Prop := a.1 < b.1 ∨ a.1 = b.1 ∧ a.2 ≤ b.2

instance : DecidableRel Before := fun a b => by
  unfold Before
  infer_instance

instance : Std.Total Before := ⟨fun a b => by unfold Before; omega⟩

instance : IsTrans (Nat × Nat) Before :=
  ⟨fun a b c first second => by unfold Before at first second ⊢; omega⟩

/-- Lower bounds do not descend. -/
def Ascending (ranges : List (Nat × Nat)) : Prop := ranges.Pairwise fun a b => a.1 ≤ b.1

/-- Sorted ranges ascend. -/
theorem ascending_sort (ranges : List (Nat × Nat)) : Ascending (ranges.insertionSort Before) := by
  refine (pairwise_insertionSort Before ranges).imp fun before => ?_
  unfold Before at before
  omega

/-- Extend the last range over what touches it, and go on from the first range that does not. -/
def mergeFrom (last : Nat × Nat) : List (Nat × Nat) → List (Nat × Nat)
  | [] => [last]
  | next :: rest =>
    if next.1 ≤ last.2 then mergeFrom (last.1, max last.2 next.2) rest
    else last :: mergeFrom next rest

/-- Merge the ranges that touch, of a list in ascending order. -/
def merge : List (Nat × Nat) → List (Nat × Nat)
  | [] => []
  | first :: rest => mergeFrom first rest

/-- What ascending ranges leave of the interval from a cursor to an end. -/
def gaps (cursor stop : Nat) : List (Nat × Nat) → List (Nat × Nat)
  | [] => if cursor < stop then [(cursor, stop)] else []
  | range :: rest =>
    if cursor < range.1 then (cursor, range.1) :: gaps (max cursor range.2) stop rest
    else gaps (max cursor range.2) stop rest

/-- What a list of ranges leaves of an interval. -/
def complement (start stop : Nat) (ranges : List (Nat × Nat)) : List (Nat × Nat) :=
  gaps start stop (merge (ranges.insertionSort Before))

section Gaps
variable {ranges : List (Nat × Nat)} {cursor stop : Nat} {gap : Nat × Nat}

/-- Merging does not change the gaps: a range that touches the one before it starts none. -/
theorem gaps_mergeFrom (last : Nat × Nat) :
    gaps cursor stop (mergeFrom last ranges) = gaps cursor stop (last :: ranges) := by
  induction ranges generalizing last cursor with
  | nil => rfl
  | cons next rest ih =>
    unfold mergeFrom
    split_ifs with touches
    · have covered : ¬ max cursor last.2 < next.1 := by omega
      simp only [ih, gaps, covered, if_false, Nat.max_assoc]
    · simp only [gaps, ih]

/-- Merging leaves the gaps. -/
theorem gaps_merge : gaps cursor stop (merge ranges) = gaps cursor stop ranges := by
  cases ranges with
  | nil => rfl
  | cons first rest => exact gaps_mergeFrom first

variable (inside : ∀ range ∈ ranges, range.1 ≤ stop)
include inside

/-- A gap starts at the cursor or later, is not empty, and ends by the end of the interval. -/
theorem gaps_within (mem : gap ∈ gaps cursor stop ranges) :
    cursor ≤ gap.1 ∧ gap.1 < gap.2 ∧ gap.2 ≤ stop := by
  induction ranges generalizing cursor with
  | nil =>
    unfold gaps at mem
    split_ifs at mem with room
    · rw [mem_singleton] at mem
      rw [mem]
      exact ⟨le_refl _, room, le_refl _⟩
    · exact absurd mem not_mem_nil
  | cons range rest ih =>
    have further := forall_mem_of_forall_mem_cons inside
    unfold gaps at mem
    split_ifs at mem with room
    · rcases mem_cons.mp mem with same | later
      · rw [same]
        exact ⟨le_refl _, room, inside range mem_cons_self⟩
      · have bounds := ih further later
        omega
    · have bounds := ih further mem
      omega

/-- The gaps come one after the other. -/
theorem gaps_ordered (proper : ∀ range ∈ ranges, range.1 ≤ range.2) :
    (gaps cursor stop ranges).Pairwise Apart := by
  induction ranges generalizing cursor with
  | nil =>
    unfold gaps
    split_ifs
    · exact pairwise_singleton _ _
    · exact List.Pairwise.nil
  | cons range rest ih =>
    have further := forall_mem_of_forall_mem_cons inside
    have ordered := @ih (max cursor range.2) further (forall_mem_cons.mp proper).2
    unfold gaps
    split_ifs with room
    · refine pairwise_cons.mpr ⟨fun gap mem => ?_, ordered⟩
      have bounds := gaps_within further mem
      have upward := proper range mem_cons_self
      unfold Apart
      omega
    · exact ordered

/-- Gaps are apart from the ranges. -/
theorem gaps_apart (ascending : Ascending ranges) (mem : gap ∈ gaps cursor stop ranges)
    {range : Nat × Nat} (among : range ∈ ranges) : Apart gap range := by
  induction ranges generalizing cursor with
  | nil => exact absurd among not_mem_nil
  | cons first rest ih =>
    obtain ⟨lowest, later⟩ := pairwise_cons.mp ascending
    have further := forall_mem_of_forall_mem_cons inside
    have afterwards (found : gap ∈ gaps (max cursor first.2) stop rest) : Apart gap range := by
      rcases mem_cons.mp among with same | beyond
      · have bounds := gaps_within further found
        rw [same]
        unfold Apart
        omega
      · exact ih further later found beyond
    unfold gaps at mem
    split_ifs at mem with room
    · rcases mem_cons.mp mem with same | found
      · have low : first.1 ≤ range.1 := by
          rcases mem_cons.mp among with here | beyond
          · rw [here]
          · exact lowest range beyond
        rw [same]
        exact .inl low
      · exact afterwards found
    · exact afterwards mem

end Gaps

section Complement
variable {ranges : List (Nat × Nat)} {start stop : Nat} {gap : Nat × Nat}
  (inside : ∀ range ∈ ranges, range.1 ≤ stop)
include inside

/-- What is left lies in the interval. -/
theorem complement_within (mem : gap ∈ complement start stop ranges) :
    start ≤ gap.1 ∧ gap.1 < gap.2 ∧ gap.2 ≤ stop := by
  rw [complement, gaps_merge] at mem
  exact gaps_within (fun range among => inside range ((mem_insertionSort Before).mp among)) mem

/-- What is left has nothing in common with the ranges of the list. -/
theorem complement_apart (mem : gap ∈ complement start stop ranges) {range : Nat × Nat}
    (among : range ∈ ranges) : Apart gap range := by
  rw [complement, gaps_merge] at mem
  exact gaps_apart (fun range among => inside range ((mem_insertionSort Before).mp among))
    (ascending_sort ranges) mem ((mem_insertionSort Before).mpr among)

/-- What is left comes in ranges that have nothing in common. -/
theorem complement_ordered (proper : ∀ range ∈ ranges, range.1 ≤ range.2) :
    (complement start stop ranges).Pairwise Apart := by
  rw [complement, gaps_merge]
  exact gaps_ordered (fun range among => inside range ((mem_insertionSort Before).mp among))
    fun range among => proper range ((mem_insertionSort Before).mp among)

end Complement
end LionFS.Ranges
