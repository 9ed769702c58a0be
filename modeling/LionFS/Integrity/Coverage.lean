import LionFS.Data.Assoc
import Mathlib.Algebra.GroupWithZero.Nat

/-!
# The refcount coverage tree

`integrity::refcount`: runs of physical blocks and how many external references
pin each of them, as an ordered map from the first block of a run. Pinning and
unpinning take the runs that overlap the range out of the map and put their
pieces back, the middle piece with its count changed. Counts and block numbers
are unbounded here; `pinWords` and `unpinWords` have them as the code does.
-/
namespace LionFS.Integrity
open Assoc

/-- `CoverageEntry`. -/
structure CoverageEntry where
  physicalStart : Nat
  length : Nat
  count : Nat
deriving DecidableEq

/-- The coverage tree, as its bindings. -/
abbrev Coverage := List (Nat × CoverageEntry)

/-- The end of a run. -/
def CoverageEntry.stop (entry : CoverageEntry) : Nat := entry.physicalStart + entry.length

variable (runs : Coverage)

/-- `coverage_at`. -/
def coverageAt (block : Nat) : Nat :=
  match floor block runs with
  | some (start, entry) =>
    if start = entry.physicalStart ∧ block < entry.stop then entry.count else 0
  | none => 0

/-- `is_pinned`. -/
def isPinned (block : Nat) : Bool := decide (0 < coverageAt runs block)

/-- The runs that overlap the blocks from `start` to `stop`. -/
def overlapping (start stop : Nat) : Coverage :=
  runs.filter fun run => decide (start < run.2.stop ∧ run.1 < stop)

/-- How many blocks of a range the overlapping runs cover. -/
def covered (start stop : Nat) : Nat :=
  ((overlapping runs start stop).map fun run => min run.2.stop stop - max run.1 start).sum

/-- `is_range_pinned`. -/
def isRangePinned (start length : Nat) : Bool :=
  decide (length ≠ 0 ∧ length ≤ covered runs start (start + length))

/-- The pieces of a run around a range: before it, inside it with a new count, and after it. -/
def pieces (start stop : Nat) (recount : Nat → Option Nat) (run : Nat × CoverageEntry) :
    Coverage :=
  let low := max run.1 start
  let high := min run.2.stop stop
  (if run.1 < start then [(run.1, ⟨run.1, start - run.1, run.2.count⟩)] else []) ++
  (if low < high then
    (recount run.2.count).toList.map fun count => (low, ⟨low, high - low, count⟩)
  else []) ++
  (if stop < run.2.stop then [(stop, ⟨stop, run.2.stop - stop, run.2.count⟩)] else [])

/-- Put runs into the tree. -/
def insertAll (runs added : Coverage) : Coverage :=
  added.foldl (fun runs run => insert run.1 run.2 runs) runs

/-- Take the overlapping runs out and put their pieces back. -/
def recut (start stop : Nat) (recount : Nat → Option Nat) : Coverage :=
  let hit := overlapping runs start stop
  let cleared := hit.foldl (fun runs run => erase run.1 runs) runs
  hit.foldl (fun runs run => insertAll runs (pieces start stop recount run)) cleared

/-- The last loop of `pin_range`: the gaps of the range become runs with count one. The
overlapping runs come in ascending order. -/
def fillGaps (stop : Nat) : (cursor : Nat) → (hit : Coverage) → Coverage → Coverage
  | cursor, [], runs =>
    if cursor < stop then insert cursor ⟨cursor, stop - cursor, 1⟩ runs else runs
  | cursor, run :: rest, runs =>
    let runs :=
      if cursor < run.1 then
        insert cursor ⟨cursor, min (run.1 - cursor) (stop - cursor), 1⟩ runs
      else runs
    let cursor := max cursor run.2.stop
    if stop ≤ cursor then runs else fillGaps stop cursor rest runs

/-- `pin_range`. -/
def pinRange (runs : Coverage) (start length : Nat) : Coverage :=
  if length = 0 then runs
  else
    fillGaps (start + length) start (overlapping runs start (start + length))
      (recut runs start (start + length) fun count => some (count + 1))

/-- `unpin_range`: an error when the range is not covered, in which case nothing changes. -/
def unpinRange (runs : Coverage) (start length : Nat) : Option Coverage :=
  if length = 0 then some runs
  else if covered runs start (start + length) < length then none
  else
    some (recut runs start (start + length) fun count =>
      if 1 < count then some (count - 1) else none)

/-- `pin_range` with its end a `u64` and its counts `u32`, as a build without overflow checks
computes them. -/
def pinWords (runs : Coverage) (start length : Nat) : Coverage :=
  if length = 0 then runs
  else
    let stop := (start + length) % 2 ^ 64
    fillGaps stop start (overlapping runs start stop)
      (recut runs start stop fun count => some ((count + 1) % 2 ^ 32))

/-- `unpin_range` with its end a `u64` and its counts `u32`. -/
def unpinWords (runs : Coverage) (start length : Nat) : Option Coverage :=
  if length = 0 then some runs
  else
    let stop := (start + length) % 2 ^ 64
    if covered runs start stop < length then none
    else
      some (recut runs start stop fun count =>
        let fewer := (count + (2 ^ 32 - 1)) % 2 ^ 32
        if 0 < fewer then some fewer else none)

/-- A block pinned by a run alone stays pinned as often when another range is unpinned. -/
example : (unpinRange (pinRange (pinRange [] 5 4) 7 4) 5 4).map (fun runs =>
    ([5, 7, 8, 9, 10, 11].map (coverageAt runs))) = some [0, 1, 1, 1, 1, 0] := by decide

end LionFS.Integrity
