import LionFS.Data.Machine
import Mathlib.Data.List.Chain
import Mathlib.Order.Nat
import Mathlib.Tactic.SplitIfs

/-!
# The hybrid logical clock

`Hlc` of `core.rs`: a wall reading and a counter of the events at it. The packed
form adds the two, so a burst of events runs ahead of the wall, and a reading
inside the burst takes it back. `observe` sets the wall anchor last, which undoes
the step that a full counter had made.
-/
namespace LionFS.Cluster
open Machine List

/-- `Hlc`. -/
structure Hlc where
  physical : Nat
  logical : Nat

namespace Hlc

/-- `HLC_LOGICAL_CAP`. -/
def logicalCap : Nat := 999999

/-- `EPOCH`. -/
def epoch : Hlc := ⟨0, 0⟩

/-- `bump_logical`. -/
def bumpLogical (hlc : Hlc) : Hlc :=
  if logicalCap ≤ hlc.logical then ⟨hlc.physical + logicalCap + 1, 0⟩
  else { hlc with logical := hlc.logical + 1 }

/-- `tick`. -/
def tick (hlc : Hlc) (wall : Nat) : Hlc :=
  if hlc.physical < wall then ⟨wall, 0⟩ else hlc.bumpLogical

/-- `as_ns`. -/
def asNs (hlc : Hlc) : Nat := hlc.physical + hlc.logical

/-- What `tick_ns` returns at one wall reading after the other. -/
def tickNs : Hlc → List Nat → List Nat
  | _, [] => []
  | hlc, wall :: rest => (hlc.tick wall).asNs :: tickNs (hlc.tick wall) rest

/-- The wall anchor of `observe`. -/
def merged (hlc remote : Hlc) (wall : Nat) : Nat := max (max hlc.physical remote.physical) wall

/-- `observe`. -/
def observe (hlc remote : Hlc) (wall : Nat) : Hlc :=
  let merged := merged hlc remote wall
  let moved :=
    if merged = hlc.physical ∧ merged = remote.physical then
      { hlc with logical := max hlc.logical remote.logical }.bumpLogical
    else if merged = hlc.physical then hlc.bumpLogical
    else if merged = remote.physical then { hlc with logical := remote.logical }.bumpLogical
    else { hlc with logical := 0 }
  { moved with physical := merged }

/-- The order of timestamps. -/
def Before (first second : Hlc) : Prop :=
  first.physical < second.physical ∨
    first.physical = second.physical ∧ first.logical < second.logical
deriving Decidable

/-- A wall reading ahead of the anchor is ahead of the burst of events at it. -/
def PastBurst (hlc : Hlc) (wall : Nat) : Prop := hlc.physical < wall → hlc.asNs < wall
deriving Decidable

theorem tick_capped (hlc : Hlc) (wall : Nat) : (hlc.tick wall).logical ≤ logicalCap := by
  unfold tick bumpLogical
  split_ifs <;> dsimp only <;> omega

theorem asNs_lt_tick_iff {hlc : Hlc} (capped : hlc.logical ≤ logicalCap) (wall : Nat) :
    hlc.asNs < (hlc.tick wall).asNs ↔ hlc.PastBurst wall := by
  unfold asNs PastBurst tick bumpLogical asNs
  split_ifs <;> dsimp only <;> omega

/-- From every state on, what `tick_ns` returns is strictly increasing if and only if no wall
reading falls into a burst. -/
theorem tickNs_increasing_iff {hlc : Hlc} (capped : hlc.logical ≤ logicalCap) (walls : List Nat) :
    (hlc.asNs :: hlc.tickNs walls).IsChain (· < ·) ↔
      Along (fun hlc wall => some (hlc.tick wall)) PastBurst walls hlc := by
  induction walls generalizing hlc with
  | nil => exact ⟨fun _ => trivial, fun _ => isChain_singleton _⟩
  | cons wall rest ih =>
    unfold tickNs Along
    rw [isChain_cons_cons]
    exact and_congr (asNs_lt_tick_iff capped wall) (ih (tick_capped hlc wall))

/-- Two events at one reading, a reading past both, and one behind it. -/
theorem tickNs_increasing_burst : (epoch.asNs :: epoch.tickNs [7, 7, 9, 3]).IsChain (· < ·) :=
  (@tickNs_increasing_iff epoch (Nat.zero_le _) [7, 7, 9, 3]).mpr
    ⟨by decide +kernel, by decide +kernel, by decide +kernel, by decide +kernel, trivial⟩

/-- Three events at one reading, and then the next reading. -/
theorem tick_inside_burst : ¬ ∀ walls, (epoch.tickNs walls).IsChain (· < ·) := by
  intro increasing
  exact absurd (increasing [7, 7, 7, 8]) (by decide +kernel)

/-- With counters up to the cap, `observe` returns a timestamp after both with a counter up to the
cap if and only if no side at the merged reading has a full counter. -/
theorem observe_after_iff {hlc remote : Hlc} (capped : hlc.logical ≤ logicalCap)
    (remote_capped : remote.logical ≤ logicalCap) (wall : Nat) :
    (hlc.Before (hlc.observe remote wall) ∧ remote.Before (hlc.observe remote wall) ∧
        (hlc.observe remote wall).logical ≤ logicalCap) ↔
      (hlc.physical = merged hlc remote wall → hlc.logical < logicalCap) ∧
        (remote.physical = merged hlc remote wall → remote.logical < logicalCap) := by
  have low : hlc.physical ≤ merged hlc remote wall := by unfold merged; omega
  have high : remote.physical ≤ merged hlc remote wall := by unfold merged; omega
  unfold Before observe bumpLogical
  generalize merged hlc remote wall = anchor at low high ⊢
  dsimp only
  split_ifs <;> dsimp only <;> omega

/-- A full counter behind the merged reading does no harm. -/
theorem observe_after_full : (Hlc.mk 5 logicalCap).Before (observe ⟨5, logicalCap⟩ ⟨8, 2⟩ 6) :=
  ((@observe_after_iff ⟨5, logicalCap⟩ ⟨8, 2⟩ (Nat.le_refl _) (by decide +kernel) 6).mpr
    (by decide +kernel)).1

/-- A full local counter at the merged reading is set back to zero there. -/
theorem observe_at_cap : ¬ (Hlc.mk 5 logicalCap).Before (observe ⟨5, logicalCap⟩ ⟨3, 0⟩ 4) := by
  decide +kernel

end Hlc
end LionFS.Cluster
