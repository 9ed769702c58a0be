import Mathlib.Order.Nat

/-!
# Token buckets

`qos::classes::TokenBucket` meters bytes and operations, and is refilled lazily
from the time since the last refill. A refill adds no more than the rate gives for
that time, and a charge takes what it admits. So what is admitted in a window of
time is bounded by the burst and by what the window adds. A refused charge refills
too and drops the fraction of a token it has come to, so calls that are refused
cost as many tokens as the dropped fractions add up to.
-/
namespace LionFS.Qos

/-- What a bucket meters. -/
inductive Resource where
  | bytes
  | ops

/-- The rates per second and the burst caps of a bucket, which stay. -/
structure Limits where
  rate : Resource → Nat
  burst : Resource → Nat

/-- What changes of a bucket. -/
structure TokenBucket where
  tokens : Resource → Nat
  lastRefillNs : Nat

/-- `TokenBucket::new`. -/
def TokenBucket.new (rateBytesPerS rateOpsPerS burstBytes burstOps : Nat) :
    Option (Limits × TokenBucket) :=
  if rateBytesPerS = 0 ∨ rateOpsPerS = 0 then none
  else
    let caps
      | .bytes => max burstBytes 1
      | .ops => max burstOps 1
    some (⟨fun | .bytes => rateBytesPerS | .ops => rateOpsPerS, caps⟩, ⟨caps, 0⟩)

/-- A saturating operation on `u64`. -/
def saturating (value : Nat) : Nat := min value (UInt64.size - 1)

/-- A call of `try_charge`. -/
structure Charge where
  nowNs : Nat
  amount : Resource → Nat

namespace TokenBucket
variable (limits : Limits) (bucket : TokenBucket)

/-- `refill`. -/
def refill (nowNs : Nat) : TokenBucket :=
  if nowNs ≤ bucket.lastRefillNs then bucket
  else
    let elapsedNs := nowNs - bucket.lastRefillNs
    let secs := elapsedNs / 1000000000
    let fracNs := elapsedNs % 1000000000
    let add resource := saturating (saturating (limits.rate resource * secs) +
      saturating (limits.rate resource * fracNs) / 1000000000)
    { tokens := fun resource =>
        min (saturating (bucket.tokens resource + add resource)) (limits.burst resource)
      lastRefillNs := nowNs }

/-- `try_charge`: whether the charge is admitted, and the bucket after it. -/
def tryCharge (charge : Charge) : Bool × TokenBucket :=
  let next := bucket.refill limits charge.nowNs
  if charge.amount .bytes ≤ next.tokens .bytes ∧ charge.amount .ops ≤ next.tokens .ops then
    (true, { next with tokens := fun resource => next.tokens resource - charge.amount resource })
  else (false, next)

/-- The bucket after some calls. -/
def charged (charges : List Charge) : TokenBucket :=
  charges.foldl (fun bucket charge => (bucket.tryCharge limits charge).2) bucket

variable (resource : Resource) (start stop : Nat)

/-- What is admitted while the running maximum of the times, `latest` before the calls, is in
the window. -/
def admitted : TokenBucket → (latest : Nat) → List Charge → Nat
  | _, _, [] => 0
  | bucket, latest, charge :: rest =>
    let now := max latest charge.nowNs
    let (admits, next) := bucket.tryCharge limits charge
    (if start ≤ now ∧ now ≤ stop then if admits then charge.amount resource else 0 else 0) +
      admitted next now rest

/-- What a bucket may still admit in the window. -/
def allowance (bucket : TokenBucket) : Nat :=
  if stop < bucket.lastRefillNs then 0
  else if start ≤ bucket.lastRefillNs then bucket.tokens resource * 1000000000 +
    limits.rate resource * (stop - bucket.lastRefillNs)
  else limits.burst resource * 1000000000 + limits.rate resource * (stop - start)

variable (bucket : TokenBucket)

theorem lastRefillNs_refill (nowNs : Nat) :
    (bucket.refill limits nowNs).lastRefillNs = max bucket.lastRefillNs nowNs := by
  unfold refill
  split_ifs with before
  · exact (max_eq_left before).symm
  · exact (max_eq_right (le_of_not_ge before)).symm

/-- A refill stays within the burst and adds no more than the rate gives. -/
theorem tokens_refill (nowNs : Nat) :
    (bucket.tokens resource ≤ limits.burst resource →
      (bucket.refill limits nowNs).tokens resource ≤ limits.burst resource) ∧
    (bucket.refill limits nowNs).tokens resource * 1000000000 ≤
      bucket.tokens resource * 1000000000 + limits.rate resource *
        ((bucket.refill limits nowNs).lastRefillNs - bucket.lastRefillNs) := by
  unfold refill
  split_ifs
  · exact ⟨id, Nat.le_add_right _ _⟩
  · have gives : limits.rate resource * (nowNs - bucket.lastRefillNs) =
        limits.rate resource * ((nowNs - bucket.lastRefillNs) / 1000000000) * 1000000000 +
          limits.rate resource * ((nowNs - bucket.lastRefillNs) % 1000000000) := by
      rw [Nat.mul_assoc, ← Nat.mul_add, Nat.div_add_mod']
    unfold saturating
    exact ⟨fun _ => Nat.min_le_right _ _, by dsimp only; omega⟩

/-- A charge takes what it admits from the tokens of the refill. -/
theorem tokens_tryCharge (charge : Charge) :
    (bucket.tryCharge limits charge).2.lastRefillNs =
      (bucket.refill limits charge.nowNs).lastRefillNs ∧
    (if (bucket.tryCharge limits charge).1 then charge.amount resource else 0) +
        (bucket.tryCharge limits charge).2.tokens resource =
      (bucket.refill limits charge.nowNs).tokens resource := by
  unfold tryCharge
  dsimp only
  split_ifs with enough
  · refine ⟨rfl, Nat.add_sub_cancel' ?_⟩
    cases resource with
    | bytes => exact enough.1
    | ops => exact enough.2
  · contradiction
  · contradiction
  · exact ⟨rfl, Nat.zero_add _⟩

variable {limits resource start stop bucket}

/-- What a call admits in the window is taken from the allowance. -/
theorem allowance_step {next : TokenBucket} {taken : Nat}
    (forward : bucket.lastRefillNs ≤ next.lastRefillNs)
    (within : taken + next.tokens resource ≤ limits.burst resource)
    (gained : (taken + next.tokens resource) * 1000000000 ≤ bucket.tokens resource * 1000000000 +
      limits.rate resource * (next.lastRefillNs - bucket.lastRefillNs)) :
    (if start ≤ next.lastRefillNs ∧ next.lastRefillNs ≤ stop then taken * 1000000000 else 0) +
        next.allowance limits resource start stop ≤
      bucket.allowance limits resource start stop := by
  have shift : next.lastRefillNs ≤ stop →
      limits.rate resource * (stop - bucket.lastRefillNs) =
        limits.rate resource * (next.lastRefillNs - bucket.lastRefillNs) +
          limits.rate resource * (stop - next.lastRefillNs) := by
    intro inside
    rw [← Nat.mul_add, Nat.add_comm, Nat.sub_add_sub_cancel inside forward]
  have shrink : start ≤ next.lastRefillNs → limits.rate resource * (stop - next.lastRefillNs) ≤
      limits.rate resource * (stop - start) :=
    fun inside => Nat.mul_le_mul_left _ (Nat.sub_le_sub_left inside _)
  unfold allowance
  split_ifs <;> grind

/-- Over any calls the tokens stay within the burst, and no more than the allowance is
admitted. -/
theorem charges_within (charges : List Charge)
    (full : bucket.tokens resource ≤ limits.burst resource) :
    bucket.admitted limits resource start stop bucket.lastRefillNs charges * 1000000000 ≤
      bucket.allowance limits resource start stop ∧
    (bucket.charged limits charges).tokens resource ≤ limits.burst resource := by
  induction charges generalizing bucket with
  | nil => exact ⟨(Nat.zero_mul _).le.trans (Nat.zero_le _), full⟩
  | cons charge rest ih =>
    obtain ⟨within, gained⟩ := bucket.tokens_refill limits resource charge.nowNs
    obtain ⟨last, taken⟩ := bucket.tokens_tryCharge limits resource charge
    rw [← taken, ← last] at gained
    rw [← taken] at within
    rw [lastRefillNs_refill] at last
    obtain ⟨later, capped⟩ := ih ((Nat.le_add_left _ _).trans (within full))
    refine ⟨?_, capped⟩
    unfold admitted
    dsimp only
    rw [← last, Nat.add_mul, apply_ite (· * 1000000000), Nat.zero_mul]
    exact (Nat.add_le_add_left later _).trans
      (allowance_step ((le_max_left _ _).trans_eq last.symm) (within full) gained)

end TokenBucket

/-- In every window of the running maximum of the times a built bucket admits at most its burst
and what its rate gives for the window, and its tokens never exceed the burst. -/
theorem tryCharge_respects_rate {rateBytes rateOps burstBytes burstOps : Nat} {limits : Limits}
    {bucket : TokenBucket}
    (built : TokenBucket.new rateBytes rateOps burstBytes burstOps = some (limits, bucket))
    (charges : List Charge) (resource : Resource) :
    (∀ start stop, bucket.admitted limits resource start stop 0 charges * 1000000000 ≤
      limits.burst resource * 1000000000 + limits.rate resource * (stop - start)) ∧
    (bucket.charged limits charges).tokens resource ≤ limits.burst resource := by
  unfold TokenBucket.new at built
  split_ifs at built
  obtain ⟨rfl, rfl⟩ := Prod.mk.inj (Option.some_inj.mp built)
  refine ⟨fun start stop => ?_, (@TokenBucket.charges_within _ _ 0 0 _ charges le_rfl).2⟩
  refine (@TokenBucket.charges_within _ _ start stop _ charges le_rfl).1.trans ?_
  unfold TokenBucket.allowance
  split_ifs with late early
  · exact Nat.zero_le _
  · rw [Nat.le_zero.mp early]
  · exact le_rfl

/-- Ten bytes and two operations a second, and a second call half a second after the first. -/
theorem tryCharge_respects_rate_halfSecond :
    ∃ limits bucket, TokenBucket.new 10 2 10 2 = some (limits, bucket) ∧
      bucket.admitted limits .bytes 0 500000000 0
        [⟨0, fun _ => 2⟩, ⟨500000000, fun _ => 1⟩] * 1000000000 ≤ 15000000000 :=
  ⟨_, _, rfl, (@tryCharge_respects_rate 10 2 10 2 _ _ rfl _ .bytes).1 _ _⟩

namespace TokenBucket
variable (limits : Limits) (resource : Resource)

/-- What refills at some times drop one after the other, in billionths of a token. -/
def dropped : (last : Nat) → List Nat → Nat
  | _, [] => 0
  | last, now :: rest =>
    limits.rate resource * (now - last) % 1000000000 + dropped (max last now) rest

/-- Every call is refused. -/
def refused : TokenBucket → List Charge → Bool
  | _, [] => true
  | bucket, charge :: rest =>
    !(bucket.tryCharge limits charge).1 && refused (bucket.tryCharge limits charge).2 rest

/-- Two counts differ by at most one token. -/
def Near (first second : Nat) : Prop := first ≤ second + 1 ∧ second ≤ first + 1

/-- After some calls the tokens are those of an undisturbed bucket, up to one. -/
def Harmless (bucket : TokenBucket) (polls : List Charge) (nowNs : Nat) : Prop :=
  ∀ resource, Near (((bucket.charged limits polls).refill limits nowNs).tokens resource)
    ((bucket.refill limits nowNs).tokens resource)

/-- What some calls and a refill drop. -/
def droppedBy (bucket : TokenBucket) (polls : List Charge) (nowNs : Nat) : Nat :=
  dropped limits resource bucket.lastRefillNs (polls.map Charge.nowNs ++ [nowNs])

/-- The calls drop less than two tokens, or what they leave fills the bucket up to one token. -/
def Spares (bucket : TokenBucket) (polls : List Charge) (nowNs : Nat) : Prop :=
  droppedBy limits resource bucket polls nowNs < 2000000000 ∨
    limits.burst resource ≤ bucket.tokens resource + 1 +
      (limits.rate resource * (nowNs - bucket.lastRefillNs) -
        droppedBy limits resource bucket polls nowNs) / 1000000000

variable {limits} {bucket : TokenBucket}
  (words : ∀ resource, limits.burst resource < UInt64.size)
  (rates : ∀ resource, limits.rate resource * 999999999 < UInt64.size)
  (full : ∀ resource, bucket.tokens resource ≤ limits.burst resource)
include words rates full

/-- At a rate that fits in a word a refill adds the whole tokens of the time, up to the burst. -/
theorem tokens_refill_eq (nowNs : Nat) : (bucket.refill limits nowNs).tokens resource =
    min (bucket.tokens resource + limits.rate resource * (nowNs - bucket.lastRefillNs) / 1000000000)
      (limits.burst resource) := by
  have word := words resource
  have within := full resource
  unfold refill
  split_ifs with before
  · rw [Nat.sub_eq_zero_of_le before, Nat.mul_zero, Nat.zero_div]
    omega
  · generalize nowNs - bucket.lastRefillNs = elapsed
    have fraction : limits.rate resource * (elapsed % 1000000000) < UInt64.size :=
      (Nat.mul_le_mul_left _ (by omega)).trans_lt (rates resource)
    have whole : limits.rate resource * elapsed / 1000000000 =
        limits.rate resource * (elapsed / 1000000000) +
          limits.rate resource * (elapsed % 1000000000) / 1000000000 := by
      conv_lhs => rw [← Nat.div_add_mod elapsed 1000000000, Nat.mul_add, Nat.mul_left_comm]
      exact Nat.mul_add_div (by decide) _ _
    unfold saturating
    dsimp only
    omega

/-- Refused calls only refill: what they add and what they drop is what the time gives. -/
theorem tokens_polled {polls : List Charge} (none : refused limits bucket polls) {nowNs : Nat}
    (between : ∀ poll ∈ polls, poll.nowNs ≤ nowNs) :
    ∃ gained, gained * 1000000000 + droppedBy limits resource bucket polls nowNs =
        limits.rate resource * (nowNs - bucket.lastRefillNs) ∧
      ((bucket.charged limits polls).refill limits nowNs).tokens resource =
        min (bucket.tokens resource + gained) (limits.burst resource) := by
  induction polls generalizing bucket with
  | nil => exact ⟨_, Nat.div_add_mod' _ _, tokens_refill_eq resource words rates full nowNs⟩
  | cons poll rest ih =>
    obtain ⟨here, later⟩ := Bool.and_eq_true_iff.mp none
    have only : (bucket.tryCharge limits poll).2 = bucket.refill limits poll.nowNs := by
      unfold tryCharge at here ⊢
      grind
    have refilled resource := tokens_refill_eq resource words rates full poll.nowNs
    obtain ⟨early, others⟩ := List.forall_mem_cons.mp between
    obtain ⟨gained, sum, tokens⟩ :=
      ih (fun resource => only ▸ refilled resource ▸ Nat.min_le_right _ _) later others
    have split := Nat.div_add_mod' (limits.rate resource * (poll.nowNs - bucket.lastRefillNs))
      1000000000
    refine ⟨limits.rate resource * (poll.nowNs - bucket.lastRefillNs) / 1000000000 + gained, ?_, ?_⟩
    · have shift : limits.rate resource * (nowNs - bucket.lastRefillNs) =
          limits.rate resource * (poll.nowNs - bucket.lastRefillNs) +
            limits.rate resource * (nowNs - max bucket.lastRefillNs poll.nowNs) := by
        rw [← Nat.mul_add]
        exact congrArg _ (by omega)
      unfold droppedBy at sum ⊢
      rw [only, lastRefillNs_refill] at sum
      rw [List.map_cons, List.cons_append, dropped, Nat.add_mul, Nat.add_add_add_comm, split, sum,
        shift]
    · change ((charged limits (bucket.tryCharge limits poll).2 rest).refill _ _).tokens _ = _
      rw [tokens, only, refilled]
      omega

omit words rates full

/-- Ten tokens a second. -/
def slow : Limits := ⟨fun _ => 10, fun _ => 10⟩

/-- A bucket without tokens. -/
def drained : TokenBucket := ⟨fun _ => 0, 0⟩

/-- Calls nine hundredths of a second apart. -/
def retries : List Charge := (List.range 11).map fun index => ⟨(index + 1) * 90000000, fun _ => 1⟩

end TokenBucket
end LionFS.Qos
