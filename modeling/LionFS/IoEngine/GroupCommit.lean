import LionFS.Data.Machine
import Mathlib.Algebra.GroupWithZero.Nat
import Mathlib.Data.List.Nodup

/-!
# Group commit

The batcher of `group_commit.rs`. A caller of `fsync` joins the queue and waits
for an outcome; the flusher closes the queue into a batch, runs the handler
outside the lock and publishes one outcome per member; `stop` drains the queue.
Each event is what one thread does while it holds the lock. A batch may be
closed whenever its window has elapsed or its bytes are enough, which a run
leaves open, and the guard of five seconds does not fire.
-/
namespace LionFS.IoEngine
open LionFS.Machine List

/-- `RollbackReason`. -/
inductive RollbackReason where
  | ioError
  | journalWriteFailed
  | shutdown
  deriving DecidableEq

/-- `BatchOutcome`. -/
inductive BatchOutcome where
  | committed (batchId : Nat)
  | rolledBack (batchId : Nat) (reason : RollbackReason)
  | privateCommitted (batchId : Nat)
  deriving DecidableEq

/-- `Waiting`. -/
structure Waiting where
  txId : Nat
  dirtyBytes : Nat
  deriving DecidableEq

/-- What the handler is given. -/
structure Batch where
  batchId : Nat
  members : List Nat
  totalBytes : Nat

/-- `Inner`, with the batch in the handler, the callers in `fsync`, and what happened so far. -/
structure Batcher where
  queue : List Waiting
  nextBatchId : Nat
  closedBatches : List (Nat × BatchOutcome)
  stopping : Bool
  /-- The batch that the handler is working on. -/
  handling : Option Batch
  /-- The callers that wait for an outcome. -/
  waiting : List Nat
  /-- What `fsync` returned to its callers. -/
  returned : List (Nat × BatchOutcome)
  /-- The batches that the handler is done with, and the reason if it failed. -/
  handled : List (Batch × Option RollbackReason)

namespace Batcher

/-- `GroupCommitBatcher::new`. -/
def new : Batcher where
  queue := []
  nextBatchId := 1
  closedBatches := []
  stopping := false
  handling := none
  waiting := []
  returned := []
  handled := []

variable (batcher : Batcher)

/-- `take_outcome`, with the outcomes that are left. -/
def takeOutcome (txId : Nat) : Option (BatchOutcome × List (Nat × BatchOutcome)) :=
  (batcher.closedBatches.find? fun entry => entry.1 = txId).map fun entry =>
    (entry.2, batcher.closedBatches.eraseP fun entry => entry.1 = txId)

/-- A caller returns. -/
def answer (txId : Nat) (outcome : BatchOutcome) : Batcher :=
  { batcher with
    waiting := batcher.waiting.erase txId
    returned := batcher.returned ++ [(txId, outcome)] }

/-- The body of the loop of `fsync`. -/
def poll (txId : Nat) : Batcher :=
  match batcher.takeOutcome txId with
  | some (outcome, rest) => { batcher with closedBatches := rest }.answer txId outcome
  | none =>
    if batcher.stopping then batcher.answer txId (.rolledBack 0 .shutdown) else batcher

/-- A caller joins the queue. -/
def join (txId dirtyBytes : Nat) : Batcher :=
  { batcher with
    queue := batcher.queue ++ [⟨txId, dirtyBytes⟩]
    waiting := batcher.waiting ++ [txId] }

/-- `fsync` up to its first wait. -/
def fsync (allowPrivate : Bool) (batcher : Batcher) (txId dirtyBytes : Nat)
    (forcePrivate : Bool) : Batcher :=
  if forcePrivate && allowPrivate then
    { batcher with
      nextBatchId := batcher.nextBatchId + 1
      returned := batcher.returned ++ [(txId, .privateCommitted batcher.nextBatchId)] }
  else (batcher.join txId dirtyBytes).poll txId

/-- The queue becomes a batch. -/
def handOver : Batcher :=
  let members := batcher.queue.map Waiting.txId
  { batcher with
    nextBatchId := batcher.nextBatchId + 1
    queue := batcher.queue.filter fun waiting => waiting.txId ∉ members
    handling := some ⟨batcher.nextBatchId, members, (batcher.queue.map Waiting.dirtyBytes).sum⟩ }

/-- `run_flusher` up to the call of the handler. -/
def closeBatch : Option Batcher :=
  if batcher.stopping ∨ batcher.handling.isSome ∨ batcher.queue = [] then none
  else some batcher.handOver

/-- The outcome of a batch. -/
def outcomeOf (batch : Batch) : Option RollbackReason → BatchOutcome
  | none => .committed batch.batchId
  | some reason => .rolledBack batch.batchId reason

/-- How many outcomes are kept. -/
@[irreducible] def maxOutcomes : Nat := 1024

/-- `run_flusher` once the handler returned: the outcomes are published, and old ones trimmed. -/
def publish (batch : Batch) (result : Option RollbackReason) : Batcher :=
  let outcomes := batcher.closedBatches ++ batch.members.map fun id => (id, outcomeOf batch result)
  { batcher with
    closedBatches := outcomes.drop (outcomes.length - maxOutcomes)
    handling := none
    handled := batcher.handled ++ [(batch, result)] }

/-- `stop`. -/
def stop : Batcher :=
  { batcher with
    stopping := true
    queue := []
    closedBatches := batcher.closedBatches ++
      batcher.queue.map fun waiting => (waiting.txId, .rolledBack 0 .shutdown) }

end Batcher

/-- What a thread does under the lock. -/
inductive Event where
  /-- A caller enters `fsync`. -/
  | fsync (txId dirtyBytes : Nat) (forcePrivate : Bool)
  /-- A caller wakes up. -/
  | wake (txId : Nat)
  /-- The flusher closes a batch. -/
  | close
  /-- The handler returned. -/
  | finish (result : Option RollbackReason)
  | stop

variable (batcher : Batcher)

/-- The callers that entered `fsync`. -/
def Batcher.Knows (txId : Nat) : Prop :=
  txId ∈ batcher.waiting ∨ txId ∈ batcher.returned.map Prod.fst

instance (txId : Nat) : Decidable (batcher.Knows txId) := by
  unfold Batcher.Knows
  infer_instance

/-- One step of the batcher and its callers, whose transaction ids are distinct. -/
def step (allowPrivate : Bool) (batcher : Batcher) : Event → Option Batcher
  | .fsync txId dirtyBytes forcePrivate =>
    if batcher.Knows txId then none
    else some (batcher.fsync allowPrivate txId dirtyBytes forcePrivate)
  | .wake txId => if txId ∈ batcher.waiting then some (batcher.poll txId) else none
  | .close => batcher.closeBatch
  | .finish result => batcher.handling.map fun batch => batcher.publish batch result
  | .stop => some batcher.stop

namespace Batcher

/-- The members of the batch in the handler. -/
def inHandler : List Nat := (batcher.handling.map Batch.members).getD []

/-- The transactions that were passed to the handler. -/
def passed : List Nat :=
  batcher.handled.flatMap (fun done => done.1.members) ++ batcher.inHandler

/-- The handler committed a batch with a transaction. -/
def Committed (txId : Nat) : Prop :=
  ∃ batch, (batch, none) ∈ batcher.handled ∧ txId ∈ batch.members

/-- The verdict that an outcome gives on a transaction is right so far. -/
def Confirms (txId : Nat) : BatchOutcome → Prop
  | .rolledBack _ _ => ¬ batcher.Committed txId
  | _ => batcher.Committed txId

/-- What callers were told is true, callers whose batch is closed have an outcome to take, and no
transaction was passed to the handler twice. -/
structure Truthful : Prop where
  verdicts : ∀ entry ∈ batcher.returned, batcher.Confirms entry.1 entry.2
  returns : ∀ txId ∈ batcher.waiting, ∀ done ∈ batcher.handled, txId ∈ done.1.members →
    (batcher.takeOutcome txId).isSome
  once : batcher.passed.Nodup

end Batcher

/-- Nobody takes a private transaction, `stop` is called with no batch in the handler, and the
outcomes of a batch fit beside those that were not taken. -/
def Orderly (allowPrivate : Bool) (batcher : Batcher) : Event → Prop
  | .fsync _ _ forcePrivate => (forcePrivate && allowPrivate) = false
  | .finish _ => batcher.closedBatches.length + batcher.inHandler.length ≤ Batcher.maxOutcomes
  | .stop => batcher.handling = none
  | _ => True

instance (allowPrivate : Bool) (batcher : Batcher) :
    (event : Event) → Decidable (Orderly allowPrivate batcher event)
  | .fsync _ _ _ => inferInstanceAs (Decidable (_ = _))
  | .finish _ => inferInstanceAs (Decidable (_ ≤ _))
  | .stop => decidable_of_iff (batcher.handling.isNone) Option.isNone_iff_eq_none
  | .wake _ | .close => .isTrue trivial

namespace Batcher

/-- The transactions in the queue. -/
def queued : List Nat := batcher.queue.map Waiting.txId

/-- A transaction that is not committed and cannot be any more. -/
def Doomed (txId : Nat) : Prop :=
  ¬ batcher.Committed txId ∧ txId ∉ batcher.inHandler ∧
    (txId ∈ batcher.queued → batcher.stopping = true)

/-- The verdict of an outcome is right and stays right. -/
def Settles (txId : Nat) : BatchOutcome → Prop
  | .rolledBack _ _ => batcher.Doomed txId
  | _ => batcher.Committed txId

/-- The transactions with an outcome to take. -/
def published : List Nat := batcher.closedBatches.map Prod.fst

/-- What holds as long as the steps are orderly. -/
structure Sound : Prop where
  /-- A caller that waits is queued, in the handler, or has an outcome to take. -/
  located : ∀ txId ∈ batcher.waiting,
    txId ∈ batcher.queued ∨ txId ∈ batcher.inHandler ∨ txId ∈ batcher.published
  /-- What is queued, passed to the handler or published belongs to a caller. -/
  known : ∀ txId, txId ∈ batcher.queued ++ batcher.passed ∨ txId ∈ batcher.published →
    batcher.Knows txId
  distinct : batcher.waiting.Nodup
  once : (batcher.queued ++ batcher.passed).Nodup
  settles : ∀ entry ∈ batcher.closedBatches ++ batcher.returned, batcher.Settles entry.1 entry.2
  idle : batcher.stopping = true → batcher.handling = none

variable {batcher next : Batcher} {txId : Nat}

theorem takeOutcome_isSome : (batcher.takeOutcome txId).isSome ↔ txId ∈ batcher.published := by
  simp [takeOutcome, published, find?_isSome]

/-- A transaction that was never passed to the handler can be rolled back. -/
theorem doomed_of_unpassed (unpassed : txId ∉ batcher.passed)
    (late : txId ∈ batcher.queued → batcher.stopping = true) : batcher.Doomed txId := by
  have outside : txId ∉ batcher.inHandler := fun mem =>
    unpassed (mem_append_right _ mem)
  refine ⟨?_, outside, late⟩
  rintro ⟨batch, done, mem⟩
  exact unpassed (mem_append_left _ (mem_flatMap.mpr ⟨_, done, mem⟩))

/-- An outcome stays right when what is committed stays committed and what is doomed doomed. -/
theorem Settles.mono {outcome : BatchOutcome} (settled : batcher.Settles txId outcome)
    (commits : batcher.Committed txId → next.Committed txId)
    (dooms : batcher.Doomed txId → next.Doomed txId) : next.Settles txId outcome := by
  cases outcome with
  | rolledBack => exact dooms settled
  | _ => exact commits settled

theorem Sound.unqueued (sound : batcher.Sound) (passed : txId ∈ batcher.passed) :
    txId ∉ batcher.queued :=
  fun queued => (nodup_append.mp sound.once).2.2 _ queued _ passed rfl

theorem Sound.truthful (sound : batcher.Sound) : batcher.Truthful := by
  have alone := nodup_append.mp (nodup_append.mp sound.once).2.1
  constructor
  · intro entry mem
    have settled := sound.settles entry (mem_append_right _ mem)
    cases outcome : entry.2 <;> rw [outcome] at settled
    · exact settled
    · exact settled.1
    · exact settled
  · intro txId waits done mem inside
    have passed : txId ∈ batcher.handled.flatMap (fun done => done.1.members) :=
      mem_flatMap.mpr ⟨done, mem, inside⟩
    have unqueued := sound.unqueued (mem_append_left _ passed)
    have outside : txId ∉ batcher.inHandler := fun handled => alone.2.2 _ passed _ handled rfl
    have place := sound.located txId waits
    exact takeOutcome_isSome.mpr (by tauto)
  · exact (nodup_append.mp sound.once).2.1

theorem sound_new : new.Sound := by
  constructor <;> simp [new, queued, passed, inHandler, published]

section
variable (sound : batcher.Sound)
include sound

/-- A caller is told an outcome that stays right. -/
theorem Sound.answer {rest : List (Nat × BatchOutcome)} (fewer : rest.Sublist batcher.closedBatches)
    (left : ∀ other, other ≠ txId → other ∈ batcher.published → other ∈ rest.map Prod.fst)
    {outcome : BatchOutcome} (right : batcher.Settles txId outcome) :
    ({ batcher with closedBatches := rest }.answer txId outcome).Sound := by
  constructor
  · intro other waits
    have both := sound.distinct.mem_erase_iff.mp waits
    exact (sound.located other both.2).imp_right (Or.imp_right (left other both.1))
  · intro other place
    have knows := sound.known other (place.imp_right fun taken => (fewer.map Prod.fst).subset taken)
    by_cases same : other = txId
    · exact Or.inr (by simp [Batcher.answer, same])
    · exact knows.imp (mem_erase_of_ne same).mpr fun told => by
        simp only [Batcher.answer, map_append]
        exact mem_append_left _ told
  · exact sound.distinct.erase _
  · exact sound.once
  · intro entry mem
    have places : entry ∈ rest ∨ entry ∈ batcher.returned ∨ entry = (txId, outcome) := by
      simpa [Batcher.answer] using mem
    rcases places with published | returned | same
    · exact sound.settles entry (mem_append_left _ (fewer.subset published))
    · exact sound.settles entry (mem_append_right _ returned)
    · exact same ▸ right
  · exact sound.idle

theorem Sound.poll (waits : txId ∈ batcher.waiting) : (batcher.poll txId).Sound := by
  unfold Batcher.poll Batcher.takeOutcome
  cases found : batcher.closedBatches.find? (fun entry => entry.1 = txId) with
  | some entry =>
    have own : entry.1 = txId := by simpa using find?_some found
    have settled := sound.settles entry (mem_append_left _ (mem_of_find?_eq_some found))
    apply sound.answer eraseP_sublist _ (own ▸ settled)
    intro other apart published
    obtain ⟨kept, mem, same⟩ := mem_map.mp published
    rw [← same] at apart
    exact mem_map.mpr ⟨kept, (mem_eraseP_of_neg (by simpa using apart)).mpr mem, same⟩
  | none =>
    dsimp only [Option.map_none]
    split_ifs with stopping
    · have unpublished : txId ∉ batcher.published := by
        rw [← takeOutcome_isSome, takeOutcome, found]
        simp
      have outside : txId ∉ batcher.inHandler := by simp [inHandler, sound.idle stopping]
      have queued := (sound.located txId waits).resolve_right fun later =>
        later.elim outside unpublished
      have unpassed : txId ∉ batcher.passed := fun passed => sound.unqueued passed queued
      exact sound.answer (List.Sublist.refl _) (fun _ _ published => published)
        (doomed_of_unpassed unpassed fun _ => stopping)
    · exact sound

theorem Sound.join (fresh : ¬ batcher.Knows txId) (dirtyBytes : Nat) :
    (batcher.join txId dirtyBytes).Sound := by
  have queued : (batcher.join txId dirtyBytes).queued = batcher.queued ++ [txId] := by
    simp [Batcher.join, Batcher.queued]
  have new : txId ∉ batcher.queued ++ batcher.passed := fun old => fresh (sound.known _ (.inl old))
  have again : (batcher.queued ++ [txId] ++ batcher.passed).Perm
      (txId :: (batcher.queued ++ batcher.passed)) := by simp
  constructor
  · intro other waits
    rw [queued]
    cases mem_append.mp waits with
    | inl old => exact (sound.located other old).imp_left (mem_append_left _)
    | inr own => exact Or.inl (mem_append_right _ own)
  · intro other place
    rw [queued] at place
    by_cases same : other = txId
    · exact Or.inl (by simp [Batcher.join, same])
    · have old := place.imp_left fun inside => mem_of_ne_of_mem same (again.mem_iff.mp inside)
      exact (sound.known other old).imp_left (mem_append_left _)
  · exact nodup_append.mpr ⟨sound.distinct, nodup_singleton _, fun other waits _ own same =>
      fresh (.inl (mem_singleton.mp own ▸ same ▸ waits))⟩
  · rw [queued]
    exact again.nodup_iff.mpr (nodup_cons.mpr ⟨new, sound.once⟩)
  · intro entry mem
    have apart : entry.1 ≠ txId := by
      intro same
      apply fresh
      rw [← same]
      cases mem_append.mp mem with
      | inl published => exact sound.known _ (.inr (mem_map_of_mem published))
      | inr returned => exact Or.inr (mem_map_of_mem returned)
    apply (sound.settles entry mem).mono
    · exact id
    · intro doomed
      exact ⟨doomed.1, doomed.2.1, fun inside => doomed.2.2 (by simpa [queued, apart] using inside)⟩
  · exact sound.idle

theorem Sound.handOver (running : batcher.stopping = false) (free : batcher.handling = none) :
    batcher.handOver.Sound := by
  have none_there : batcher.inHandler = [] := by simp [inHandler, free]
  have handler : batcher.handOver.inHandler = batcher.queued := rfl
  have emptied : batcher.handOver.queued = [] := by
    have all : ∀ waiting ∈ batcher.queue, waiting.txId ∈ batcher.queue.map Waiting.txId :=
      fun _ => mem_map_of_mem
    simpa [queued, Batcher.handOver] using all
  have again : (batcher.handOver.queued ++ batcher.handOver.passed).Perm
      (batcher.queued ++ batcher.passed) := by
    have passed : batcher.handOver.passed = batcher.passed ++ batcher.queued := by
      unfold Batcher.passed
      rw [none_there, handler, append_nil]
      rfl
    rw [emptied, passed, nil_append]
    exact perm_append_comm
  constructor
  · intro other waits
    have place := sound.located other waits
    rw [none_there] at place
    rw [handler]
    exact place.elim (fun queued => .inr (.inl queued))
      fun later => .inr (.inr (later.resolve_left not_mem_nil))
  · intro other place
    rw [again.mem_iff] at place
    exact sound.known other place
  · exact sound.distinct
  · exact again.nodup_iff.mpr sound.once
  · intro entry mem
    apply (sound.settles entry mem).mono
    · exact id
    · intro doomed
      have unqueued : entry.1 ∉ batcher.queued := fun inside => by
        simpa [running] using doomed.2.2 inside
      exact ⟨doomed.1, handler ▸ unqueued, by simp [emptied]⟩
  · intro stopped
    exact absurd (running.symm.trans stopped) (by decide)

theorem Sound.publish {batch : Batch} (own : batcher.handling = some batch)
    (fits : batcher.closedBatches.length + batcher.inHandler.length ≤ maxOutcomes)
    (result : Option RollbackReason) : (batcher.publish batch result).Sound := by
  have handler : batcher.inHandler = batch.members := by simp [inHandler, own]
  have closed : (batcher.publish batch result).closedBatches =
      batcher.closedBatches ++ batch.members.map fun id => (id, outcomeOf batch result) := by
    rw [handler] at fits
    simp only [Batcher.publish, length_append, length_map]
    rw [Nat.sub_eq_zero_of_le fits, drop_zero]
  have published : (batcher.publish batch result).published =
      batcher.published ++ batcher.inHandler := by
    unfold Batcher.published
    rw [closed, handler, map_append, map_map]
    exact congrArg _ (map_id _)
  have passed : (batcher.publish batch result).passed = batcher.passed := by
    simp [Batcher.passed, Batcher.publish, inHandler, own]
  have commits : ∀ other, (batcher.publish batch result).Committed other ↔
      batcher.Committed other ∨ result = none ∧ other ∈ batcher.inHandler := by
    intro other
    simp only [Committed, Batcher.publish, handler, mem_append, mem_singleton, Prod.mk.injEq]
    grind
  constructor
  · intro other waits
    rw [published, mem_append]
    have place := sound.located other waits
    exact place.imp_right fun later => .inr later.symm
  · intro other place
    rw [passed, published] at place
    apply sound.known other
    rcases place.imp_right mem_append.mp with old | taken | inside
    · exact .inl old
    · exact .inr taken
    · exact .inl (mem_append_right _ (mem_append_right _ inside))
  · exact sound.distinct
  · rw [passed]
    exact sound.once
  · intro entry mem
    have places : entry ∈ batcher.closedBatches ++ batcher.returned ∨
        ∃ id ∈ batcher.inHandler, (id, outcomeOf batch result) = entry := by
      rw [closed] at mem
      simp only [Batcher.publish, handler, mem_append, mem_map] at mem ⊢
      tauto
    cases places with
    | inl old =>
      apply (sound.settles entry old).mono
      · exact fun committed => (commits _).mpr (.inl committed)
      · intro doomed
        refine ⟨fun committed => ?_, not_mem_nil, doomed.2.2⟩
        exact ((commits _).mp committed).elim doomed.1 fun new => doomed.2.1 new.2
    | inr new =>
      obtain ⟨id, inside, same⟩ := new
      rw [← same]
      cases result with
      | none => exact (commits id).mpr (.inr ⟨rfl, inside⟩)
      | some reason =>
        have alone := nodup_append.mp (nodup_append.mp sound.once).2.1
        refine ⟨fun committed => ?_, not_mem_nil, fun queued => ?_⟩
        · obtain ⟨done, old, mem⟩ := ((commits id).mp committed).resolve_right (by simp)
          exact alone.2.2 id (mem_flatMap.mpr ⟨_, old, mem⟩) id inside rfl
        · exact absurd queued (sound.unqueued (mem_append_right _ inside))
  · exact fun _ => rfl

theorem Sound.stop (free : batcher.handling = none) : batcher.stop.Sound := by
  have published : batcher.stop.published = batcher.published ++ batcher.queued := by
    simp [Batcher.stop, Batcher.published, queued]
  constructor
  · intro other waits
    rw [published, mem_append]
    have place := sound.located other waits
    tauto
  · intro other place
    rw [published] at place
    apply sound.known other
    rcases place.imp_right mem_append.mp with passed | taken | queued
    · exact .inl (mem_append_right _ passed)
    · exact .inr taken
    · exact .inl (mem_append_left _ queued)
  · exact sound.distinct
  · exact (nodup_append.mp sound.once).2.1
  · intro entry mem
    have places : entry ∈ batcher.closedBatches ++ batcher.returned ∨
        ∃ waiting ∈ batcher.queue, (waiting.txId, .rolledBack 0 .shutdown) = entry := by
      simp only [Batcher.stop, mem_append, mem_map] at mem ⊢
      tauto
    cases places with
    | inl old =>
      apply (sound.settles entry old).mono
      · exact id
      · exact fun doomed => ⟨doomed.1, doomed.2.1, fun _ => rfl⟩
    | inr new =>
      obtain ⟨waiting, inside, same⟩ := new
      rw [← same]
      exact doomed_of_unpassed
        (fun passed => sound.unqueued passed (mem_map_of_mem inside)) fun _ => rfl
  · exact fun _ => free

end
end Batcher

variable {allowPrivate : Bool}

theorem sound_step (batcher : Batcher) (event : Event) (next : Batcher) (sound : batcher.Sound)
    (orderly : Orderly allowPrivate batcher event)
    (taken : step allowPrivate batcher event = some next) : next.Sound := by
  cases event with
  | fsync txId dirtyBytes forcePrivate =>
    simp only [step] at taken
    split_ifs at taken with knows
    have shared := orderly
    rw [← Option.some.inj taken, Batcher.fsync, shared, if_neg (by decide)]
    exact (sound.join knows dirtyBytes).poll (by simp [Batcher.join])
  | wake txId =>
    simp only [step] at taken
    split_ifs at taken with waits
    cases taken
    exact sound.poll waits
  | close =>
    simp only [step, Batcher.closeBatch] at taken
    split_ifs at taken with refused
    simp only [not_or] at refused
    cases taken
    exact sound.handOver (by simpa using refused.1) (by simpa using refused.2.1)
  | finish result =>
    obtain ⟨batch, own, same⟩ := Option.map_eq_some_iff.mp taken
    rw [← same]
    exact sound.publish own orderly result
  | stop =>
    cases taken
    exact sound.stop orderly

/-- Verdicts are truthful in every run without private transactions in which no `stop` meets a
batch in the handler and no outcome is trimmed. -/
theorem verdicts_truthful {events : List Event}
    (orderly : Along (step allowPrivate) (Orderly allowPrivate) events .new) :
    Always (step allowPrivate) Batcher.Truthful events .new :=
  always_of_along sound_step (fun _ => Batcher.Sound.truthful) Batcher.sound_new orderly

/-- A caller whose batch commits, one whose batch fails, and a `stop` with callers around. -/
def orderlyEvents : List Event :=
  [.fsync 1 10 false, .fsync 2 20 false, .close, .fsync 3 5 false, .finish none, .wake 1, .close,
    .finish (some .ioError), .wake 3, .fsync 4 1 false, .stop, .wake 2, .wake 4, .fsync 5 1 false]

/-- Verdicts of a run that ends with `stop`. -/
theorem verdicts_truthful_stopped :
    (run (step true) orderlyEvents .new).isSome ∧
      Always (step true) Batcher.Truthful orderlyEvents .new :=
  ⟨by decide +kernel, verdicts_truthful (by decide +kernel)⟩

/-- In such a run no waiting caller is forgotten, no transaction is queued or passed to the handler
twice, and a verdict that was published stays right. -/
theorem sound_always {events : List Event}
    (orderly : Along (step allowPrivate) (Orderly allowPrivate) events .new) :
    Always (step allowPrivate) Batcher.Sound events .new :=
  always_of_along sound_step (fun _ sound => sound) Batcher.sound_new orderly

/-- The states of such a run. -/
theorem sound_stopped : Always (step true) Batcher.Sound orderlyEvents .new :=
  sound_always (by decide +kernel)

/-- `stop` meets a batch in the handler: its member is told that it was rolled back, and then the
handler commits. -/
def stoppedEvents : List Event := [.fsync 1 10 false, .close, .stop, .wake 1, .finish none]

/-- The batcher after these events. -/
def stoppedBatcher : Batcher := reach (step true) stoppedEvents .new

/-- A caller is told that its committed transaction was rolled back. -/
theorem committed_told_rolled_back : ¬ ∀ allowPrivate events last,
    run (step allowPrivate) events .new = some last → last.Truthful := by
  intro truthful
  have last := truthful true stoppedEvents stoppedBatcher (run_eq_reach (by decide +kernel))
  have told := last.verdicts (1, .rolledBack 0 .shutdown) (by decide +kernel)
  exact told ⟨⟨1, [1], 10⟩, mem_singleton.mpr rfl, mem_singleton.mpr rfl⟩

end LionFS.IoEngine
