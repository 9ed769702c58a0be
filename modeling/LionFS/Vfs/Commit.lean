import LionFS.Data.Machine
import Mathlib.Data.List.Basic

/-!
# Writers, flushers and the commit driver

The calls that move written bytes towards the disk, as programs that run side by
side and stop at their lock boundaries: `write`, `flush_ino`, `flush_ino_marked`
and `fsync` of the VFS layer, and `commit_one` with its quiesce, I/O and retire
phases. A written byte is followed as a number: it is in the page cache, in the
hands of a flusher, in the active transaction, or in a frozen group. Several
bytes of one inode that were overwritten while cached count as staged together.
-/
namespace LionFS.Vfs
open Function (update)

/-- A transaction, with the written bytes staged into it. -/
structure Group where
  id : Nat
  /-- The bytes staged into it. -/
  writes : List Nat
  /-- `dirty_blocks` is not empty. -/
  dirty : Bool
deriving DecidableEq

/-- A call of `flush_ino_marked`. -/
structure Flush where
  /-- The inode. -/
  ino : Nat
  /-- The bytes written to the inode before the call. -/
  owed : List Nat
  /-- The call is made by `fsync`, which then waits; the flusher thread does not. -/
  waits : Bool
deriving DecidableEq

/-- A call of `commit_until_covered`. -/
structure Waiter where
  /-- The bytes written to the inode before the `fsync`. -/
  owed : List Nat
  /-- The transactions it waits for. -/
  ids : List Nat
  patience : Nat
deriving DecidableEq

/-- The places where `commit_until_covered` evaluates `covered`. -/
inductive Check where
  /-- At the top of the loop. -/
  | top
  /-- After a self-drive that found nothing. -/
  | second
  /-- After the last self-drive: its value is returned. -/
  | last
deriving DecidableEq

/-- What a thread does after `commit_one`. -/
inductive Resume where
  /-- Nothing: the committer thread, or a call that ignores the commit. -/
  | done
  /-- `flush_ino_locked`: return and release the gate of the inode. -/
  | unlock (ino : Nat)
  /-- `commit_until_covered`: go on after the first self-drive. -/
  | again (waiter : Waiter)
  /-- `commit_until_covered`: go on after the last self-drive. -/
  | giveUp (waiter : Waiter)
deriving DecidableEq

/-- Where a thread stands. -/
inductive Phase where
  /-- In no call. -/
  | idle
  /-- `flush_ino_marked` before it has the flush gate. -/
  | gating (call : Flush)
  /-- It has the flush gate. -/
  | draining (call : Flush)
  /-- It found no pages, has both gates, and `live_txids` has read `committing`. -/
  | listing (call : Flush) (ids : List Nat)
  /-- It has the flush gate and the drained bytes. -/
  | staging (call : Flush) (writes : List Nat)
  /-- `flush_ino_locked`, with the gate and the drained bytes. -/
  | stagingLocked (ino : Nat) (writes : List Nat)
  /-- `covered`, before `tx_live` of the next transaction. -/
  | probing (waiter : Waiter) (check : Check) (left : List Nat)
  /-- `tx_live` has seen that the next transaction is not the active one. -/
  | probingFrozen (waiter : Waiter) (check : Check) (left : List Nat)
  /-- `commit_until_covered` before it looks for a commit in flight. -/
  | looking (waiter : Waiter)
  /-- `commit_until_covered` at its wait. -/
  | waiting (waiter : Waiter)
  /-- `commit_one` before it has `commit_io`. -/
  | entering (resume : Resume)
  /-- It has `commit_io`. -/
  | quiescing (resume : Resume)
  /-- It has quiesced a group. -/
  | writing (group : Group) (resume : Resume)
  /-- `fsync` returned Ok. -/
  | returned (owed : List Nat)
deriving DecidableEq

/-- How `commit_tx` ends. -/
inductive Outcome where
  /-- The group is in the journal and applied. -/
  | applied
  /-- It failed before the journal was synced. -/
  | failedBeforeSync
  /-- It failed after the journal was synced. -/
  | failedAfterSync
deriving DecidableEq

/-- What the threads share, and where each stands. -/
structure Core where
  /-- All bytes written to an inode so far. -/
  written : Nat → List Nat
  /-- The bytes in the page cache of an inode. -/
  cached : Nat → List Nat
  /-- `gate` of an inode: the thread that has it. -/
  gate : Nat → Option Nat
  /-- `flush_gate` of an inode. -/
  flushGate : Nat → Option Nat
  /-- `active_tx`. -/
  active : Option Group
  /-- `committing`, oldest first. -/
  committing : List Group
  /-- `current_tx_id`. -/
  nextTxId : Nat
  commitIo : Option Nat
  /-- The groups whose journal record is synced and which are applied. -/
  applied : List Group
  /-- The groups whose journal record is synced and whose commit then failed; they are never
  written again. -/
  held : List Group
  /-- The group of the newest journal record. -/
  newest : Option Group
  /-- Where each thread stands. -/
  threads : Nat → Phase

namespace Core

/-- A core after mount. -/
def mounted (nextTxId : Nat) : Core where
  written := fun _ => []
  cached := fun _ => []
  gate := fun _ => none
  flushGate := fun _ => none
  active := none
  committing := []
  nextTxId := nextTxId
  commitIo := none
  applied := []
  held := []
  newest := none
  threads := fun _ => .idle

variable (core : Core) (thread : Nat)

/-- A thread comes to a phase. -/
def goto (phase : Phase) : Core :=
  { core with threads := update core.threads thread phase }

/-- The transaction staging runs in: the active one, or a new one. -/
def staging : Group := core.active.getD ⟨core.nextTxId, [], false⟩

/-- `with_stage_ctx_marked`: bytes are staged. -/
def stage (writes : List Nat) (dirties : Bool) : Core :=
  { core with
    active := some { core.staging with
      writes := core.staging.writes ++ writes
      dirty := core.staging.dirty || dirties || !writes.isEmpty }
    nextTxId := if core.active.isNone then core.nextTxId + 1 else core.nextTxId }

/-- `PageCache::store`. -/
def store (ino write : Nat) : Core :=
  { core with
    written := update core.written ino (core.written ino ++ [write])
    cached := update core.cached ino (core.cached ino ++ [write]) }

/-- `drain_runs_and_eof`. -/
def drain (ino : Nat) : Core :=
  { core with cached := update core.cached ino [] }

/-- The gate of an inode is taken or released. -/
def setGate (ino : Nat) (holder : Option Nat) : Core :=
  { core with gate := update core.gate ino holder }

/-- The flush gate of an inode is taken or released. -/
def setFlushGate (ino : Nat) (holder : Option Nat) : Core :=
  { core with flushGate := update core.flushGate ino holder }

/-- `flush_ino_locked` up to the drain, by a thread that may take the gate. -/
def drainLocked (thread ino : Nat) : Core :=
  if core.cached ino = [] then core
  else
    ((core.drain ino).setGate ino (some thread)).goto thread
      (.stagingLocked ino (core.cached ino))

/-- `flush_ino_marked` returned transactions: `fsync` waits for them. -/
def marked (call : Flush) (ids : List Nat) : Core :=
  core.goto thread (if call.waits then .probing ⟨call.owed, ids, 0⟩ .top ids else .idle)

/-- `covered` is false. -/
def uncovered (waiter : Waiter) : Check → Core
  | .top => core.goto thread (.looking waiter)
  | .second => core.goto thread (.waiting waiter)
  | .last => core.goto thread (.returned waiter.owed)

/-- `commit_one` returned; whether it had found something to commit. -/
def resumed (found : Bool) : Resume → Core
  | .done => core.goto thread .idle
  | .unlock ino => (core.setGate ino none).goto thread .idle
  | .again waiter =>
    core.goto thread (.probing waiter (if found then .top else .second) waiter.ids)
  | .giveUp waiter =>
    if found then core.goto thread (.probing { waiter with patience := 0 } .top waiter.ids)
    else core.goto thread (.probing waiter .last waiter.ids)

/-- `quiesce_tx` of `commit_one`. -/
def quiesce (resume : Resume) : Core :=
  match core.active with
  | none => { core with commitIo := none }.resumed thread false resume
  | some group =>
    if group.dirty then
      { core with active := none, committing := core.committing ++ [group] }.goto thread
        (.writing group resume)
    else { core with active := none, commitIo := none }.resumed thread false resume

/-- `commit_one` after the quiesce: the group is retired when its commit returned Ok, else it is
kept. -/
def retire (group : Group) : Outcome → Core
  | .applied =>
    { core with
      committing := core.committing.filter fun other => decide (other.id ≠ group.id)
      commitIo := none
      applied := core.applied ++ [group]
      newest := some group }
  | .failedBeforeSync => { core with commitIo := none }
  | .failedAfterSync =>
    { core with commitIo := none, held := core.held ++ [group], newest := some group }

end Core

/-- The bound on `patience`. -/
def patienceLimit : Nat := 100

/-- What happens next: a call starts, or a thread goes on. -/
inductive Event where
  /-- A cached `write`; the cache may be over its hard limit, then the writer flushes. -/
  | write (thread ino byte : Nat) (full : Bool)
  | flushIno (thread ino : Nat)
  /-- `write_through`, or any other staging; an operation on the name space stages no bytes. -/
  | through (ino : Nat) (writes : List Nat) (dirties : Bool)
  /-- `flush_ino_marked`, by `fsync` or by the flusher. -/
  | flushMarked (thread ino : Nat) (waits : Bool)
  /-- `commit_one` by a thread with nothing else to do. -/
  | commit (thread : Nat)
  /-- The thread takes its next step. -/
  | go (thread : Nat)
  /-- The thread stages what it drained, which may fail; the transaction may have grown to the
  size at which `flush_ino_locked` commits it. -/
  | stage (thread : Nat) (succeeds dirties large : Bool)
  /-- The thread's commit I/O ends. -/
  | finish (thread : Nat) (outcome : Outcome)

variable (core : Core)

/-- The steps of a thread in a call that leave no choice. -/
def proceed (thread : Nat) : Phase → Option Core
  | .gating call =>
    if core.flushGate call.ino = none then
      some ((core.setFlushGate call.ino (some thread)).goto thread (.draining call))
    else none
  | .draining call =>
    if core.gate call.ino = none then
      if core.cached call.ino = [] then
        some ((core.setGate call.ino (some thread)).goto thread
          (.listing call (core.committing.map Group.id)))
      else some ((core.drain call.ino).goto thread (.staging call (core.cached call.ino)))
    else none
  | .listing call ids =>
    some (((core.setGate call.ino none).setFlushGate call.ino none).marked thread call
      (ids ++ core.active.toList.map Group.id))
  | .probing waiter check left =>
    match left with
    | [] => some (core.goto thread (.returned waiter.owed))
    | id :: _ =>
      if core.active.map Group.id = some id then some (core.uncovered thread waiter check)
      else some (core.goto thread (.probingFrozen waiter check left))
  | .probingFrozen waiter check left =>
    match left with
    | [] => none
    | id :: rest =>
      if id ∈ core.committing.map Group.id then some (core.uncovered thread waiter check)
      else some (core.goto thread (.probing waiter check rest))
  | .looking waiter =>
    if core.committing = [] then some (core.goto thread (.entering (.again waiter)))
    else some (core.goto thread (.waiting waiter))
  | .waiting waiter =>
    if waiter.patience < patienceLimit then
      some (core.goto thread
        (.probing { waiter with patience := waiter.patience + 1 } .top waiter.ids))
    else some (core.goto thread (.entering (.giveUp waiter)))
  | .entering resume =>
    if core.commitIo = none then
      some ({ core with commitIo := some thread }.goto thread (.quiescing resume))
    else none
  | .quiescing resume => some (core.quiesce thread resume)
  | .idle | .staging _ _ | .stagingLocked _ _ | .writing _ _ | .returned _ => none

/-- Staging of drained bytes. When it fails they are gone. -/
def stageDrained (thread : Nat) (succeeds dirties large : Bool) : Phase → Option Core
  | .staging call writes =>
    if succeeds then
      some (((core.stage writes dirties).setFlushGate call.ino none).marked thread call
        [core.staging.id])
    else some (((core.stage [] dirties).setFlushGate call.ino none).goto thread .idle)
  | .stagingLocked ino writes =>
    if succeeds then
      if large then some ((core.stage writes dirties).goto thread (.entering (.unlock ino)))
      else some (((core.stage writes dirties).setGate ino none).goto thread .idle)
    else some (((core.stage [] dirties).setGate ino none).goto thread .idle)
  | _ => none

/-- A call can only start in a thread that is in none. -/
def whenIdle (thread : Nat) (next : Core) : Option Core :=
  match core.threads thread with
  | .idle => some next
  | _ => none

/-- One step of the whole. -/
def step : Event → Option Core
  | .write thread ino byte full =>
    if core.gate ino = none then
      whenIdle core thread
        (if full then (core.store ino byte).drainLocked thread ino else core.store ino byte)
    else none
  | .flushIno thread ino =>
    if core.gate ino = none then whenIdle core thread (core.drainLocked thread ino) else none
  | .through ino writes dirties =>
    some { core.stage writes dirties with
      written := update core.written ino (core.written ino ++ writes) }
  | .flushMarked thread ino waits =>
    whenIdle core thread (core.goto thread (.gating ⟨ino, core.written ino, waits⟩))
  | .commit thread => whenIdle core thread (core.goto thread (.entering .done))
  | .go thread => proceed core thread (core.threads thread)
  | .stage thread succeeds dirties large =>
    stageDrained core thread succeeds dirties large (core.threads thread)
  | .finish thread outcome =>
    match core.threads thread with
    | .writing group resume => some ((core.retire group outcome).resumed thread true resume)
    | _ => none

/-- A written byte is in a transaction that is applied, or in that of the newest journal record,
which recovery replays. An older record is replayed only if no superblock was written since with
a later id, no id between them went without a record, and the journal did not come round to it;
this is not followed, and not counted on. -/
def Core.Durable (write : Nat) : Prop :=
  ∃ group ∈ core.applied ++ core.newest.toList, write ∈ group.writes

instance (write : Nat) : Decidable (core.Durable write) :=
  inferInstanceAs (Decidable (∃ group ∈ _, _))

/-- Whenever `fsync` has returned Ok, every byte written before the call is durable. -/
def Core.Synced : Prop :=
  ∀ thread owed, core.threads thread = .returned owed → ∀ write ∈ owed, core.Durable write

/-- The transactions `live_txids` listed, in its two reads, leave out no frozen group with bytes
the call is to cover. -/
def ListsAll : Phase → Prop
  | .listing call ids =>
    ∀ group ∈ core.committing, (∃ write ∈ call.owed, write ∈ group.writes) → group.id ∈ ids
  | _ => True

instance (phase : Phase) : Decidable (ListsAll core phase) := by
  cases phase with
  | listing call ids =>
    exact inferInstanceAs (Decidable (∀ group ∈ _, (∃ write ∈ _, _) → _ ∈ ids))
  | _ => exact .isTrue trivial

/-- Staging succeeds, no commit fails before its journal record is synced, and no group is frozen
between the two reads of `live_txids`. -/
def Undisturbed : Event → Prop
  | .stage _ succeeds _ _ => succeeds = true
  | .finish _ outcome => outcome ≠ .failedBeforeSync
  | .go thread => ListsAll core (core.threads thread)
  | _ => True

instance (event : Event) : Decidable (Undisturbed core event) := by
  cases event with
  | stage _ succeeds _ _ => exact inferInstanceAs (Decidable (succeeds = true))
  | finish _ outcome => exact inferInstanceAs (Decidable (outcome ≠ .failedBeforeSync))
  | go thread => exact inferInstanceAs (Decidable (ListsAll core (core.threads thread)))
  | _ => exact .isTrue trivial

/-- No group is held whose commit failed behind its journal record, or `commit_one` finds nothing
to freeze. -/
def LastCommit : Phase → Prop
  | .quiescing _ => core.held = [] ∨ core.active = none
  | .writing _ _ => core.held = []
  | _ => True

instance (phase : Phase) : Decidable (LastCommit core phase) := by
  cases phase with
  | quiescing _ => exact inferInstanceAs (Decidable (_ ∨ _))
  | writing _ _ => exact inferInstanceAs (Decidable (_ = _))
  | _ => exact .isTrue trivial

/-- No commit starts or ends after one that failed behind its journal record. -/
def Unbroken : Event → Prop
  | .finish thread _ | .go thread => LastCommit core (core.threads thread)
  | _ => True

instance (event : Event) : Decidable (Unbroken core event) := by
  cases event with
  | finish thread _ | go thread =>
    exact inferInstanceAs (Decidable (LastCommit core (core.threads thread)))
  | _ => exact .isTrue trivial

end LionFS.Vfs
