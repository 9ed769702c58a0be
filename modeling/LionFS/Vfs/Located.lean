import LionFS.Vfs.Commit

/-!
# Where written bytes are

A written byte is always in the cache, with a flusher that holds a gate, in a live
transaction, or in the journal; a waiting `fsync` names transactions that cover the bytes
written before it. This module states that as an invariant and says what a step of
one thread must keep for the other threads to stay in order.
-/
namespace LionFS.Vfs
namespace Core

/-- A transaction is live: `tx_live`. -/
def Pending (core : Core) (group : Group) : Prop :=
  core.active = some group ∨ group ∈ core.committing

/-- The ids of the live transactions, the active one last. -/
def ids (core : Core) : List Nat := (core.committing ++ core.active.toList).map Group.id

/-- A byte is in a transaction whose journal record is synced. -/
def Journaled (core : Core) (write : Nat) : Prop :=
  ∃ group ∈ core.applied ++ core.held, write ∈ group.writes

/-- A byte is in a live transaction, or journaled. -/
def Settled (core : Core) (write : Nat) : Prop :=
  core.Journaled write ∨ ∃ group, core.Pending group ∧ write ∈ group.writes

/-- A byte is journaled, or some of the given transactions is live and not older than the
transaction that has the byte. -/
def Awaited (core : Core) (ids : List Nat) (write : Nat) : Prop :=
  core.Journaled write ∨ ∃ group, core.Pending group ∧ write ∈ group.writes ∧
    ∃ later, core.Pending later ∧ later.id ∈ ids ∧ group.id ≤ later.id

end Core

/-- A thread has drained a byte of an inode and not staged it yet. -/
def Phase.Holds (ino write : Nat) : Phase → Prop
  | .staging call writes => call.ino = ino ∧ write ∈ writes
  | .stagingLocked own writes => own = ino ∧ write ∈ writes
  | _ => False

/-- A thread has neither drained bytes nor a group. -/
def Phase.Free (phase : Phase) : Prop :=
  (∀ ino write, ¬ phase.Holds ino write) ∧ ∀ group resume, phase ≠ .writing group resume

/-- What holds of a waiting `fsync` that has still to look at some transactions. -/
structure Waiter.Ok (core : Core) (waiter : Waiter) (check : Check) (left : List Nat) :
    Prop where
  /-- They are among those it waits for. -/
  among : ∀ id ∈ left, id ∈ waiter.ids
  /-- It waits for transactions that began. -/
  begun : ∀ id ∈ waiter.ids, id < core.nextTxId
  /-- They cover its bytes. -/
  covers : ∀ write ∈ waiter.owed, core.Awaited left write
  /-- At the last check there is nothing left to cover. -/
  last : check = .last → ∀ write ∈ waiter.owed, core.Journaled write

variable {core : Core} {left : List Nat}

/-- What holds of a waiter does not depend on its patience, nor on the check but for the last. -/
theorem Waiter.Ok.recheck {waiter : Waiter} {check check' : Check}
    (ok : waiter.Ok core check left) (patience : Nat)
    (last : check' = .last → ∀ write ∈ waiter.owed, core.Journaled write) :
    Waiter.Ok core { waiter with patience := patience } check' left :=
  ⟨ok.among, ok.begun, ok.covers, last⟩

/-- A waiter that failed a check starts over with all its transactions. -/
theorem Waiter.Ok.restart {waiter : Waiter} {check : Check} (ok : waiter.Ok core check left) :
    waiter.Ok core .top waiter.ids := by
  constructor
  · exact fun _ mem => mem
  · exact ok.begun
  · intro write mem
    rcases ok.covers write mem with journaled | ⟨group, pending, inside, later, live, listed, order⟩
    · exact .inl journaled
    · exact .inr ⟨group, pending, inside, later, live, ok.among _ listed, order⟩
  · intro no
    cases no

/-- What holds of a thread that is in `commit_one`. -/
def Resume.Ok (core : Core) (thread : Nat) : Resume → Prop
  | .done => True
  | .unlock ino => core.gate ino = some thread
  | .again waiter => waiter.Ok core .top waiter.ids
  | .giveUp waiter => waiter.Ok core .top waiter.ids

/-- What holds of a thread in each phase. -/
def Phase.Ok (core : Core) (thread : Nat) : Phase → Prop
  | .idle => True
  | .gating call => ∀ write ∈ call.owed, write ∈ core.written call.ino
  | .draining call =>
    core.flushGate call.ino = some thread ∧ ∀ write ∈ call.owed, write ∈ core.written call.ino
  | .listing call ids =>
    core.flushGate call.ino = some thread ∧ core.gate call.ino = some thread ∧
      (∀ id ∈ ids, id < core.nextTxId) ∧ ∀ write ∈ call.owed, core.Settled write
  | .staging call writes =>
    core.flushGate call.ino = some thread ∧
      ∀ write ∈ call.owed, write ∈ writes ∨ core.Settled write
  | .stagingLocked ino _ => core.gate ino = some thread
  | .probing waiter check left => waiter.Ok core check left
  | .probingFrozen waiter check left =>
    waiter.Ok core check left ∧ ∀ id ∈ left.head?, core.active.map Group.id ≠ some id
  | .looking waiter => waiter.Ok core .top waiter.ids
  | .waiting waiter => waiter.Ok core .top waiter.ids
  | .entering resume => resume.Ok core thread
  | .quiescing resume => core.commitIo = some thread ∧ resume.Ok core thread
  | .writing group resume =>
    core.commitIo = some thread ∧ group ∈ core.committing ∧ resume.Ok core thread
  | .returned owed => ∀ write ∈ owed, core.Journaled write

/-- Every byte written to an inode is in its cache, drained by some thread, or settled. -/
def Core.Tracked (core : Core) : Prop :=
  ∀ ino, ∀ write ∈ core.written ino, write ∈ core.cached ino ∨
    (∃ thread, (core.threads thread).Holds ino write) ∨ core.Settled write

/-- What holds in every state of an undisturbed run. -/
structure Core.Invariant (core : Core) : Prop where
  located : core.Tracked
  phases : ∀ thread, (core.threads thread).Ok core thread
  /-- Groups are frozen in the order of their ids, before the active transaction. -/
  ordered : core.ids.Pairwise (· < ·)
  begun : ∀ group, core.Pending group → group.id < core.nextTxId
  /-- A frozen group is being written, or is in the journal. -/
  inFlight : ∀ group ∈ core.committing, group ∈ core.held ∨
    ∃ thread resume, core.threads thread = .writing group resume
  /-- A transaction without dirty blocks has no bytes. -/
  clean : ∀ group, core.active = some group → group.dirty = false → group.writes = []

variable {next : Core} {thread write : Nat} {group : Group}
namespace Core

/-- Nothing is lost on the way: what the other threads rely on. -/
structure Forward (core next : Core) (thread : Nat) : Prop where
  settled : ∀ write, core.Settled write → next.Settled write
  journaled : ∀ write, core.Journaled write → next.Journaled write
  /-- What transactions cover they cover until it is journaled. -/
  awaited : ∀ ids write, core.Awaited ids write → next.Awaited ids write
  written : ∀ ino, ∀ write ∈ core.written ino, write ∈ next.written ino
  gate : ∀ ino other, other ≠ thread → core.gate ino = some other → next.gate ino = some other
  flushGate : ∀ ino other, other ≠ thread → core.flushGate ino = some other →
    next.flushGate ino = some other
  /-- Nor the commit lock, and with it the group being written. -/
  commitIo : ∀ other, other ≠ thread → core.commitIo = some other →
    next.commitIo = some other ∧ ∀ group ∈ core.committing, group ∈ next.committing
  counter : core.nextTxId ≤ next.nextTxId
  /-- A transaction that began earlier does not become the active one again. -/
  active : ∀ id, id < core.nextTxId → core.active.map Group.id ≠ some id →
    next.active.map Group.id ≠ some id
  threads : ∀ other, other ≠ thread → next.threads other = core.threads other

/-- What holds of a waiting `fsync` goes on to hold. -/
theorem Forward.waiter (forward : Forward core next thread) {waiter : Waiter} {check : Check}
    (ok : waiter.Ok core check left) : waiter.Ok next check left := by
  constructor
  · exact ok.among
  · exact fun id mem => Nat.lt_of_lt_of_le (ok.begun id mem) forward.counter
  · exact fun write mem => forward.awaited left write (ok.covers write mem)
  · exact fun last write mem => forward.journaled write (ok.last last write mem)

variable {other : Nat}

/-- And of a thread that will go on after a commit, if it keeps its gate. -/
theorem Forward.resume (forward : Forward core next thread)
    (gate : ∀ ino, core.gate ino = some other → next.gate ino = some other) {resume : Resume}
    (ok : resume.Ok core other) : resume.Ok next other := by
  cases resume with
  | done => trivial
  | unlock ino => exact gate ino ok
  | again waiter => exact forward.waiter ok
  | giveUp waiter => exact forward.waiter ok

theorem Forward.phase (forward : Forward core next thread) (apart : other ≠ thread)
    {phase : Phase} (ok : phase.Ok core other) : phase.Ok next other := by
  have gates : ∀ ino, core.gate ino = some other → next.gate ino = some other := fun ino held =>
    forward.gate ino other apart held
  cases phase with
  | idle => trivial
  | gating call => exact fun write mem => forward.written _ write (ok write mem)
  | draining call =>
    exact ⟨forward.flushGate _ _ apart ok.1,
      fun write mem => forward.written _ write (ok.2 write mem)⟩
  | listing call ids =>
    exact ⟨forward.flushGate _ _ apart ok.1, forward.gate _ _ apart ok.2.1,
      fun id mem => Nat.lt_of_lt_of_le (ok.2.2.1 id mem) forward.counter,
      fun write mem => forward.settled write (ok.2.2.2 write mem)⟩
  | staging call writes =>
    exact ⟨forward.flushGate _ _ apart ok.1,
      fun write mem => (ok.2 write mem).imp_right (forward.settled write)⟩
  | stagingLocked ino writes => exact forward.gate _ _ apart ok
  | probing waiter check left => exact forward.waiter ok
  | probingFrozen waiter check left =>
    refine ⟨forward.waiter ok.1, fun id first => ?_⟩
    have mem : id ∈ left := List.mem_of_head? first
    exact forward.active id (ok.1.begun id (ok.1.among id mem)) (ok.2 id first)
  | looking waiter => exact forward.waiter ok
  | waiting waiter => exact forward.waiter ok
  | entering resume => exact forward.resume gates ok
  | quiescing resume => exact ⟨(forward.commitIo _ apart ok.1).1, forward.resume gates ok.2⟩
  | writing group resume =>
    have kept := forward.commitIo _ apart ok.1
    exact ⟨kept.1, kept.2 group ok.2.1, forward.resume gates ok.2.2⟩
  | returned owed => exact fun write mem => forward.journaled write (ok write mem)

/-- What holds of a thread where it stands. -/
theorem Invariant.ok {phase : Phase} (inv : core.Invariant)
    (stands : core.threads thread = phase) : phase.Ok core thread := by
  rw [← stands]
  exact inv.phases thread

/-- Bytes stay located and threads in order, when the thread that took the step has settled the
bytes it had drained, has those that left a cache, and is in order itself. -/
theorem Invariant.carry {phase : Phase} (inv : core.Invariant)
    (forward : Forward core next thread) (written : next.written = core.written)
    (cached : ∀ ino, ∀ write ∈ core.cached ino, write ∈ next.cached ino ∨ phase.Holds ino write)
    (given : ∀ ino write, (core.threads thread).Holds ino write → next.Settled write)
    (stands : next.threads thread = phase) (ok : phase.Ok next thread) :
    next.Tracked ∧ ∀ other, (next.threads other).Ok next other := by
  constructor
  · intro ino write mem
    rw [written] at mem
    rcases inv.located ino write mem with in_cache | ⟨other, holds⟩ | settled
    · rw [← stands] at cached
      exact (cached ino write in_cache).imp_right fun drained => .inl ⟨thread, drained⟩
    · by_cases same : other = thread
      · subst same
        exact .inr (.inr (given ino write holds))
      · exact .inr (.inl ⟨other, by rwa [forward.threads other same]⟩)
    · exact .inr (.inr (forward.settled write settled))
  · intro other
    by_cases same : other = thread
    · rwa [same, stands]
    · rw [forward.threads other same]
      exact forward.phase same (inv.phases other)

/-- What becomes of the live transactions: each stays live, perhaps with more bytes, or all bytes
in it and in older ones are journaled. -/
structure Carries (core next : Core) : Prop where
  journaled : ∀ write, core.Journaled write → next.Journaled write
  groups : ∀ group, core.Pending group →
    (∃ group', next.Pending group' ∧ group'.id = group.id ∧
      ∀ write ∈ group.writes, write ∈ group'.writes) ∨
    ∀ older, core.Pending older → older.id ≤ group.id → ∀ write ∈ older.writes, next.Journaled write

theorem Carries.settled (carries : Carries core next) (settled : core.Settled write) :
    next.Settled write := by
  rcases settled with journaled | ⟨group, pending, mem⟩
  · exact .inl (carries.journaled write journaled)
  · rcases carries.groups group pending with ⟨group', pending', -, writes⟩ | closed
    · exact .inr ⟨group', pending', writes write mem⟩
    · exact .inl (closed group pending (Nat.le_refl _) write mem)

/-- What is covered stays covered. -/
theorem Carries.awaited (carries : Carries core next) {ids : List Nat}
    (awaited : core.Awaited ids write) : next.Awaited ids write := by
  rcases awaited with journaled | ⟨group, pending, mem, later, live, listed, order⟩
  · exact .inl (carries.journaled write journaled)
  · rcases carries.groups later live with ⟨later', live', same_later, -⟩ | closed
    · rcases carries.groups group pending with ⟨group', pending', same_group, writes⟩ | closed
      · refine .inr ⟨group', pending', writes write mem, later', live', ?_, ?_⟩
        · rwa [same_later]
        · omega
      · exact .inl (closed group pending (Nat.le_refl _) write mem)
    · exact .inl (closed group pending order write mem)

/-- The transactions are as they were. -/
structure SameGroups (core next : Core) : Prop where
  active : next.active = core.active
  committing : next.committing = core.committing
  nextTxId : next.nextTxId = core.nextTxId
  applied : next.applied = core.applied
  held : next.held = core.held

theorem SameGroups.pending (same : SameGroups core next) (group : Group) :
    next.Pending group ↔ core.Pending group := by
  unfold Pending
  rw [same.active, same.committing]

theorem SameGroups.carries (same : SameGroups core next) : Carries core next := by
  constructor
  · intro write journaled
    unfold Journaled
    rwa [same.applied, same.held]
  · intro group pending
    exact .inl ⟨group, (same.pending group).mpr pending, rfl, fun _ mem => mem⟩

/-- A thread changes only its phase and the locks it may change. -/
structure Moves (core next : Core) (thread : Nat) (phase : Phase) : Prop where
  groups : SameGroups core next
  written : next.written = core.written
  cached : next.cached = core.cached
  threads : next.threads = Function.update core.threads thread phase
  gate : ∀ ino other, other ≠ thread → core.gate ino = some other → next.gate ino = some other
  flushGate : ∀ ino other, other ≠ thread → core.flushGate ino = some other →
    next.flushGate ino = some other
  commitIo : ∀ other, other ≠ thread → core.commitIo = some other → next.commitIo = some other

/-- The other threads can rely on all they relied on. -/
theorem Moves.forward {phase : Phase} (moves : Moves core next thread phase) :
    Forward core next thread := by
  constructor
  · exact fun _ => moves.groups.carries.settled
  · exact moves.groups.carries.journaled
  · exact fun _ _ => moves.groups.carries.awaited
  · intro ino write mem
    rwa [moves.written]
  · exact moves.gate
  · exact moves.flushGate
  · intro other apart held
    refine ⟨moves.commitIo other apart held, fun group mem => ?_⟩
    rwa [moves.groups.committing]
  · exact Nat.le_of_eq moves.groups.nextTxId.symm
  · intro id _ inactive
    rwa [moves.groups.active]
  · intro other apart
    rw [moves.threads, Function.update_of_ne apart]

/-- What the invariant says of the transactions stays, when they are as they were and only a thread
without a group moved. -/
theorem Invariant.same_groups (inv : core.Invariant) (same : SameGroups core next)
    (threads : ∀ other, other ≠ thread → next.threads other = core.threads other)
    (unwriting : ∀ group resume, core.threads thread ≠ .writing group resume)
    (located : next.Tracked) (phases : ∀ other, (next.threads other).Ok next other) :
    next.Invariant := by
  constructor
  · exact located
  · exact phases
  · unfold ids
    rw [same.committing, same.active]
    exact inv.ordered
  · intro group pending
    rw [same.nextTxId]
    exact inv.begun group ((same.pending group).mp pending)
  · intro group mem
    rw [same.committing] at mem
    rw [same.held]
    rcases inv.inFlight group mem with synced | ⟨other, resume, writing⟩
    · exact .inl synced
    · have apart : other ≠ thread := by
        rintro rfl
        exact unwriting group resume writing
      exact .inr ⟨other, resume, by rwa [threads other apart]⟩
  · intro group active
    rw [same.active] at active
    exact inv.clean group active

/-- The invariant after a step that only moves a thread: the bytes it had drained are settled, it
had no group in its hands, and its new phase is in order. -/
theorem Invariant.move {phase : Phase} (inv : core.Invariant) (moves : Moves core next thread phase)
    (given : ∀ ino write, (core.threads thread).Holds ino write → core.Settled write)
    (unwriting : ∀ group resume, core.threads thread ≠ .writing group resume)
    (ok : phase.Ok next thread) : next.Invariant := by
  have stands : next.threads thread = phase := by
    rw [moves.threads, Function.update_self]
  obtain ⟨located, phases⟩ := inv.carry moves.forward moves.written
    (fun _ _ mem => .inl (moves.cached ▸ mem))
    (fun ino write holds => moves.forward.settled write (given ino write holds)) stands ok
  exact inv.same_groups moves.groups moves.forward.threads unwriting located phases

theorem Invariant.held_of_quiet (inv : core.Invariant)
    (quiet : ∀ thread group resume, core.threads thread ≠ .writing group resume)
    (mem : group ∈ core.committing) : group ∈ core.held := by
  rcases inv.inFlight group mem with synced | ⟨thread, resume, writing⟩
  · exact synced
  · exact (quiet thread group resume writing).elim

theorem Invariant.writer_unique (inv : core.Invariant) (held : core.commitIo = some thread)
    {resume : Resume} (writing : core.threads other = .writing group resume) : other = thread :=
  Option.some.inj ((inv.ok writing).1.symm.trans held)

theorem journaled_of_held (mem : group ∈ core.held) (inside : write ∈ group.writes) :
    core.Journaled write :=
  ⟨group, List.mem_append_right _ mem, inside⟩

/-- Locks, caches and threads are as they were. -/
structure SameControl (core next : Core) : Prop where
  written : next.written = core.written
  cached : next.cached = core.cached
  gate : next.gate = core.gate
  flushGate : next.flushGate = core.flushGate
  commitIo : next.commitIo = core.commitIo
  threads : next.threads = core.threads

/-- A step that only changes the transactions, and freezes or drops none that is needed. -/
theorem SameControl.forward (same : SameControl core next) (carries : Carries core next)
    (committing : ∀ group ∈ core.committing, group ∈ next.committing)
    (counter : core.nextTxId ≤ next.nextTxId)
    (active : ∀ id, id < core.nextTxId → core.active.map Group.id ≠ some id →
      next.active.map Group.id ≠ some id) (thread : Nat) : Forward core next thread := by
  constructor
  · exact fun _ => carries.settled
  · exact carries.journaled
  · exact fun _ _ => carries.awaited
  · intro ino write mem
    rwa [same.written]
  · intro ino other _ held
    rwa [same.gate]
  · intro ino other _ held
    rwa [same.flushGate]
  · intro other _ held
    rw [same.commitIo]
    exact ⟨held, committing⟩
  · exact counter
  · exact active
  · intro other _
    rw [same.threads]

/-- The bytes stay located, and the threads in order, when only the transactions change. -/
theorem Invariant.located_phases (inv : core.Invariant) (same : SameControl core next)
    (forward : ∀ thread, Forward core next thread) :
    next.Tracked ∧ ∀ thread, (next.threads thread).Ok next thread := by
  constructor
  · intro ino write mem
    rw [same.written] at mem
    rw [same.cached, same.threads]
    exact (inv.located ino write mem).imp_right (Or.imp_right ((forward 0).settled write))
  · intro other
    rw [same.threads]
    exact (forward (other + 1)).phase (by omega) (inv.phases other)

end Core
end LionFS.Vfs
