import LionFS.Vfs.Group
import Mathlib.Data.List.Nodup

/-!
# What fsync promises

An `fsync` waits for few transactions: the one it staged into, or those that were
live when it found nothing to stage. That this is enough rests on the flush gate,
under which nobody else has drained bytes of the inode, and on the order of commits.
It fails when a commit fails: the group is kept and never written again, and `fsync`
drops the answer of `commit_until_covered`. If the journal record of the group was
synced, the bytes are durable until the next commit, which recovery may then replay
without it.
-/
namespace LionFS.Vfs
open List Option Machine
open Function (update_self update_of_ne update_apply update forall_update_iff)
variable {phase : Phase}
namespace Core
section Threads
variable {core : Core} {thread : Nat} {ino : Nat} {next : Core} {call : Flush}

/-- With the flush gate held and the gate free, no thread has drained bytes of the inode. -/
theorem Invariant.undrained (inv : core.Invariant)
    (draining : core.threads thread = .draining call) (gate : core.gate call.ino = none)
    (other write : Nat) : ¬ (core.threads other).Holds call.ino write := by
  intro holds
  have own := inv.ok draining
  have ok := inv.phases other
  cases stands : core.threads other with
  | staging call' writes =>
    rw [stands] at ok holds
    have held : core.flushGate call.ino = some other := holds.1 ▸ ok.1
    have same : other = thread := some.inj (held.symm.trans own.1)
    rw [same, draining] at stands
    cases stands
  | stagingLocked ino writes =>
    rw [stands] at ok holds
    have held : core.gate call.ino = some other := holds.1 ▸ ok
    rw [gate] at held
    cases held
  | _ =>
    rw [stands] at holds
    exact holds

variable {write : Nat}

/-- The bytes an `fsync` is to cover, when it comes to drain: cached or settled. -/
theorem Invariant.owed_cached (inv : core.Invariant)
    (draining : core.threads thread = .draining call) (gate : core.gate call.ino = none)
    (mem : write ∈ call.owed) : write ∈ core.cached call.ino ∨ core.Settled write := by
  have ok := inv.ok draining
  rcases inv.located call.ino write (ok.2 write mem) with cached | ⟨other, holds⟩ | settled
  · exact .inl cached
  · exact (inv.undrained draining gate other write holds).elim
  · exact .inr settled

/-- The pages of an inode are drained by a thread that keeps them. -/
theorem Invariant.drain (inv : core.Invariant) (free : (core.threads thread).Free)
    (moves : Moves (core.drain ino) next thread phase)
    (holds : ∀ write ∈ core.cached ino, phase.Holds ino write) (ok : phase.Ok next thread) :
    next.Invariant := by
  have forward : Forward core next thread := { moves.forward with }
  have stands : next.threads thread = phase := by
    rw [moves.threads, update_self]
  have cached : ∀ key, ∀ write ∈ core.cached key,
      write ∈ next.cached key ∨ phase.Holds key write := by
    intro key write mem
    by_cases same : key = ino
    · subst same
      exact .inr (holds write mem)
    · left
      rw [moves.cached]
      have kept : (core.drain ino).cached key = core.cached key := update_of_ne same _ _
      rwa [kept]
  obtain ⟨located, phases⟩ := inv.carry forward moves.written cached
    (fun key write held => (free.1 key write held).elim) stands ok
  exact inv.same_groups { moves.groups with } forward.threads free.2 located phases

variable {waiter : Waiter} {left : List Nat} {check : Check}

/-- A failed check sends a waiter on, or back to its caller. -/
theorem Invariant.uncovered (inv : core.Invariant) (free : (core.threads thread).Free)
    (ok : waiter.Ok core check left) : (core.uncovered thread waiter check).Invariant := by
  have moves := moves_goto core thread
  cases check with
  | top =>
    exact inv.step_free free (moves (.looking waiter)) ((moves _).forward.waiter ok.restart)
  | second =>
    exact inv.step_free free (moves (.waiting waiter)) ((moves _).forward.waiter ok.restart)
  | last =>
    refine inv.step_free free (moves (.returned waiter.owed)) fun write mem => ?_
    exact (moves _).forward.journaled write (ok.last rfl write mem)

variable {ids : List Nat}

theorem Invariant.marked (inv : core.Invariant)
    (given : ∀ ino write, (core.threads thread).Holds ino write → core.Settled write)
    (unwriting : ∀ group resume, core.threads thread ≠ .writing group resume)
    (moves : ∀ phase, Moves core (next.goto thread phase) thread phase)
    (begun : ∀ id ∈ ids, id < core.nextTxId)
    (covers : ∀ write ∈ call.owed, core.Awaited ids write) :
    (next.marked thread call ids).Invariant := by
  unfold Core.marked
  split_ifs
  · have ok : Waiter.Ok core ⟨call.owed, ids, 0⟩ .top ids := by
      refine ⟨fun _ mem => mem, begun, covers, fun no => ?_⟩
      cases no
    exact inv.move (moves _) given unwriting ((moves _).forward.waiter ok)
  · exact inv.move (moves .idle) given unwriting trivial

/-- The bytes a call with no pages is to cover are covered by what `live_txids` lists. -/
theorem awaited_of_listed (mem : write ∈ call.owed) (settled : core.Settled write)
    (listed : ∀ group ∈ core.committing, (∃ write ∈ call.owed, write ∈ group.writes) →
      group.id ∈ ids) : core.Awaited (ids ++ core.active.toList.map Group.id) write := by
  rcases settled with journaled | ⟨group, pending, inside⟩
  · exact .inl journaled
  · refine .inr ⟨group, pending, inside, group, pending, ?_, Nat.le_refl _⟩
    rcases pending with active | frozen
    · refine mem_append_right _ ?_
      rw [active]
      exact mem_singleton_self _
    · exact mem_append_left _ (listed group frozen ⟨write, mem, inside⟩)

section
variable (inv : core.Invariant)
include inv

/-- The transaction staging ran in covers what was staged and all that was settled before. -/
theorem Invariant.awaited_of_staged {writes : List Nat} (dirties : Bool)
    (there : write ∈ writes ∨ core.Settled write) :
    (core.stage writes dirties).Awaited [core.staging.id] write := by
  have active := @pending_stage core writes dirties
  rcases there with staged | journaled | ⟨group, pending, mem⟩
  · exact .inr ⟨_, active, mem_append_right _ staged, _, active, mem_singleton_self _,
      Nat.le_refl _⟩
  · exact .inl journaled
  · rcases pending with is_active | frozen
    · have same : core.staging = group := by
        unfold staging
        rw [is_active]
        rfl
      refine .inr ⟨_, active, mem_append_left _ ?_, _, active, mem_singleton_self _, Nat.le_refl _⟩
      rwa [same]
    · refine .inr ⟨group, .inr frozen, mem, _, active, mem_singleton_self _, ?_⟩
      exact Nat.le_of_lt ((inv.stage writes dirties).frozen_lt_active frozen rfl)

theorem Invariant.gating (stands : core.threads thread = .gating call)
    (gate : core.flushGate call.ino = none) :
    ((core.setFlushGate call.ino (some thread)).goto thread (.draining call)).Invariant := by
  have ok := inv.ok stands
  have free := free_of_stands stands trivial
  exact inv.step_free free ⟨⟨rfl, rfl, rfl, rfl, rfl⟩, rfl, rfl, rfl, fun _ _ _ held => held,
    update_lock (some thread) (unheld_of_free gate), fun _ _ held => held⟩ ⟨update_self _ _ _, ok⟩

theorem Invariant.draining (stands : core.threads thread = .draining call)
    (gate : core.gate call.ino = none) : ((core.drain call.ino).goto thread
      (.staging call (core.cached call.ino))).Invariant := by
  have moves := moves_goto (core.drain call.ino) thread (.staging call (core.cached call.ino))
  refine inv.drain (free_of_stands stands trivial) moves (fun _ cached => ⟨rfl, cached⟩)
    ⟨(inv.ok stands).1, ?_⟩
  intro write mem
  exact (inv.owed_cached stands gate mem).imp_right (moves.forward.settled write)

/-- With no pages to drain, the thread goes on to list the live transactions. -/
theorem Invariant.draining_nothing (stands : core.threads thread = .draining call)
    (gate : core.gate call.ino = none) (empty : core.cached call.ino = []) :
    ((core.setGate call.ino (some thread)).goto thread
      (.listing call (core.committing.map Group.id))).Invariant := by
  have moves : ∀ phase, Moves core ((core.setGate call.ino (some thread)).goto thread phase)
      thread phase := fun _ =>
    ⟨⟨rfl, rfl, rfl, rfl, rfl⟩, rfl, rfl, rfl, update_lock (some thread) (unheld_of_free gate),
      fun _ _ _ held => held, fun _ _ held => held⟩
  refine inv.step_free (free_of_stands stands trivial) (moves _)
    ⟨(inv.ok stands).1, update_self _ _ _, ?_, ?_⟩
  · intro id listed
    obtain ⟨group, frozen, rfl⟩ := mem_map.mp listed
    exact inv.begun group (.inr frozen)
  · intro write mem
    rcases inv.owed_cached stands gate mem with cached | settled
    · rw [empty] at cached
      cases cached
    · exact (moves _).forward.settled write settled

/-- A thread that lists the live transactions is done with the inode. -/
theorem Invariant.listing (stands : core.threads thread = .listing call ids)
    (listed : ∀ group ∈ core.committing, (∃ write ∈ call.owed, write ∈ group.writes) →
      group.id ∈ ids) :
    (((core.setGate call.ino none).setFlushGate call.ino none).marked thread call
      (ids ++ core.active.toList.map Group.id)).Invariant := by
  have ok := inv.ok stands
  have free := free_of_stands stands trivial
  have moves : ∀ phase, Moves core
      (((core.setGate call.ino none).setFlushGate call.ino none).goto thread phase) thread phase :=
    fun _ => ⟨⟨rfl, rfl, rfl, rfl, rfl⟩, rfl, rfl, rfl, update_lock none (unheld_of_own ok.2.1),
      update_lock none (unheld_of_own ok.1), fun _ _ held => held⟩
  refine inv.marked (fun ino write holds => (free.1 ino write holds).elim) free.2 moves ?_ ?_
  · intro id mem
    rcases mem_append.mp mem with early | active
    · exact ok.2.2.1 id early
    · obtain ⟨group, is_active, rfl⟩ := mem_map.mp active
      exact inv.begun group (.inl (mem_toList.mp is_active))
  · exact fun write mem => awaited_of_listed mem (ok.2.2.2 write mem) listed

/-- A thread evaluates `tx_live` of the next transaction, its first half. -/
theorem Invariant.probing (stands : core.threads thread = .probing waiter check left)
    (taken : Vfs.proceed core thread (.probing waiter check left) = some next) :
    next.Invariant := by
  have ok := inv.ok stands
  have free := free_of_stands stands trivial
  have moves := moves_goto core thread
  cases left with
  | nil =>
    have same : core.goto thread (.returned waiter.owed) = next := some.inj taken
    rw [← same]
    refine inv.step_free free (moves _) fun write mem => ?_
    rcases ok.covers write mem with journaled | ⟨_, _, _, _, _, no, _⟩
    · exact (moves _).forward.journaled write journaled
    · cases no
  | cons id rest =>
    unfold Vfs.proceed at taken
    dsimp only at taken
    split_ifs at taken with live
    · cases taken
      exact inv.uncovered free ok
    · cases taken
      refine inv.step_free free (moves _) ⟨(moves _).forward.waiter ok, ?_⟩
      intro first is_first
      rwa [← some.inj is_first]

/-- The second half: a transaction that is neither active nor frozen covers nothing. -/
theorem Invariant.probingFrozen (stands : core.threads thread = .probingFrozen waiter check left)
    (taken : Vfs.proceed core thread (.probingFrozen waiter check left) = some next) :
    next.Invariant := by
  have ok := inv.ok stands
  have free := free_of_stands stands trivial
  have moves := moves_goto core thread
  cases left with
  | nil => cases taken
  | cons id rest =>
    unfold Vfs.proceed at taken
    dsimp only at taken
    split_ifs at taken with live
    · cases taken
      exact inv.uncovered free ok.1
    · cases taken
      have rest_ok : waiter.Ok core check rest := by
        refine ⟨forall_mem_of_forall_mem_cons ok.1.among, ok.1.begun,
          fun write mem => ?_, ok.1.last⟩
        rcases ok.1.covers write mem with journaled | ⟨group, pending, inside, later, is_live,
          listed, order⟩
        · exact .inl journaled
        · refine .inr ⟨group, pending, inside, later, is_live, ?_, order⟩
          rcases mem_cons.mp listed with same | in_rest
          · rcases is_live with active | frozen
            · exact (ok.2 id rfl (by rw [active, ← same]; rfl)).elim
            · exact (live (same ▸ mem_map_of_mem frozen)).elim
          · exact in_rest
      exact inv.step_free free (moves _) ((moves _).forward.waiter rest_ok)

theorem Invariant.quiesce {resume : Resume} (stands : core.threads thread = .quiescing resume) :
    (core.quiesce thread resume).Invariant := by
  unfold Core.quiesce
  cases active : core.active with
  | none =>
    have kept := inv.resumed stands false fun _ => active
    rwa [active] at kept
  | some group =>
    dsimp only
    split_ifs with dirty
    · exact inv.freeze stands active
    · have clean : group.dirty = false := Bool.eq_false_iff.mpr dirty
      exact (inv.discard stands active clean).resumed stands false fun _ => rfl

theorem Invariant.proceed (lists : ListsAll core (core.threads thread))
    (taken : Vfs.proceed core thread (core.threads thread) = some next) : next.Invariant := by
  have ok := inv.phases thread
  have moves := moves_goto core thread
  obtain ⟨phase, stands⟩ : ∃ phase, core.threads thread = phase := ⟨_, rfl⟩
  rw [stands] at taken ok lists
  cases phase with
  | idle | staging | stagingLocked | writing | returned => cases taken
  | gating call =>
    simp only [Vfs.proceed] at taken
    split_ifs at taken with gate
    cases taken
    exact inv.gating stands gate
  | draining call =>
    simp only [Vfs.proceed] at taken
    split_ifs at taken with gate empty
    · cases taken
      exact inv.draining_nothing stands gate empty
    · cases taken
      exact inv.draining stands gate
  | listing call ids =>
    cases taken
    exact inv.listing stands lists
  | probing waiter check left => exact inv.probing stands taken
  | probingFrozen waiter check left => exact inv.probingFrozen stands taken
  | quiescing resume =>
    cases taken
    exact inv.quiesce stands
  | looking waiter =>
    have free := free_of_stands stands trivial
    simp only [Vfs.proceed] at taken
    split_ifs at taken
    · cases taken
      exact inv.step_free free (moves (.entering (.again waiter))) ((moves _).forward.waiter ok)
    · cases taken
      exact inv.step_free free (moves (.waiting waiter)) ((moves _).forward.waiter ok)
  | waiting waiter =>
    have free := free_of_stands stands trivial
    simp only [Vfs.proceed] at taken
    split_ifs at taken
    · cases taken
      have patient : Waiter.Ok core { waiter with patience := waiter.patience + 1 } .top
          waiter.ids := ok.recheck (waiter.patience + 1) nofun
      exact inv.step_free free (moves (.probing _ .top waiter.ids))
        ((moves _).forward.waiter patient)
    · cases taken
      exact inv.step_free free (moves (.entering (.giveUp waiter))) ((moves _).forward.waiter ok)
  | entering resume =>
    have free := free_of_stands stands trivial
    simp only [Vfs.proceed] at taken
    split_ifs at taken with unlocked
    cases taken
    have locks : Moves core ({ core with commitIo := some thread }.goto thread (.quiescing resume))
        thread (.quiescing resume) :=
      ⟨⟨rfl, rfl, rfl, rfl, rfl⟩, rfl, rfl, rfl, fun _ _ _ held => held,
        fun _ _ _ held => held, fun other _ held => absurd (unlocked.symm.trans held) nofun⟩
    exact inv.step_free free locks ⟨rfl, locks.forward.resume (fun _ held => held) ok⟩

omit inv in
/-- The bytes of a thread that staged them are settled, and it does not write a group. -/
theorem settled_of_staged {phase : Phase} {writes : List Nat} {dirties : Bool}
    (stands : core.threads thread = phase)
    (mem : ∀ ino write, phase.Holds ino write → write ∈ writes)
    (unwriting : ∀ group resume, phase ≠ .writing group resume) :
    (∀ ino write, ((core.stage writes dirties).threads thread).Holds ino write →
        (core.stage writes dirties).Settled write) ∧
      ∀ group resume, (core.stage writes dirties).threads thread ≠ .writing group resume := by
  have same : (core.stage writes dirties).threads thread = phase := stands
  rw [same]
  exact ⟨fun ino write holds => .inr ⟨_, pending_stage writes dirties,
    mem_append_right _ (mem ino write holds)⟩, unwriting⟩

theorem Invariant.stageDrained {dirties large : Bool}
    (taken : Vfs.stageDrained core thread true dirties large (core.threads thread) = some next) :
    next.Invariant := by
  have ok := inv.phases thread
  cases stands : core.threads thread with
  | staging call writes =>
    rw [stands] at taken ok
    cases taken
    have staged := inv.stage writes dirties
    obtain ⟨settled, unwriting⟩ := @settled_of_staged core thread _ writes dirties stands
      (fun _ _ holds => holds.2) nofun
    have moves : ∀ phase, Moves (core.stage writes dirties)
        (((core.stage writes dirties).setFlushGate call.ino none).goto thread phase) thread phase :=
      fun _ => ⟨⟨rfl, rfl, rfl, rfl, rfl⟩, rfl, rfl, rfl, fun _ _ _ held => held,
        update_lock none (unheld_of_own ok.1), fun _ _ held => held⟩
    refine staged.marked settled unwriting moves ?_ ?_
    · intro id mem
      rw [mem_singleton.mp mem]
      exact staging_id_lt writes dirties inv
    · exact fun write mem => inv.awaited_of_staged dirties (ok.2 write mem)
  | stagingLocked ino writes =>
    rw [stands] at taken ok
    have staged := inv.stage writes dirties
    obtain ⟨settled, unwriting⟩ := @settled_of_staged core thread _ writes dirties stands
      (fun _ _ holds => holds.2) nofun
    unfold Vfs.stageDrained at taken
    dsimp only at taken
    rw [if_pos rfl] at taken
    split_ifs at taken
    · cases taken
      exact staged.move (moves_goto _ thread (.entering (.unlock ino))) settled unwriting ok
    · cases taken
      exact staged.move ⟨⟨rfl, rfl, rfl, rfl, rfl⟩, rfl, rfl, rfl,
        update_lock none (unheld_of_own ok), fun _ _ _ held => held, fun _ _ held => held⟩
        settled unwriting trivial
  | _ =>
    rw [stands] at taken
    cases taken

end

theorem whenIdle_eq {last : Core} (taken : whenIdle core thread next = some last) :
    core.threads thread = .idle ∧ next = last := by
  unfold whenIdle at taken
  cases stands : core.threads thread with
  | idle =>
    rw [stands] at taken
    exact ⟨rfl, some.inj taken⟩
  | _ =>
    rw [stands] at taken
    cases taken

variable (inv : core.Invariant)
include inv

/-- More bytes of an inode are written, which are cached or settled. -/
theorem Invariant.grow {more : List Nat} {cached : Nat → List Nat}
    (kept : ∀ key, ∀ write ∈ core.cached key, write ∈ cached key)
    (there : ∀ write ∈ more, write ∈ cached ino ∨ core.Settled write) : { core with
      written := update core.written ino (core.written ino ++ more)
      cached := cached }.Invariant := by
  have old : ∀ key, ∀ write ∈ core.written key, write ∈ cached key ∨
      (∃ thread, (core.threads thread).Holds key write) ∨ core.Settled write :=
    fun key write mem => (inv.located key write mem).imp_left (kept key write)
  have grown : ∀ key, ∀ write ∈ core.written key,
      write ∈ update core.written ino (core.written ino ++ more) key := by
    exact forall_update_iff _ (fun key held => ∀ write ∈ core.written key, write ∈ held) |>.mpr
      ⟨fun write => mem_append_left _, fun key _ write mem => mem⟩
  refine { inv with located := fun key write mem => ?_, phases := fun other => ?_ }
  · replace mem : write ∈ update core.written ino (core.written ino ++ more) key := mem
    rw [update_apply] at mem
    split_ifs at mem with is_ino
    · subst is_ino
      rcases mem_append.mp mem with before | new
      · exact old key write before
      · exact (there write new).imp_right .inr
    · exact old key write mem
  · have forward : Forward core { core with
        written := update core.written ino (core.written ino ++ more)
        cached := cached } (other + 1) :=
      ⟨fun _ settled => settled, fun _ journaled => journaled, fun _ _ awaited => awaited, grown,
        fun _ _ _ held => held, fun _ _ _ held => held, fun _ _ held => ⟨held, fun _ mem => mem⟩,
        Nat.le_refl _, fun _ _ inactive => inactive, fun _ _ => rfl⟩
    exact forward.phase (by omega) (inv.phases other)

theorem Invariant.store (ino byte : Nat) : (core.store ino byte).Invariant := by
  have kept : ∀ key, ∀ write ∈ core.cached key, write ∈ (core.store ino byte).cached key := by
    exact forall_update_iff _ (fun key held => ∀ write ∈ core.cached key, write ∈ held) |>.mpr
      ⟨fun write => mem_append_left _, fun key _ write mem => mem⟩
  refine inv.grow kept fun write mem => ?_
  left
  show write ∈ update core.cached ino _ ino
  rw [update_self]
  exact mem_append_right _ mem

theorem Invariant.drainLocked (idle : core.threads thread = .idle) (gate : core.gate ino = none) :
    (core.drainLocked thread ino).Invariant := by
  unfold Core.drainLocked
  split_ifs
  · exact inv
  · exact inv.drain (free_of_stands idle trivial) ⟨⟨rfl, rfl, rfl, rfl, rfl⟩, rfl, rfl, rfl,
      update_lock (some thread) (unheld_of_free gate), fun _ _ _ held => held,
      fun _ _ held => held⟩ (fun _ cached => ⟨rfl, cached⟩) (update_self _ _ _)

theorem Invariant.step {event : Event} (undisturbed : Undisturbed core event)
    (taken : Vfs.step core event = some next) : next.Invariant := by
  cases event with
  | write thread ino byte full =>
    unfold Vfs.step at taken
    dsimp only at taken
    split_ifs at taken with gate is_full
    · obtain ⟨idle, rfl⟩ := whenIdle_eq taken
      exact (inv.store ino byte).drainLocked idle gate
    · obtain ⟨-, rfl⟩ := whenIdle_eq taken
      exact inv.store ino byte
  | flushIno thread ino =>
    unfold Vfs.step at taken
    dsimp only at taken
    split_ifs at taken with gate
    obtain ⟨idle, rfl⟩ := whenIdle_eq taken
    exact inv.drainLocked idle gate
  | through ino writes dirties =>
    cases taken
    refine (inv.stage writes dirties).grow (fun _ _ mem => mem) fun write mem => ?_
    exact .inr (.inr ⟨_, pending_stage writes dirties, mem_append_right _ mem⟩)
  | flushMarked thread ino waits =>
    obtain ⟨idle, rfl⟩ := whenIdle_eq taken
    exact inv.step_free (free_of_stands idle trivial) (moves_goto core thread _)
      fun _ mem => mem
  | commit thread =>
    obtain ⟨idle, rfl⟩ := whenIdle_eq taken
    exact inv.step_free (free_of_stands idle trivial) (moves_goto core thread (.entering .done))
      trivial
  | go thread => exact inv.proceed undisturbed taken
  | stage thread succeeds dirties large =>
    have succeeded := undisturbed
    subst succeeded
    exact inv.stageDrained taken
  | finish thread outcome =>
    unfold Vfs.step at taken
    dsimp only at taken
    cases stands : core.threads thread with
    | writing group resume =>
      rw [stands] at taken
      rw [← some.inj taken, resumed_retire]
      have stands' : (core.concluded thread group outcome resume).threads thread =
          .quiescing resume := update_self _ _ _
      refine (inv.concluded stands undisturbed).resumed stands' true fun no => ?_
      cases no
    | _ =>
      rw [stands] at taken
      cases taken

end Threads

theorem invariant_mounted (nextTxId : Nat) : (mounted nextTxId).Invariant := by
  refine ⟨nofun, fun _ => trivial, .nil, ?_, nofun, nofun⟩
  rintro group (active | frozen)
  · cases active
  · cases frozen

end Core

/-- Every byte written to an inode is in its cache, drained by some thread, durable, or in a live
transaction. -/
def Core.Located (core : Core) : Prop :=
  ∀ ino, ∀ write ∈ core.written ino, write ∈ core.cached ino ∨
    (∃ thread, (core.threads thread).Holds ino write) ∨ core.Durable write ∨
      ∃ group, core.Pending group ∧ write ∈ group.writes

section Records
variable {core next : Core} {thread : Nat}

/-- The journal is as it was, and no frozen group is dropped. -/
structure Keeps (core next : Core) : Prop where
  applied : next.applied = core.applied
  held : next.held = core.held
  newest : next.newest = core.newest
  committing : ∀ group ∈ core.committing, group ∈ next.committing

/-- A `commit_one` returns. -/
theorem keeps_resumed (core : Core) (thread : Nat) (found : Bool) (resume : Resume) :
    Keeps core (core.resumed thread found resume) := by
  cases resume <;> cases found <;> exact ⟨rfl, rfl, rfl, fun _ mem => mem⟩

/-- `quiesce_tx` freezes a group and drops none. -/
theorem keeps_quiesce (core : Core) (thread : Nat) (resume : Resume) :
    Keeps core (core.quiesce thread resume) := by
  unfold Core.quiesce
  split
  · exact { keeps_resumed { core with commitIo := none } thread false resume with }
  · split_ifs
    · exact ⟨rfl, rfl, rfl, fun _ mem => mem_append_left _ mem⟩
    · exact { keeps_resumed { core with active := none, commitIo := none } thread false resume
        with }

/-- A failed check sends a waiter on. -/
theorem keeps_uncovered (core : Core) (thread : Nat) (waiter : Waiter) (check : Check) :
    Keeps core (core.uncovered thread waiter check) := by
  cases check <;> exact ⟨rfl, rfl, rfl, fun _ mem => mem⟩

/-- A flush drains and takes the gate, if there is something to drain. -/
theorem keeps_drainLocked (core : Core) (thread ino : Nat) :
    Keeps core (core.drainLocked thread ino) := by
  unfold Core.drainLocked
  split_ifs <;> exact ⟨rfl, rfl, rfl, fun _ mem => mem⟩

/-- A step of a thread in a call writes no journal record. -/
theorem keeps_proceed {phase : Phase} (taken : proceed core thread phase = some next) :
    Keeps core next := by
  unfold proceed at taken
  repeat' split at taken
  all_goals cases taken
  all_goals
    first
    | exact ⟨rfl, rfl, rfl, fun _ mem => mem⟩
    | exact keeps_uncovered core thread _ _
    | exact keeps_quiesce core thread _

/-- A step that ends no commit writes no journal record. -/
theorem keeps_step {event : Event} (taken : step core event = some next)
    (other : ∀ thread outcome, event ≠ .finish thread outcome) : Keeps core next := by
  cases event with
  | write thread ino byte full =>
    unfold Vfs.step at taken
    dsimp only at taken
    split_ifs at taken
    · obtain ⟨-, rfl⟩ := Core.whenIdle_eq taken
      exact { keeps_drainLocked (core.store ino byte) thread ino with }
    · obtain ⟨-, rfl⟩ := Core.whenIdle_eq taken
      exact ⟨rfl, rfl, rfl, fun _ mem => mem⟩
  | flushIno thread ino =>
    unfold Vfs.step at taken
    dsimp only at taken
    split_ifs at taken
    obtain ⟨-, rfl⟩ := Core.whenIdle_eq taken
    exact keeps_drainLocked core thread ino
  | through ino writes dirties =>
    cases taken
    exact ⟨rfl, rfl, rfl, fun _ mem => mem⟩
  | flushMarked thread ino waits =>
    obtain ⟨-, rfl⟩ := Core.whenIdle_eq taken
    exact ⟨rfl, rfl, rfl, fun _ mem => mem⟩
  | commit thread =>
    obtain ⟨-, rfl⟩ := Core.whenIdle_eq taken
    exact ⟨rfl, rfl, rfl, fun _ mem => mem⟩
  | go thread => exact keeps_proceed taken
  | stage thread succeeds dirties large =>
    unfold Vfs.step stageDrained at taken
    dsimp only at taken
    repeat' split at taken
    all_goals cases taken
    all_goals exact ⟨rfl, rfl, rfl, fun _ mem => mem⟩
  | finish thread outcome => exact absurd rfl (other thread outcome)

/-- A step ends a commit, or writes no journal record. -/
theorem step_cases {event : Event} (taken : step core event = some next) :
    (∃ thread outcome group resume, event = .finish thread outcome ∧
        core.threads thread = .writing group resume ∧ Keeps (core.retire group outcome) next) ∨
      Keeps core next := by
  by_cases ends : ∃ thread outcome, event = .finish thread outcome
  · obtain ⟨thread, outcome, rfl⟩ := ends
    unfold Vfs.step at taken
    dsimp only at taken
    split at taken
    case h_1 group resume writing =>
      cases taken
      exact .inl ⟨thread, outcome, group, resume, rfl, writing, keeps_resumed _ _ _ _⟩
    case h_2 => cases taken
  · exact .inr (keeps_step taken fun thread outcome same => ends ⟨thread, outcome, same⟩)

/-- Every held group is frozen or applied. -/
def Core.HeldFrozen (core : Core) : Prop :=
  ∀ group ∈ core.held, group ∈ core.committing ∨ group ∈ core.applied

/-- A held group stays frozen until it is applied. -/
theorem Core.HeldFrozen.step {event : Event} (frozen : core.HeldFrozen) (inv : core.Invariant)
    (taken : Vfs.step core event = some next) : next.HeldFrozen := by
  rcases step_cases taken with ⟨thread, outcome, group, resume, -, writing, keeps⟩ | keeps
  · intro live mem
    rw [keeps.held] at mem
    rw [keeps.applied]
    refine Or.imp_left (keeps.committing live) ?_
    have own := (inv.ok writing).2.1
    cases outcome with
    | applied =>
      rcases frozen live mem with here | done
      · by_cases same : live.id = group.id
        · have distinct : (core.committing ++ core.active.toList).map Group.id |>.Nodup :=
            inv.ordered.imp Nat.ne_of_lt
          rw [inj_on_of_nodup_map distinct (mem_append_left _ here) (mem_append_left _ own) same]
          exact .inr (mem_append_right _ (mem_singleton_self _))
        · exact .inl (mem_filter.mpr ⟨here, decide_eq_true same⟩)
      · exact .inr (mem_append_left _ done)
    | failedBeforeSync => exact frozen live mem
    | failedAfterSync =>
      rcases mem_append.mp mem with before | last
      · exact frozen live before
      · rw [mem_singleton.mp last]
        exact .inl own
  · intro live mem
    rw [keeps.held] at mem
    rw [keeps.applied]
    exact (frozen live mem).imp_left (keeps.committing live)

/-- A held group is that of the newest journal record. -/
def Core.HeldNewest (core : Core) : Prop := ∀ group ∈ core.held, core.newest = some group

/-- It stays so while no commit goes on after one that failed behind its journal record. -/
theorem Core.HeldNewest.step {event : Event} (newest : core.HeldNewest)
    (unbroken : Unbroken core event) (taken : Vfs.step core event = some next) :
    next.HeldNewest := by
  rcases step_cases taken with ⟨thread, outcome, group, resume, rfl, writing, keeps⟩ | keeps
  · have none : core.held = [] := by
      unfold Unbroken at unbroken
      dsimp only at unbroken
      rwa [writing] at unbroken
    intro live mem
    rw [keeps.held] at mem
    rw [keeps.newest]
    cases outcome with
    | applied | failedBeforeSync =>
      rw [Core.retire, none] at mem
      cases mem
    | failedAfterSync =>
      rw [Core.retire, none] at mem
      rw [mem_singleton.mp mem]
      rfl
  · intro live mem
    rw [keeps.held] at mem
    rw [keeps.newest]
    exact newest live mem

end Records

/-- A write, then an `fsync` that stages it and drives the commit itself. -/
def plainFsync : List Event :=
  [.write 0 1 10 false, .flushMarked 3 1 true, .go 3, .go 3, .stage 3 true true false,
    .go 3, .go 3, .go 3, .go 3, .finish 3 .applied, .go 3, .go 3, .go 3]

/-- In every state of such a run a written byte is in the cache of its inode, drained by a thread
that flushes it, in a live transaction, or durable. -/
theorem located_always (nextTxId : Nat) (events : List Event)
    (undisturbed : Machine.Along step Undisturbed events (Core.mounted nextTxId)) :
    Machine.Always step Core.Located events (Core.mounted nextTxId) := by
  have keeps : ∀ core event next, core.Invariant ∧ core.HeldFrozen → Undisturbed core event →
      step core event = some next → next.Invariant ∧ next.HeldFrozen :=
    fun _ _ _ kept allowed taken => ⟨kept.1.step allowed taken, kept.2.step kept.1 taken⟩
  refine Machine.always_of_along keeps ?_
    ⟨Core.invariant_mounted nextTxId, forall_mem_nil _⟩ undisturbed
  rintro core ⟨inv, frozen⟩ ino write mem
  rcases inv.located ino write mem with cached | drained | ⟨group, journaled, inside⟩ | pending
  · exact .inl cached
  · exact .inr (.inl drained)
  · have applied : ∀ group ∈ core.applied, write ∈ group.writes → core.Durable write :=
      fun group mem inside => ⟨group, mem_append_left _ mem, inside⟩
    rcases mem_append.mp journaled with done | held
    · exact .inr (.inr (.inl (applied group done inside)))
    · rcases frozen group held with here | done
      · exact .inr (.inr (.inr ⟨group, .inr here, inside⟩))
      · exact .inr (.inr (.inl (applied group done inside)))
  · exact .inr (.inr (.inr pending))

/-- The bytes of a plain `fsync` in every state. -/
theorem plain_fsync_located : Machine.Always step Core.Located plainFsync (Core.mounted 1) :=
  located_always 1 plainFsync (by decide +kernel)

/-- A write is flushed by the flusher and its group's commit fails before the journal is synced;
a later write to the inode is synced by a commit of its own. -/
def heldGroup : List Event :=
  [.write 0 1 10 false, .flushMarked 1 1 false, .go 1, .go 1, .stage 1 true true false,
    .commit 2, .go 2, .go 2, .finish 2 .failedBeforeSync,
    .write 0 1 11 false, .flushMarked 3 1 true, .go 3, .go 3, .stage 3 true true false,
    .go 3, .go 3, .commit 2, .go 2, .go 2, .finish 2 .applied, .go 3, .go 3, .go 3, .go 3]

end LionFS.Vfs
