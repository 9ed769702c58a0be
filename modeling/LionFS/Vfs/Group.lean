import LionFS.Vfs.Located

/-!
# The life of a transaction

Bytes are staged into the active transaction, the active transaction is frozen
under the commit lock, and the frozen group is written and retired. Each of these
keeps the invariant: groups are written one at a time and in the order of their
ids, so what covers a byte covers it until it is journaled.
-/
namespace LionFS.Vfs
open List Function
namespace Core
section Threads
variable {core next : Core} {thread ino : Nat} {phase : Phase} {locks : Nat → Option Nat}

theorem moves_goto (core : Core) (thread : Nat) (phase : Phase) :
    Moves core (core.goto thread phase) thread phase :=
  ⟨⟨rfl, rfl, rfl, rfl, rfl⟩, rfl, rfl, rfl, fun _ _ _ held => held, fun _ _ _ held => held,
    fun _ _ held => held⟩

/-- A lock that is free, or that a thread has, is lost by nobody else. -/
theorem update_lock (holder : Option Nat) (own : ∀ other, other ≠ thread → locks ino ≠ some other)
    (key other : Nat) (apart : other ≠ thread) (held : locks key = some other) :
    update locks ino holder key = some other := by
  have ne : key ≠ ino := by
    rintro rfl
    exact own other apart held
  exact (update_of_ne ne _ _).trans held

/-- Nobody has a lock that is free. -/
theorem unheld_of_free (free : locks ino = none) (other : Nat) (_ : other ≠ thread) :
    locks ino ≠ some other := by
  rw [free]
  exact nofun

/-- Nobody else has the lock of a thread. -/
theorem unheld_of_own (own : locks ino = some thread) (other : Nat) (apart : other ≠ thread) :
    locks ino ≠ some other := by
  rw [own]
  exact fun same => apart (Option.some.inj same).symm

/-- Only threads that stage or write are not free. -/
theorem free_of_stands (stands : core.threads thread = phase) (plain : match phase with
      | .staging _ _ | .stagingLocked _ _ | .writing _ _ => False
      | _ => True) : (core.threads thread).Free := by
  rw [stands]
  cases phase with
  | staging | stagingLocked | writing => exact plain.elim
  | _ => exact ⟨fun _ _ holds => holds, nofun⟩

theorem Invariant.step_free (inv : core.Invariant) (free : (core.threads thread).Free)
    (moves : Moves core next thread phase) (ok : phase.Ok next thread) : next.Invariant :=
  inv.move moves (fun ino write holds => (free.1 ino write holds).elim) free.2 ok

end Threads

section Stage
variable {core : Core} (writes : List Nat) (dirties : Bool)

theorem staging_id_lt (inv : core.Invariant) :
    core.staging.id < (core.stage writes dirties).nextTxId := by
  unfold staging stage
  cases active : core.active with
  | none => exact Nat.lt_succ_self _
  | some group => exact inv.begun group (.inl active)

/-- Staged bytes are in the active transaction. -/
theorem pending_stage : (core.stage writes dirties).Pending
    { core.staging with
      writes := core.staging.writes ++ writes
      dirty := core.staging.dirty || dirties || !writes.isEmpty } :=
  .inl rfl

/-- Staging leaves the transactions live. -/
theorem stage_carries : Carries core (core.stage writes dirties) := by
  constructor
  · exact fun _ journaled => journaled
  · intro group pending
    left
    rcases pending with active | frozen
    · refine ⟨_, pending_stage writes dirties, ?_, fun write mem => ?_⟩
      · show core.staging.id = group.id
        unfold staging
        rw [active]
        rfl
      · have inside : write ∈ core.staging.writes := by
          unfold staging
          rwa [active]
        exact mem_append_left _ inside
    · exact ⟨group, .inr frozen, rfl, fun _ mem => mem⟩

/-- A transaction that began earlier does not become active by staging. -/
theorem stage_active {id : Nat} (begun : id < core.nextTxId)
    (inactive : core.active.map Group.id ≠ some id) :
    (core.stage writes dirties).active.map Group.id ≠ some id := by
  intro same
  have staged : core.staging.id = id := Option.some.inj same
  unfold staging at staged
  cases active : core.active with
  | none =>
    rw [active] at staged
    have next : core.nextTxId = id := staged
    omega
  | some group =>
    rw [active] at staged inactive
    exact inactive (congrArg some staged)

theorem stage_ids : (core.stage writes dirties).ids =
    core.ids ∨ core.active = none ∧
      (core.stage writes dirties).ids = core.ids ++ [core.nextTxId] := by
  unfold ids stage staging
  cases active : core.active with
  | none =>
    right
    simp
  | some group =>
    left
    simp

theorem mem_ids {id : Nat} : id ∈ core.ids ↔ ∃ group, core.Pending group ∧ group.id = id := by
  unfold ids Pending
  simp only [mem_map, mem_append, Option.mem_toList]
  constructor
  · rintro ⟨group, frozen | active, rfl⟩
    · exact ⟨group, .inr frozen, rfl⟩
    · exact ⟨group, .inl active, rfl⟩
  · rintro ⟨group, active | frozen, rfl⟩
    · exact ⟨group, .inr active, rfl⟩
    · exact ⟨group, .inl frozen, rfl⟩

/-- The invariant holds while bytes are staged. -/
theorem Invariant.stage (inv : core.Invariant) : (core.stage writes dirties).Invariant := by
  have same : SameControl core (core.stage writes dirties) := ⟨rfl, rfl, rfl, rfl, rfl, rfl⟩
  have counter : core.nextTxId ≤ (core.stage writes dirties).nextTxId := by
    unfold Core.stage
    dsimp only
    split_ifs <;> omega
  have forward := same.forward (stage_carries writes dirties) (fun _ mem => mem) counter
    fun id begun inactive => stage_active writes dirties begun inactive
  obtain ⟨located, phases⟩ := inv.located_phases same forward
  constructor
  · exact located
  · exact phases
  · rcases @stage_ids core writes dirties with kept | ⟨-, grown⟩
    · rw [kept]
      exact inv.ordered
    · rw [grown, pairwise_append]
      refine ⟨inv.ordered, pairwise_singleton _ _, fun id mem next last => ?_⟩
      obtain ⟨group, pending, rfl⟩ := mem_ids.mp mem
      rw [mem_singleton.mp last]
      exact inv.begun group pending
  · intro group pending
    rcases pending with active | frozen
    · cases active
      exact staging_id_lt writes dirties inv
    · exact Nat.lt_of_lt_of_le (inv.begun group (.inr frozen)) counter
  · exact inv.inFlight
  · intro group active clean
    rw [← Option.some.inj active] at clean ⊢
    simp only [Bool.or_eq_false_iff, Bool.not_eq_eq_eq_not, Bool.not_false] at clean
    have none_written : writes = [] := isEmpty_iff.mp clean.2
    have none_before : core.staging.writes = [] := by
      have unwritten := clean.1.1
      unfold staging at unwritten ⊢
      cases active : core.active with
      | none => rfl
      | some group =>
        rw [active] at unwritten
        exact inv.clean group active unwritten
    show core.staging.writes ++ writes = []
    rw [none_written, none_before]
    rfl

end Stage

section Commit
variable {core : Core} {thread : Nat} {resume : Resume}

/-- While a thread has the commit lock and no group, no group is being written. -/
theorem Invariant.quiet (inv : core.Invariant)
    (quiescing : core.threads thread = .quiescing resume) :
    ∀ other group resume, core.threads other ≠ .writing group resume := by
  intro other group resume' writing
  have same := inv.writer_unique (inv.ok quiescing).1 writing
  subst same
  rw [quiescing] at writing
  cases writing

variable {group : Group}
section
variable (inv : core.Invariant)
include inv

theorem Invariant.discard (quiescing : core.threads thread = .quiescing resume)
    (active : core.active = some group)
    (clean : group.dirty = false) : { core with active := none }.Invariant := by
  have same : SameControl core { core with active := none } := ⟨rfl, rfl, rfl, rfl, rfl, rfl⟩
  have carries : Carries core { core with active := none } := by
    constructor
    · exact fun _ journaled => journaled
    · intro live pending
      rcases pending with is_active | frozen
      · right
        intro older older_pending _ write mem
        rcases older_pending with older_active | older_frozen
        · rw [active] at older_active
          rw [← Option.some.inj older_active, inv.clean group active clean] at mem
          cases mem
        · exact journaled_of_held
            (inv.held_of_quiet (inv.quiet quiescing) older_frozen) mem
      · exact .inl ⟨live, .inr frozen, rfl, fun _ mem => mem⟩
  have forward := same.forward carries (fun _ mem => mem) (Nat.le_refl _) nofun
  obtain ⟨located, phases⟩ := inv.located_phases same forward
  have sublist : List.Sublist { core with active := none }.ids core.ids :=
    (List.Sublist.append_left (nil_sublist _) _).map _
  refine { inv with
    located := located, phases := phases, ordered := inv.ordered.sublist sublist, begun := ?_
    clean := nofun }
  rintro live (no | frozen)
  · cases no
  · exact inv.begun live (.inr frozen)

/-- The active transaction is frozen by a thread that will write it. -/
theorem Invariant.freeze (quiescing : core.threads thread = .quiescing resume)
    (active : core.active = some group) :
    ({ core with active := none, committing := core.committing ++ [group] }.goto thread
      (.writing group resume)).Invariant := by
  have pending : ∀ live, core.Pending live → live ∈ core.committing ++ [group] := by
    rintro live (is_active | frozen)
    · rw [active] at is_active
      cases is_active
      exact mem_append_right _ (mem_singleton_self _)
    · exact mem_append_left _ frozen
  have before : ∀ live ∈ core.committing ++ [group], core.Pending live := by
    exact forall_mem_append.mpr ⟨fun live old => .inr old, forall_mem_singleton.mpr (.inl active)⟩
  have carries : Carries core ({ core with
      active := none, committing := core.committing ++ [group] }.goto thread
        (.writing group resume)) :=
    ⟨fun _ journaled => journaled,
      fun live is_pending => .inl ⟨live, .inr (pending live is_pending), rfl, fun _ mem => mem⟩⟩
  have forward : Forward core _ thread :=
    ⟨fun _ => carries.settled, carries.journaled, fun _ _ => carries.awaited, fun _ _ mem => mem,
      fun _ _ _ held => held, fun _ _ _ held => held,
      fun _ _ held => ⟨held, fun _ mem => mem_append_left _ mem⟩, Nat.le_refl _, nofun,
      fun _ apart => update_of_ne apart _ _⟩
  have ok := inv.ok quiescing
  have free := free_of_stands quiescing trivial
  obtain ⟨located, phases⟩ := inv.carry forward rfl (fun _ _ mem => .inl mem)
    (fun ino write holds => (free.1 ino write holds).elim) (update_self _ _ _)
    ⟨ok.1, mem_append_right _ (mem_singleton_self _), forward.resume (fun _ held => held) ok.2⟩
  refine ⟨located, phases, ?_, ?_, ?_, nofun⟩
  · have ordered := inv.ordered
    unfold ids at ordered ⊢
    rw [active] at ordered
    show ((core.committing ++ [group] ++ []).map Group.id).Pairwise _
    rwa [append_nil]
  · rintro live (no | frozen)
    · cases no
    · exact inv.begun live (before live frozen)
  · refine forall_mem_append.mpr ⟨fun live old => .inl ?_, forall_mem_singleton.mpr (.inr ?_)⟩
    · exact inv.held_of_quiet (inv.quiet quiescing) old
    · exact ⟨thread, resume, update_self _ _ _⟩

theorem Invariant.frozen_lt_active {frozen active : Group} (mem : frozen ∈ core.committing)
    (is_active : core.active = some active) : frozen.id < active.id := by
  have ordered := inv.ordered
  unfold ids at ordered
  rw [is_active, map_append, pairwise_append] at ordered
  exact ordered.2.2 _ (mem_map_of_mem mem) _ (mem_singleton_self _)

/-- Every frozen group but the one being written is in the journal. -/
theorem Invariant.held_of_ne {older : Group}
    (writing : core.threads thread = .writing group resume) (mem : older ∈ core.committing)
    (apart : older ≠ group) : older ∈ core.held := by
  rcases inv.inFlight older mem with synced | ⟨other, resume', other_writing⟩
  · exact synced
  · have same := inv.writer_unique (inv.ok writing).1 other_writing
    rw [same, writing, Phase.writing.injEq] at other_writing
    exact (apart other_writing.1.symm).elim

/-- What a commit that reached the journal does to the transactions. -/
theorem Invariant.retire_carries (writing : core.threads thread = .writing group resume)
    {outcome : Outcome}
    (synced : outcome ≠ .failedBeforeSync) : Carries core (core.retire group outcome) := by
  have ok := inv.ok writing
  have journaled : ∀ write, core.Journaled write → (core.retire group outcome).Journaled write := by
    rintro write ⟨live, mem, inside⟩
    refine ⟨live, ?_, inside⟩
    cases outcome with
    | applied =>
      show live ∈ (core.applied ++ [group]) ++ core.held
      simp only [mem_append] at mem ⊢
      tauto
    | failedBeforeSync => exact mem
    | failedAfterSync =>
      show live ∈ core.applied ++ (core.held ++ [group])
      simp only [mem_append] at mem ⊢
      tauto
  refine ⟨journaled, fun live pending => ?_⟩
  cases outcome with
  | failedBeforeSync => exact (synced rfl).elim
  | failedAfterSync => exact .inl ⟨live, pending, rfl, fun _ mem => mem⟩
  | applied =>
    by_cases same : live.id = group.id
    · right
      intro older older_pending order write inside
      rcases older_pending with active | frozen
      · have newer := inv.frozen_lt_active ok.2.1 active
        omega
      · by_cases is_group : older = group
        · subst is_group
          refine ⟨older, ?_, inside⟩
          exact mem_append_left _ (mem_append_right _ (mem_singleton_self _))
        · exact journaled write
            (journaled_of_held (inv.held_of_ne writing frozen is_group) inside)
    · left
      refine ⟨live, ?_, rfl, fun _ mem => mem⟩
      rcases pending with active | frozen
      · exact .inl active
      · exact .inr (mem_filter.mpr ⟨frozen, decide_eq_true same⟩)

end

/-- A commit that reached the journal, up to the release of the commit lock. -/
def concluded (core : Core) (thread : Nat) (group : Group) (outcome : Outcome) (resume : Resume) :
    Core :=
  { core.retire group outcome with commitIo := some thread }.goto thread (.quiescing resume)

/-- The commit then goes on as one that found nothing to do, but for its answer. -/
theorem resumed_retire (group : Group) (outcome : Outcome) (found : Bool) :
    (core.retire group outcome).resumed thread found resume =
      { core.concluded thread group outcome resume with commitIo := none }.resumed thread found
        resume := by
  unfold concluded
  cases outcome <;> cases resume <;> cases found <;>
    simp [Core.retire, Core.resumed, Core.goto, Core.setGate, update_idem]

/-- The invariant holds after a commit that reached the journal. -/
theorem Invariant.concluded (inv : core.Invariant)
    (writing : core.threads thread = .writing group resume) {outcome : Outcome}
    (synced : outcome ≠ .failedBeforeSync) :
    (core.concluded thread group outcome resume).Invariant := by
  have carries := inv.retire_carries writing synced
  have ok := inv.ok writing
  have sublist : (core.retire group outcome).committing.Sublist core.committing := by
    cases outcome with
    | applied => exact filter_sublist
    | failedBeforeSync | failedAfterSync => exact List.Sublist.refl _
  have journaled : ∀ live ∈ (core.retire group outcome).committing,
      live ∈ (core.retire group outcome).held := by
    intro live mem
    by_cases is_group : live = group
    · subst is_group
      cases outcome with
      | applied => exact (of_decide_eq_true (mem_filter.mp mem).2 rfl).elim
      | failedBeforeSync => exact (synced rfl).elim
      | failedAfterSync => exact mem_append_right _ (mem_singleton_self _)
    · have before := inv.held_of_ne writing (sublist.subset mem) is_group
      cases outcome with
      | applied | failedBeforeSync => exact before
      | failedAfterSync => exact mem_append_left _ before
  -- whatever the outcome, only the lists of transactions change
  obtain ⟨committing, applied, held, newest, retired⟩ : ∃ committing applied held newest,
      core.retire group outcome = { core with
        committing := committing, applied := applied, held := held, newest := newest
        commitIo := none } := by
    cases outcome <;> exact ⟨_, _, _, _, rfl⟩
  unfold Core.concluded
  rw [retired] at carries sublist journaled ⊢
  have forward : Forward core ({ core with
      committing := committing, applied := applied, held := held, newest := newest
      commitIo := some thread }.goto thread (.quiescing resume)) thread :=
    ⟨fun _ => carries.settled, carries.journaled, fun _ _ => carries.awaited, fun _ _ mem => mem,
      fun _ _ _ held => held, fun _ _ _ held => held,
      fun _ apart held => (apart (Option.some.inj (held.symm.trans ok.1))).elim, Nat.le_refl _,
      fun _ _ inactive => inactive, fun _ apart => update_of_ne apart _ _⟩
  have nothing : ∀ ino write, ¬ (core.threads thread).Holds ino write := by
    rw [writing]
    exact fun _ _ holds => holds
  obtain ⟨located, phases⟩ := inv.carry forward rfl (fun _ _ mem => .inl mem)
    (fun ino write holds => (nothing ino write holds).elim) (update_self _ _ _)
    ⟨rfl, forward.resume (fun _ held => held) ok.2.2⟩
  refine { inv with
    located := located, phases := phases
    ordered := inv.ordered.sublist ((sublist.append_right _).map _), begun := ?_
    inFlight := fun live mem => .inl (journaled live mem) }
  rintro live (active | frozen)
  · exact inv.begun live (.inl active)
  · exact inv.begun live (.inr (sublist.subset frozen))

theorem Invariant.resumed (inv : core.Invariant)
    (quiescing : core.threads thread = .quiescing resume) (found : Bool)
    (nothing : found = false → core.active = none) :
    ({ core with commitIo := none }.resumed thread found resume).Invariant := by
  have ok := inv.ok quiescing
  have free := free_of_stands quiescing trivial
  have released : ∀ other, other ≠ thread → core.commitIo = some other → none = some other := by
    intro other apart held
    exact (apart (Option.some.inj (held.symm.trans ok.1))).elim
  have moves : ∀ phase, Moves core ({ core with commitIo := none }.goto thread phase) thread
      phase := fun phase =>
    ⟨⟨rfl, rfl, rfl, rfl, rfl⟩, rfl, rfl, rfl, fun _ _ _ held => held, fun _ _ _ held => held,
      released⟩
  cases resume with
  | done => exact inv.step_free free (moves .idle) trivial
  | unlock ino =>
    have unlocks : Moves core (({ core with commitIo := none }.setGate ino none).goto thread .idle)
        thread .idle :=
      ⟨⟨rfl, rfl, rfl, rfl, rfl⟩, rfl, rfl, rfl, update_lock none (unheld_of_own ok.2),
        fun _ _ _ held => held, released⟩
    exact inv.step_free free unlocks trivial
  | again waiter =>
    cases found with
    | true =>
      exact inv.step_free free (moves (.probing waiter .top waiter.ids))
        ((moves _).forward.waiter ok.2)
    | false =>
      have second : waiter.Ok core .second waiter.ids := ok.2.recheck waiter.patience nofun
      exact inv.step_free free (moves (.probing waiter .second waiter.ids))
        ((moves _).forward.waiter second)
  | giveUp waiter =>
    cases found with
    | true =>
      have top : Waiter.Ok core { waiter with patience := 0 } .top waiter.ids :=
        ok.2.recheck 0 nofun
      exact inv.step_free free (moves (.probing { waiter with patience := 0 } .top waiter.ids))
        ((moves _).forward.waiter top)
    | false =>
      have covered : ∀ write ∈ waiter.owed, core.Journaled write := by
        intro write mem
        rcases ok.2.covers write mem with journaled | ⟨group, active | frozen, inside, -⟩
        · exact journaled
        · have none_active := nothing rfl
          rw [none_active] at active
          cases active
        · exact journaled_of_held (inv.held_of_quiet (inv.quiet quiescing) frozen) inside
      have last : waiter.Ok core .last waiter.ids := ok.2.recheck waiter.patience fun _ => covered
      exact inv.step_free free (moves (.probing waiter .last waiter.ids))
        ((moves _).forward.waiter last)

end Commit
end Core
end LionFS.Vfs
