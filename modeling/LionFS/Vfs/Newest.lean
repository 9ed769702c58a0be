import LionFS.Vfs.Pipeline

/-!
# What a staging context reads

A context searches the active transaction, then the pending groups newest first,
then the device. That is the most recently staged content as long as the groups in
the list are the newest ones. A group whose commit failed stays in the list while
newer groups are applied and retired; once a newer group that has one of its blocks
is retired, the old content comes back.
-/
namespace LionFS.Vfs
open List Option Writes Prod
variable {β : Type}

/-- The pending groups with those taken out of staging, newest last. -/
def Pipeline.pending (state : Pipeline β) : List (Txn β) := state.committing ++ state.taken.toList

/-- Every block reads as its most recently staged content, or its first content on the device,
for a context under the staging lock. -/
def Pipeline.ReadsNewest (first : Nat → β) (state : Pipeline β) : Prop :=
  state.taken = none → ∀ block,
    readBlock state.active state.committing state.disk block = apply state.log first block

/-- When a group is dropped from the list: every block of it is in the active transaction, or the
other pending groups have no other content for it. -/
def Pipeline.Superseding (state : Pipeline β) : PipelineEvent β → Prop
  | .drop =>
    ∀ group, state.writing = some (group, .switched) → ∀ block content,
      group.read block = some content →
      (state.active.bind fun tx => tx.read block) = none → ∀ older,
      overlay (state.committing.filter fun other => decide (other.id ≠ group.id)) block =
        some older → older = content
  | _ => True

theorem overlay_append (older newer : List (Txn β)) (block : Nat) :
    overlay (older ++ newer) block = (overlay newer block).or (overlay older block) := by
  induction older with
  | nil => simp [overlay]
  | cons tx rest ih => simp [overlay, ih, Option.or_assoc]

theorem overlay_singleton (group : Txn β) (block : Nat) :
    overlay [group] block = group.read block := by
  simp [overlay]

/-- What holds in every state in which the reads were right so far. -/
structure Pipeline.Ordered (first : Nat → β) (state : Pipeline β) : Prop where
  /-- Every block reads as its most recently staged content, through what is being quiesced too. -/
  newest : ∀ block, readBlock state.active state.pending state.disk block =
    apply state.log first block
  /-- The group being written is the newest one in the list, by its id. -/
  last : ∀ group progress, state.writing = some (group, progress) → progress ≠ .dropped →
    ∃ older, state.committing = older ++ [group] ∧ ∀ other ∈ older, other.id ≠ group.id
  /-- Once written, its blocks are on the device. -/
  home : ∀ group progress, state.writing = some (group, progress) → progress ≠ .applying →
    ∀ block content, group.read block = some content → state.disk block = content
  /-- A group is taken by the thread with the commit lock. -/
  locked : ∀ group, state.taken = some group → state.writing = none
  distinct : ((state.pending ++ state.active.toList).map Txn.id).Nodup
  begun : ∀ tx ∈ state.pending ++ state.active.toList, tx.id < state.nextTxId

namespace Pipeline
variable {first : Nat → β} {state : Pipeline β}

theorem staging_read (state : Pipeline β) (block : Nat) :
    state.staging.read block = state.active.bind fun tx => tx.read block := by
  unfold staging
  cases state.active with
  | none => rfl
  | some tx => rfl

variable {group : Txn β}

/-- With no group taken, the pending groups are those in the list. -/
theorem pending_eq (untaken : state.taken = none) : state.pending = state.committing := by
  unfold Pipeline.pending
  rw [untaken]
  exact append_nil _

theorem filter_last {groups older : List (Txn β)} (last : groups = older ++ [group])
    (apart : ∀ other ∈ older, other.id ≠ group.id) :
    groups.filter (fun other => decide (other.id ≠ group.id)) = older := by
  have kept : older.filter (fun other => decide (other.id ≠ group.id)) = older :=
    filter_eq_self.mpr fun other mem => decide_eq_true (apart other mem)
  rw [last, filter_append, kept]
  simp

theorem ordered_mounted (roots : Nat → Nat) (nextTxId : Nat) :
    (mounted first roots nextTxId).Ordered first := by
  exact ⟨fun _ => rfl, nofun, nofun, nofun, .nil, nofun⟩

section
variable (ordered : state.Ordered first)
include ordered

/-- The id staging runs under is not among the pending ones, and not reached yet afterwards. -/
theorem Ordered.staging_id :
    (∀ tx ∈ state.pending, tx.id ≠ state.staging.id) ∧
      state.staging.id < if state.active.isNone then state.nextTxId + 1 else state.nextTxId := by
  unfold staging
  cases active : state.active with
  | none =>
    refine ⟨fun tx mem => Nat.ne_of_lt ?_, Nat.lt_succ_self _⟩
    exact ordered.begun tx (mem_append_left _ mem)
  | some current =>
    have distinct := ordered.distinct
    rw [active, map_append, nodup_append] at distinct
    refine ⟨fun tx mem => ?_, ?_⟩
    · exact distinct.2.2 _ (mem_map_of_mem mem) _ (mem_singleton_self _)
    · refine ordered.begun current (mem_append_right _ ?_)
      rw [active]
      exact mem_singleton_self _

variable {next : Pipeline β}

/-- Staging keeps what does not concern contents, whatever it does to the active transaction. -/
theorem Ordered.stage {change : Txn β → Txn β} {log : List (Nat × β)} {mirror : Nat → Nat}
    (same : ∀ tx, (change tx).id = tx.id)
    (newest : ∀ block, readBlock (some (change state.staging)) state.pending state.disk block =
      apply log first block) :
    { state.stage change with log := log, mirror := mirror }.Ordered first := by
  have fresh := ordered.staging_id
  refine { ordered with newest := newest, distinct := ?_, begun := ?_ }
  · have distinct := ordered.distinct
    rw [map_append, nodup_append] at distinct ⊢
    refine ⟨distinct.1, pairwise_singleton _ _, fun id mem other last => ?_⟩
    obtain ⟨tx, inside, rfl⟩ := mem_map.mp mem
    rw [mem_singleton.mp last, same]
    exact fresh.1 tx inside
  · intro tx mem
    show tx.id < if state.active.isNone then state.nextTxId + 1 else state.nextTxId
    rcases mem_append.mp mem with inside | last
    · have before := ordered.begun tx (mem_append_left _ inside)
      split_ifs <;> omega
    · rw [mem_singleton.mp last, same]
      exact fresh.2

/-- A staged write is what its block reads from then on. -/
theorem Ordered.writeBlock (block : Nat) (content : β) :
    (state.writeBlock block content).Ordered first := by
  refine ordered.stage (fun _ => rfl) fun other => ?_
  have before := ordered.newest other
  unfold readBlock at before ⊢
  show ((last? other (state.staging.dirty ++ [(block, content)])).or
      (overlay state.pending other)).getD (state.disk other) = _
  rw [last?_append, apply_append, apply_eq, ← before]
  have staged : last? other state.staging.dirty =
      state.active.bind fun tx => tx.read other := state.staging_read other
  rw [staged]
  by_cases same : block = other
  · simp [last?, same]
  · simp [last?, same]

/-- Opening a context or moving a root changes no block. -/
theorem Ordered.restage {change : Txn β → Txn β} {mirror : Nat → Nat}
    (same : ∀ tx, (change tx).id = tx.id) (dirty : ∀ tx, (change tx).dirty = tx.dirty) :
    { state.stage change with mirror := mirror }.Ordered first := by
  refine ordered.stage same fun block => ?_
  have read : (change state.staging).read block = state.staging.read block := by
    unfold Txn.read
    rw [dirty]
  refine Eq.trans ?_ (ordered.newest block)
  unfold readBlock
  rw [bind_some, read, staging_read]

variable {prog : Progress}

theorem Ordered.untaken (writing : state.writing = some (group, prog)) : state.taken = none := by
  cases taken : state.taken with
  | none => rfl
  | some other =>
    have unlocked := ordered.locked other taken
    rw [writing] at unlocked
    cases unlocked

theorem Ordered.discard (active : state.active = some group) (empty : group.dirty.isEmpty) :
    { state with active := none }.Ordered first := by
  have unread : ∀ block, group.read block = none := by
    intro block
    unfold Txn.read
    rw [isEmpty_iff.mp empty]
    rfl
  have subset : ∀ tx ∈ state.pending ++ ([] : List (Txn β)),
      tx ∈ state.pending ++ state.active.toList := fun tx mem =>
    mem_append_left _ (mem_append.mp mem |>.resolve_right not_mem_nil)
  refine { ordered with newest := ?_, distinct := ?_, begun := ?_ }
  · intro block
    have before := ordered.newest block
    rw [active] at before
    unfold readBlock at before ⊢
    rw [bind_some, unread] at before
    exact before
  · have distinct := ordered.distinct
    rw [map_append, nodup_append] at distinct
    show ((state.pending ++ []).map Txn.id).Nodup
    rw [append_nil]
    exact distinct.1
  · exact fun tx mem => ordered.begun tx (subset tx mem)

theorem Ordered.take (active : state.active = some group) (untaken : state.taken = none)
    (unlocked : state.writing = none) (seq : Nat) :
    { state with active := none, taken := some group, commitSeq := seq }.Ordered first := by
  have pending := pending_eq untaken
  have same : (state.committing ++ [group]) ++ [] = state.pending ++ state.active.toList := by
    rw [pending, active, append_nil]
    rfl
  refine { ordered with
    newest := fun block => ?_, locked := fun _ _ => unlocked, distinct := same ▸ ordered.distinct
    begun := same ▸ ordered.begun }
  have before := ordered.newest block
  rw [active, pending] at before
  unfold readBlock at before ⊢
  show ((none : Option β).or (overlay (state.committing ++ [group]) block)).getD _ = _
  rw [overlay_append, overlay_singleton, none_or]
  exact before

theorem Ordered.push (taken : state.taken = some group) : (state.pushed group).Ordered first := by
  have pending : (state.committing ++ [group]) ++ [] = state.pending := by
    unfold Pipeline.pending
    rw [taken, append_nil]
    rfl
  have same : (state.pushed group).pending = state.pending := pending
  refine { newest := ?_, last := ?_, home := ?_, locked := nofun
           distinct := same ▸ ordered.distinct, begun := same ▸ ordered.begun }
  · intro block
    rw [same]
    exact ordered.newest block
  · intro other prog writing _
    have is_group : group = other := congrArg fst (some.inj writing)
    rw [← is_group]
    refine ⟨state.committing, rfl, fun older mem => ?_⟩
    have distinct := ordered.distinct
    rw [← pending, append_nil, append_assoc, map_append, nodup_append] at distinct
    exact distinct.2.2 _ (mem_map_of_mem mem) _
      (mem_map_of_mem (mem_append_left _ (mem_singleton_self _)))
  · intro other prog writing applied
    exact (applied (congrArg snd (some.inj writing)).symm).elim

/-- The device changes under the group being written, only at blocks that it has. -/
theorem Ordered.land (prog : Progress) (writing : state.writing = some (group, .applying))
    {writes : List (Nat × β)} (own : ∀ write ∈ writes, group.read write.1 ≠ none)
    (home : prog ≠ .applying → ∀ block content, group.read block = some content →
      apply writes state.disk block = content) :
    { state with
      disk := apply writes state.disk
      writing := some (group, prog) }.Ordered first := by
  obtain ⟨older, last, apart⟩ := ordered.last group .applying writing (by decide)
  have untaken := ordered.untaken writing
  have pending := pending_eq untaken
  refine { ordered with newest := ?_, last := ?_, home := ?_, locked := ?_ }
  · intro block
    have before := ordered.newest block
    show readBlock state.active state.pending (apply writes state.disk) block = _
    rw [← before, pending]
    unfold readBlock
    cases read : group.read block with
    | some content =>
      rw [last, overlay_append, overlay_singleton, read, some_or]
      cases state.active.bind fun tx => tx.read block <;> rfl
    | none =>
      have kept : apply writes state.disk block = state.disk block := by
        refine apply_of_not_mem (fun write mem same => ?_) _
        exact own write mem (same ▸ read)
      rw [kept]
  · intro other progress' same _
    have is_group : group = other := congrArg fst (some.inj same)
    rw [← is_group]
    exact ⟨older, last, apart⟩
  · intro other progress' same applied block content read
    have both := Prod.mk.inj (some.inj same)
    rw [← both.1] at read
    exact home (both.2 ▸ applied) block content read
  · intro other taken
    exact absurd (untaken.symm.trans taken) nofun

/-- Commit steps that touch neither the list nor the device. -/
theorem Ordered.proceed {roots : Nat → Nat} {now : Option (Txn β × Progress)} {seq : Nat}
    (writing : state.writing = some (group, prog)) (started : prog ≠ .applying ∨ now = none)
    (later : ∀ other progress', now = some (other, progress') → other = group ∧ prog ≠ .dropped) :
    { state with writing := now, roots := roots, commitSeq := seq }.Ordered first := by
  refine { ordered with last := ?_, home := ?_, locked := ?_ }
  · intro other progress' same _
    obtain ⟨rfl, listed⟩ := later other progress' same
    exact ordered.last _ prog writing listed
  · intro other progress' same _
    obtain ⟨rfl, -⟩ := later other progress' same
    rcases started with applied | unlocked
    · exact ordered.home _ prog writing applied
    · exact absurd (unlocked.symm.trans same) nofun
  · intro other taken
    exact absurd (ordered.locked other taken ▸ writing) nofun

/-- What a block reads before and after the newest group, fully written, is dropped. -/
theorem Ordered.read_drop (writing : state.writing = some (group, .switched)) {older : List (Txn β)}
    (last : state.committing = older ++ [group]) (block : Nat) :
    readBlock state.active older state.disk block =
        readBlock state.active state.committing state.disk block ↔
      ∀ content, group.read block = some content →
        (state.active.bind fun tx => tx.read block) = none →
        ∀ old, overlay older block = some old → old = content := by
  unfold readBlock
  rw [last, overlay_append, overlay_singleton]
  cases state.active.bind fun tx => tx.read block with
  | some content => simp
  | none =>
    cases read : group.read block with
    | none => simp
    | some content =>
      have home := ordered.home group .switched writing (by decide) block content read
      cases overlay older block with
      | none => simp [home]
      | some old => simp

/-- The group being written is dropped from the list: the reads stay right exactly when no other
group brings back an older content. -/
theorem Ordered.drop (writing : state.writing = some (group, .switched)) (dropped : { state with
      committing := state.committing.filter fun other => decide (other.id ≠ group.id)
      writing := some (group, .dropped) } = next) :
    (state.Superseding .drop → next.Ordered first) ∧
      (next.ReadsNewest first → state.Superseding .drop) := by
  obtain ⟨older, last, apart⟩ := ordered.last group .switched writing (by decide)
  have filtered := filter_last last apart
  rw [filtered] at dropped
  subst dropped
  have untaken := ordered.untaken writing
  have pending := pending_eq untaken
  have next_pending : older ++ state.taken.toList = older := by
    rw [untaken]
    exact append_nil older
  have fewer : (older ++ state.taken.toList) ++ state.active.toList <+
      state.pending ++ state.active.toList := by
    rw [next_pending, pending, last]
    exact (sublist_append_left _ _).append_right _
  constructor
  · intro superseding
    refine { ordered with
      newest := ?_, last := ?_, home := ?_, locked := ?_
      distinct := ordered.distinct.sublist (fewer.map _)
      begun := fun tx mem => ordered.begun tx (fewer.subset mem) }
    · intro block
      show readBlock state.active (older ++ state.taken.toList) state.disk block = _
      rw [next_pending, ← ordered.newest block, pending, ordered.read_drop writing last block]
      intro content read inactive old found
      exact superseding group writing block content read inactive old
        (by rw [filtered]; exact found)
    · intro other prog same listed
      exact (listed (congrArg snd (some.inj same)).symm).elim
    · intro other prog same _ block content read
      have is_group : group = other := congrArg fst (some.inj same)
      rw [← is_group] at read
      exact ordered.home group .switched writing (by decide) block content read
    · intro other taken
      exact absurd (untaken.symm.trans taken) nofun
  · intro newest group' same block content read inactive old found
    have is_group : group = group' :=
      congrArg fst (some.inj (writing.symm.trans same))
    rw [← is_group] at read found
    rw [filtered] at found
    have after := newest untaken block
    rw [← ordered.newest block, pending] at after
    exact (ordered.read_drop writing last block).mp after content read inactive old found

variable {event : PipelineEvent β}

/-- A step of a commit: the reads stay right exactly when the step supersedes. -/
theorem Ordered.advance (writing : state.writing = some (group, prog))
    (stepped : Vfs.advance state group prog event = some next) :
    (state.Superseding event → next.Ordered first) ∧
      (next.ReadsNewest first → state.Superseding event) := by
  have unwritten : ∀ (other : Txn β) (progress' : Progress),
      none = some (other, progress') → other = group ∧ prog ≠ .dropped := nofun
  unfold Vfs.advance at stepped
  split at stepped
  · rename_i blocks
    cases stepped
    refine ⟨fun _ => ?_, fun _ => trivial⟩
    have own : ∀ write ∈ landing group blocks, group.read write.1 ≠ none := by
      intro write mem
      obtain ⟨block, -, found⟩ := mem_filterMap.mp mem
      obtain ⟨content, read, rfl⟩ := map_eq_some_iff.mp found
      rw [read]
      exact some_ne_none _
    have kept := ordered.land .applying writing own fun started => (started rfl).elim
    rwa [← writing] at kept
  · cases stepped
    refine ⟨fun _ => ordered.land .applied writing ?_ ?_, fun _ => trivial⟩
    · intro write mem absent
      exact last?_eq_none.mp absent write mem rfl
    · intro _ block content read
      rw [apply_eq]
      unfold Txn.read at read
      rw [read]
      rfl
  · cases stepped
    refine ⟨fun _ => ordered.proceed writing (.inl (by decide)) ?_, fun _ => trivial⟩
    intro other progress' same
    exact ⟨(congrArg fst (some.inj same)).symm, by decide⟩
  · exact ordered.drop writing (some.inj stepped)
  · cases stepped
    exact ⟨fun _ => ordered.proceed writing (.inr rfl) unwritten, fun _ => trivial⟩
  · cases stepped
    exact ⟨fun _ => ordered.proceed writing (.inr rfl) unwritten, fun _ => trivial⟩
  · cases stepped
    exact ⟨fun _ => ordered.proceed writing (.inr rfl) unwritten, fun _ => trivial⟩
  · cases stepped

theorem Ordered.step (stepped : pipelineStep state event = some next) :
    (state.Superseding event → next.Ordered first) ∧
      (next.ReadsNewest first → state.Superseding event) := by
  cases stepped_of_pipelineStep stepped with
  | push taken => exact ⟨fun _ => ordered.push taken, fun _ => trivial⟩
  | enter untaken =>
    exact ⟨fun _ => ordered.restage (fun _ => rfl) fun _ => rfl, fun _ => trivial⟩
  | write untaken block content =>
    exact ⟨fun _ => ordered.writeBlock block content, fun _ => trivial⟩
  | moveRoot untaken nodeType root node allocated =>
    exact ⟨fun _ => (ordered.writeBlock root node).restage (fun _ => rfl) fun _ => rfl,
      fun _ => trivial⟩
  | discard untaken active empty =>
    exact ⟨fun _ => ordered.discard active empty, fun _ => trivial⟩
  | take untaken unlocked active =>
    exact ⟨fun _ => ordered.take active untaken unlocked _, fun _ => trivial⟩
  | advance untaken writing stepped => exact ordered.advance writing stepped

/-- In order, a context under the staging lock reads the newest contents. -/
theorem Ordered.readsNewest : state.ReadsNewest first := by
  intro untaken block
  have newest := ordered.newest block
  unfold Pipeline.pending at newest
  rw [untaken] at newest
  rwa [toList_none, append_nil] at newest

/-- A group that can be dropped is dropped. -/
theorem Ordered.refused (refused : pipelineStep state event = none) : state.Superseding event := by
  cases event with
  | drop =>
    intro group writing
    unfold pipelineStep at refused
    cases taken : state.taken with
    | some other =>
      rw [ordered.locked other taken] at writing
      cases writing
    | none =>
      rw [taken, writing] at refused
      cases refused
  | _ => trivial

end
end Pipeline

/-- From a mount on, a context under the staging lock reads the most recently staged content of
every block in every state of a run exactly when no step of the run drops a group of which another
pending group has a block with another content that the active transaction does not have. -/
theorem reads_newest_iff (first : Nat → β) (roots : Nat → Nat) (nextTxId : Nat)
    (events : List (PipelineEvent β)) :
    Machine.Always pipelineStep (Pipeline.ReadsNewest first) events
        (.mounted first roots nextTxId) ↔
      Machine.Along pipelineStep Pipeline.Superseding events (.mounted first roots nextTxId) :=
  Machine.always_iff_along (fun _ ordered => Pipeline.Ordered.readsNewest ordered)
    (fun _ _ _ ordered stepped => Pipeline.Ordered.step ordered stepped)
    (fun _ _ ordered refused => Pipeline.Ordered.refused ordered refused)
    (Pipeline.ordered_mounted roots nextTxId)

/-- A block is staged and its group's commit fails; it is staged anew and that group commits. -/
def staleRun : List (PipelineEvent Nat) :=
  [.write 7 1, .take, .push, .fail, .write 7 2, .take, .push, .settle, .switch, .drop]

/-- After such a run the block reads as the content of the group that failed. -/
theorem failed_group_read_back : ¬ ∀ (first : Nat → Nat) (roots : Nat → Nat) (nextTxId : Nat)
    (events : List (PipelineEvent Nat)) (state : Pipeline Nat),
    Machine.run pipelineStep events (.mounted first roots nextTxId) = some state →
      state.ReadsNewest first := by
  intro newest
  have facts : (Machine.run pipelineStep staleRun (.mounted (fun _ => 0) (fun _ => 0) 1)).map
      (fun state => (state.taken.isNone, readBlock state.active state.committing state.disk 7,
        apply state.log (fun _ => 0) 7)) = some (true, 1, 2) := by decide
  obtain ⟨state, ran, all⟩ := map_eq_some_iff.mp facts
  rw [mk.injEq, mk.injEq] at all
  have same := newest _ _ _ _ state ran (isNone_iff_eq_none.mp all.1) 7
  rw [all.2.1, all.2.2] at same
  exact absurd same (by decide)

end LionFS.Vfs
