import LionFS.Vfs.Newest

/-!
# Reads without the staging lock

`with_scratch_ctx` samples `commit_seq`, copies the superblock and the pending list,
runs a closure over them and the device, and returns its value when `commit_seq` has
not moved. A closure reads blocks and resolves tree roots, one at a time, while
writers and a committer go on. Blocks are then those of one state; roots are so only
as long as no staging moves a root that the closure resolves, for the mirror that
roots are resolved through is changed when the move is staged.
-/
namespace LionFS.Vfs
open List Option Nat Writes Machine
variable {β R : Type}

/-- What a closure over a read context does. -/
inductive Reading (β R : Type) where
  /-- It returns. -/
  | done (result : R)
  | block (number : Nat) (next : β → Reading β R)
  /-- It resolves the root of a tree. -/
  | root (nodeType : Nat) (next : Nat → Reading β R)

/-- The value of a closure on one state. -/
def Reading.eval (blocks : Nat → β) (roots : Nat → Nat) : Reading β R → R
  | .done result => result
  | .block number next => (next (blocks number)).eval blocks roots
  | .root nodeType next => (next (roots nodeType)).eval blocks roots

/-- Where a call of `with_scratch_ctx` stands. -/
inductive Scratch (β R : Type) where
  /-- Before it samples `commit_seq`. -/
  | sampling
  /-- It sampled an odd value. -/
  | odd (seq : Nat)
  /-- And saw pending groups. -/
  | oddPending (seq : Nat) (pending : List (Txn β))
  /-- It sampled an even value. -/
  | even (seq : Nat)
  /-- And copied the superblock. -/
  | evenCopied (seq : Nat) (roots : Nat → Nat)
  /-- In the closure. -/
  | reading (seq : Nat) (roots : Nat → Nat) (pending : List (Txn β)) (rest : Reading β R)
  /-- The closure returned. -/
  | checking (seq : Nat) (result : R)
  /-- The call returned. -/
  | returned (result : R)

/-- The value a call returned, if it did. -/
def Scratch.result? : Scratch β R → Option R
  | .returned result => some result
  | _ => none

variable (state : Pipeline β)

/-- `TxContext::effective_root` in a scratch context: the mirror, or the superblock's root. -/
def Pipeline.effectiveRoot (roots : Nat → Nat) (nodeType : Nat) : Nat :=
  if BTree.hasRootSlot nodeType && state.mirror nodeType != 0 then state.mirror nodeType
  else roots nodeType

/-- The next step of a call, with its closure. -/
def scratchStep (closure : Reading β R) : Scratch β R → Option (Scratch β R)
  | .sampling =>
    some (if state.commitSeq % 2 = 1 then .odd state.commitSeq else .even state.commitSeq)
  | .odd seq =>
    some (if state.committing.isEmpty then .sampling else .oddPending seq state.committing)
  | .oddPending seq pending => some (.reading seq state.roots pending closure)
  | .even seq => some (.evenCopied seq state.roots)
  | .evenCopied seq roots => some (.reading seq roots state.committing closure)
  | .reading seq roots pending rest =>
    match rest with
    | .done result => some (.checking seq result)
    | .block number next =>
      some (.reading seq roots pending (next (readBlock none pending state.disk number)))
    | .root nodeType next =>
      some (.reading seq roots pending (next (state.effectiveRoot roots nodeType)))
  | .checking seq result => some (if state.commitSeq = seq then .returned result else .sampling)
  | .returned _ => none

/-- One step: of a writer or committer, or of the call. -/
def readerStep (closure : Reading β R) (both : Pipeline β × Scratch β R) :
    Option (PipelineEvent β) → Option (Pipeline β × Scratch β R)
  | some event => (pipelineStep both.1 event).map fun next => (next, both.2)
  | none => (scratchStep both.1 closure both.2).map fun next => (both.1, next)

/-- The blocks after some groups. -/
def blocksAfter (first : Nat → β) (groups : List (Txn β)) : Nat → β :=
  apply (groups.flatMap Txn.dirty) first

/-- The roots after some groups. -/
def rootsAfter (roots : Nat → Nat) (groups : List (Txn β)) : Nat → Nat :=
  groups.foldl Pipeline.switched roots

/-- A returned value is the closure's value on one state: the device at mount overlaid with the
first groups that were quiesced, with the roots of that state. -/
def Consistent (first : Nat → β) (roots : Nat → Nat) (closure : Reading β R)
    (both : Pipeline β × Scratch β R) : Prop :=
  ∀ result, both.2.result? = some result → ∃ front, front <+: both.1.quiesced ∧
    result = closure.eval (blocksAfter first front) (rootsAfter roots front)

/-- The call resolves a root that is not on the move: a mirrored one is not moved by the active
transaction, any other one by no group in the call's list unless its copy of the superblock has
the new root. -/
def RootsStill : Scratch β R → Prop
  | .reading _ roots pending (.root nodeType _) =>
    if BTree.hasRootSlot nodeType then
      (state.active.bind fun tx => last? nodeType tx.rootCells) = none
    else ∀ group ∈ pending, ∀ root, last? nodeType group.rootCells = some root →
      Pipeline.switchesRoot nodeType = true → roots nodeType = root
  | _ => True

/-- No commit fails, and the call resolves no root that is on the move. -/
def Still (both : Pipeline β × Scratch β R) : Option (PipelineEvent β) → Prop
  | some .fail => False
  | some _ => True
  | none => RootsStill both.1 both.2

/-- All root moves since the mount, in order. -/
def Pipeline.cells : List (Nat × Nat) :=
  (state.quiesced ++ (state.taken.toList ++ state.active.toList)).flatMap Txn.rootCells

/-- What holds of the pipeline in every state of a run without failed commits. -/
structure Pipeline.Single (first : Nat → β) (roots : Nat → Nat) (state : Pipeline β) : Prop where
  /-- `commit_seq` is odd while a group is on its way. -/
  parity : state.commitSeq % 2 = if state.taken.isNone ∧ state.writing.isNone then 0 else 1
  /-- A group is taken by the thread with the commit lock. -/
  locked : state.taken.isSome → state.writing = none
  /-- With no group on its way, the list is empty and the device and the superblock are those
  after all groups. -/
  quiet : state.writing = none → state.committing = [] ∧
    state.disk = blocksAfter first state.quiesced ∧ state.roots = rootsAfter roots state.quiesced
  /-- A group on its way is the newest one and alone in the list; the device is that after the
  groups before it, but for its own blocks, then that after all. -/
  busy : ∀ group progress, state.writing = some (group, progress) →
    ∃ front, state.quiesced = front ++ [group] ∧
      state.committing = (if progress = .dropped then [] else [group]) ∧
      (progress = .applying → ∀ block, group.read block = none →
        state.disk block = blocksAfter first front block) ∧
      (progress ≠ .applying → state.disk = blocksAfter first state.quiesced) ∧
      state.roots = (if progress = .applying ∨ progress = .applied then rootsAfter roots front
        else rootsAfter roots state.quiesced)
  /-- The mirror has the last root staged since the mount, if any was. -/
  mirrored : ∀ nodeType, BTree.hasRootSlot nodeType = true →
    state.mirror nodeType = (last? nodeType state.cells).getD 0
  nonzero : ∀ cell ∈ state.cells, cell.2 ≠ 0
  /-- A root is not moved without a dirty block. -/
  dirty : ∀ tx, state.active = some tx → tx.dirty = [] → tx.rootCells = []

namespace Pipeline
variable {first : Nat → β} {roots : Nat → Nat} {state : Pipeline β}

theorem blocksAfter_append (first : Nat → β) (front : List (Txn β)) (group : Txn β) (block : Nat) :
    blocksAfter first (front ++ [group]) block =
      (group.read block).getD (blocksAfter first front block) := by
  unfold blocksAfter
  rw [flatMap_append, apply_append, apply_eq]
  simp [Txn.read]

theorem rootsAfter_append (roots : Nat → Nat) (front : List (Txn β)) (group : Txn β) :
    rootsAfter roots (front ++ [group]) = switched (rootsAfter roots front) group := by
  unfold rootsAfter
  rw [foldl_append]
  rfl

variable {nodeType : Nat}

theorem rootsAfter_eq (groups : List (Txn β)) : rootsAfter roots groups nodeType =
    if switchesRoot nodeType then
      (last? nodeType (groups.flatMap Txn.rootCells)).getD (roots nodeType)
    else roots nodeType := by
  induction groups using reverseRecOn with
  | nil => exact (ite_self _).symm
  | append_singleton front group ih =>
    rw [rootsAfter_append, flatMap_append, last?_append, flatMap_singleton]
    unfold switched
    rw [ih]
    split_ifs
    · cases last? nodeType group.rootCells <;> rfl
    · rfl

/-- Mirrored roots are switched in the superblock too. -/
theorem switchesRoot_of_slot (slot : BTree.hasRootSlot nodeType = true) :
    switchesRoot nodeType = true := by
  unfold BTree.hasRootSlot at slot
  unfold switchesRoot
  simp only [Bool.or_eq_true, beq_iff_eq] at slot ⊢
  omega

/-- The root moves, those of the transaction staging runs in last. -/
theorem cells_staging (state : Pipeline β) : state.cells =
    (state.quiesced ++ state.taken.toList).flatMap Txn.rootCells ++ state.staging.rootCells := by
  unfold cells staging
  cases state.active with
  | none => simp [Txn.new]
  | some tx => simp

variable {next : Pipeline β} {group : Txn β} {progress : Progress} {event : PipelineEvent β}

/-- A step that bumps no counter: the same group, if any, is on its way. -/
structure Steady (state next : Pipeline β) : Prop where
  taken : next.taken = none
  quiesced : next.quiesced = state.quiesced
  quiet : state.writing = none → next.writing = none
  busy : ∀ group progress, state.writing = some (group, progress) →
    ∃ progress', next.writing = some (group, progress')

/-- What a step of a writer or a commit does to what calls see. -/
def Follows (state next : Pipeline β) : Prop :=
  state.quiesced <+: next.quiesced ∧ (next.commitSeq = state.commitSeq + 1 ∨
    next.commitSeq = state.commitSeq ∧ (state.taken = none → Steady state next))

theorem follows_of_staged (quiesced : next.quiesced = state.quiesced)
    (seq : next.commitSeq = state.commitSeq) (taken : next.taken = none)
    (writing : next.writing = state.writing) : Follows state next := by
  refine ⟨by rw [quiesced], .inr ⟨seq, fun _ => ⟨taken, quiesced, ?_, ?_⟩⟩⟩
  · rw [writing]
    exact fun quiet => quiet
  · rw [writing]
    exact fun group progress busy => ⟨progress, busy⟩

section
variable (single : state.Single first roots)
include single

/-- Opening a context moves no root. -/
theorem Single.enter : (state.stage id).Single first roots := by
  have cells : (state.stage id).cells = state.cells := by
    rw [cells_staging, cells_staging]
    rfl
  refine { single with
    mirrored := cells ▸ single.mirrored, nonzero := cells ▸ single.nonzero, dirty := ?_ }
  intro tx active clean
  have is_staging : state.staging = tx := some.inj active
  subst is_staging
  unfold staging at clean ⊢
  cases is_active : state.active with
  | none => rfl
  | some current =>
    rw [is_active] at clean
    exact single.dirty current is_active clean

theorem Single.writeBlock (block : Nat) (content : β) :
    (state.writeBlock block content).Single first roots := by
  have cells : (state.writeBlock block content).cells = state.cells := by
    rw [cells_staging, cells_staging]
    rfl
  refine { single with
    mirrored := cells ▸ single.mirrored, nonzero := cells ▸ single.nonzero, dirty := ?_ }
  intro tx active clean
  have is_staging : state.staging.addBlock block content = tx := some.inj active
  rw [← is_staging] at clean
  exact absurd clean (by simp [Txn.addBlock])

/-- The copy of a root node is written and the root moved to it. -/
theorem Single.moveRoot (nodeType root : Nat) (node : β) (allocated : root ≠ 0) :
    ((state.writeBlock root node).setRootCell nodeType root).Single first roots := by
  have written := single.writeBlock root node
  have cells : ((state.writeBlock root node).setRootCell nodeType root).cells =
      (state.writeBlock root node).cells ++ [(nodeType, root)] := by
    rw [cells_staging, cells_staging]
    exact (append_assoc _ _ _).symm
  refine { written with mirrored := ?_, nonzero := ?_, dirty := ?_ }
  · intro other slot
    rw [cells, last?_append]
    by_cases same : nodeType = other
    · have moved :
          ((state.writeBlock root node).setRootCell nodeType root).mirror other = root := by
        unfold setRootCell
        dsimp only
        rw [same, if_pos slot, Function.update_self]
      rw [moved]
      simp [last?, same]
    · have kept : ((state.writeBlock root node).setRootCell nodeType root).mirror other =
          (state.writeBlock root node).mirror other := by
        unfold setRootCell
        dsimp only
        split_ifs
        · exact Function.update_of_ne (Ne.symm same) _ _
        · rfl
      rw [kept, written.mirrored other slot]
      simp [last?, same]
  · rw [cells]
    exact forall_mem_append.mpr ⟨written.nonzero, forall_mem_singleton.mpr allocated⟩
  · intro tx active clean
    have is_staging : ((state.writeBlock root node).staging).addRoot nodeType root = tx :=
      some.inj active
    rw [← is_staging] at clean
    have written_block : (state.staging.dirty ++ [(root, node)]) = [] := clean
    exact absurd written_block (by simp)

theorem Single.discard (active : state.active = some group) (empty : group.dirty.isEmpty) :
    { state with active := none }.Single first roots := by
  have cells : { state with active := none }.cells = state.cells := by
    have unmoved := single.dirty group active (isEmpty_iff.mp empty)
    unfold Pipeline.cells
    rw [active]
    simp [unmoved]
  exact { single with
    mirrored := cells ▸ single.mirrored, nonzero := cells ▸ single.nonzero
    dirty := nofun }

/-- The active transaction is taken: `commit_seq` becomes odd. -/
theorem Single.take (active : state.active = some group) (untaken : state.taken = none)
    (unlocked : state.writing = none) :
    { state with
      active := none, taken := some group, commitSeq := state.commitSeq + 1 }.Single first
        roots := by
  have cells : { state with
      active := none, taken := some group, commitSeq := state.commitSeq + 1 }.cells =
      state.cells := by
    unfold Pipeline.cells
    rw [active, untaken]
    rfl
  refine { single with
    parity := ?_, locked := fun _ => unlocked, mirrored := cells ▸ single.mirrored
    nonzero := cells ▸ single.nonzero, dirty := nofun }
  have even := single.parity
  rw [untaken, unlocked] at even
  have is_even : state.commitSeq % 2 = 0 := even
  show (state.commitSeq + 1) % 2 = if _ then 0 else 1
  rw [if_neg (by simp)]
  omega

theorem Single.push (taken : state.taken = some group) :
    (state.pushed group).Single first roots := by
  have unlocked : state.writing = none := single.locked (by rw [taken]; rfl)
  obtain ⟨empty, disk, same_roots⟩ := single.quiet unlocked
  have cells : (state.pushed group).cells = state.cells := by
    unfold Pipeline.cells Pipeline.pushed
    rw [taken]
    simp
  refine { single with
    parity := ?_, locked := nofun, quiet := nofun, busy := ?_
    mirrored := cells ▸ single.mirrored, nonzero := cells ▸ single.nonzero }
  · have odd := single.parity
    rw [taken] at odd
    have is_odd := odd
    show state.commitSeq % 2 = if _ then 0 else 1
    rw [if_neg (by simp [pushed])]
    exact is_odd
  · intro other progress same
    have both := Prod.mk.inj (some.inj same)
    rw [← both.1, ← both.2]
    refine ⟨state.quiesced, rfl, ?_, ?_, ?_, ?_⟩
    · show state.committing ++ [group] = if Progress.applying = .dropped then [] else [group]
      rw [empty, if_neg (by decide)]
      rfl
    · intro _ block _
      exact congrFun disk block
    · intro started
      exact (started rfl).elim
    · show state.roots = if _ then _ else _
      rw [if_pos (.inl rfl)]
      exact same_roots

theorem Single.untaken (writing : state.writing = some (group, progress)) : state.taken = none := by
  cases is_taken : state.taken with
  | none => rfl
  | some other =>
    have unlocked := single.locked (by rw [is_taken]; rfl)
    rw [writing] at unlocked
    cases unlocked

/-- A step of a commit that leaves the staging side alone. -/
theorem Single.commit (writing : state.writing = some (group, progress)) {progress' : Progress}
    {committing front : List (Txn β)} {disk : Nat → β} {roots' : Nat → Nat}
    (is_next : next = { state with
      writing := some (group, progress'), committing := committing, disk := disk
      roots := roots' })
    (last : state.quiesced = front ++ [group])
    (listed : committing = if progress' = .dropped then [] else [group])
    (partly : progress' = .applying → ∀ block, group.read block = none →
      disk block = blocksAfter first front block)
    (whole : progress' ≠ .applying → disk = blocksAfter first state.quiesced)
    (same_roots : roots' = (if progress' = .applying ∨ progress' = .applied then
      rootsAfter roots front else rootsAfter roots state.quiesced)) :
    next.Single first roots ∧ Follows state next := by
  have untaken := single.untaken writing
  subst is_next
  refine ⟨{ single with parity := ?_, locked := ?_, quiet := nofun, busy := ?_ },
    prefix_refl _, .inr ⟨rfl, fun _ => ⟨untaken, rfl, ?_, ?_⟩⟩⟩
  · have odd := single.parity
    rw [writing] at odd
    show state.commitSeq % 2 = _
    rw [odd]
    simp
  · show state.taken.isSome → _
    rw [untaken]
    intro no
    cases no
  · intro other later same
    obtain ⟨rfl, rfl⟩ := Prod.mk.inj (some.inj same)
    exact ⟨front, last, listed, partly, whole, same_roots⟩
  · intro quiet
    rw [writing] at quiet
    cases quiet
  · intro other _ busy
    rw [writing] at busy
    rw [← (Prod.mk.inj (some.inj busy)).1]
    exact ⟨progress', rfl⟩

/-- The group is done: `commit_seq` becomes even. -/
theorem Single.finish (writing : state.writing = some (group, .dropped)) :
    { state with writing := none, commitSeq := state.commitSeq + 1 }.Single first roots := by
  have untaken := single.untaken writing
  obtain ⟨front, last, committing, -, whole, same_roots⟩ := single.busy group .dropped writing
  rw [if_pos rfl] at committing
  rw [if_neg (by decide)] at same_roots
  refine { single with
    parity := ?_, locked := fun _ => rfl,
    quiet := fun _ => ⟨committing, whole (by decide), same_roots⟩
    busy := nofun }
  have odd := single.parity
  rw [writing] at odd
  have is_odd : state.commitSeq % 2 = 1 := by simpa using odd
  show (state.commitSeq + 1) % 2 = if state.taken.isNone ∧ true then 0 else 1
  rw [untaken, if_pos ⟨rfl, rfl⟩]
  omega

theorem Single.advance (writing : state.writing = some (group, progress)) (succeeds : event ≠ .fail)
    (stepped : Vfs.advance state group progress event = some next) :
    next.Single first roots ∧ Follows state next := by
  obtain ⟨front, last, committing, partly, whole, same_roots⟩ := single.busy group progress writing
  unfold Vfs.advance at stepped
  split at stepped
  · rename_i blocks
    cases stepped
    refine single.commit writing (by rw [← writing]) last committing ?_ ?_ same_roots
    · intro _ block absent
      rw [← partly rfl block absent]
      refine apply_of_not_mem (fun write mem same => ?_) _
      obtain ⟨landed, -, found⟩ := mem_filterMap.mp mem
      obtain ⟨content, read, rfl⟩ := map_eq_some_iff.mp found
      have same_block : landed = block := same
      rw [same_block, absent] at read
      cases read
    · exact fun started => (started rfl).elim
  · cases stepped
    refine single.commit writing rfl last committing ?_ ?_ same_roots
    · intro no
      cases no
    · intro _
      funext block
      show apply group.dirty state.disk block = _
      rw [last, blocksAfter_append, apply_eq]
      cases read : group.read block with
      | some content =>
        unfold Txn.read at read
        rw [read]
        rfl
      | none =>
        rw [partly rfl block read]
        unfold Txn.read at read
        rw [read]
  · cases stepped
    refine single.commit writing rfl last committing ?_ (fun _ => whole (by decide)) ?_
    · intro no
      cases no
    · rw [if_pos (.inr rfl)] at same_roots
      rw [if_neg (by decide)]
      show switched state.roots group = rootsAfter roots state.quiesced
      rw [same_roots, last, rootsAfter_append]
  · cases stepped
    refine single.commit writing rfl last ?_ ?_ (fun _ => whole (by decide)) same_roots
    · show state.committing.filter _ = _
      rw [committing]
      simp
    · intro no
      cases no
  · cases stepped
    exact ⟨single.finish writing, prefix_refl _, .inl rfl⟩
  · exact (succeeds rfl).elim
  · exact (succeeds rfl).elim
  · cases stepped

theorem Single.step (succeeds : event ≠ .fail) (stepped : pipelineStep state event = some next) :
    next.Single first roots ∧ Follows state next := by
  cases stepped_of_pipelineStep stepped with
  | push taken =>
    refine ⟨single.push taken, prefix_append _ _, .inr ⟨rfl, fun untaken => ?_⟩⟩
    rw [taken] at untaken
    cases untaken
  | enter untaken => exact ⟨single.enter, follows_of_staged rfl rfl untaken rfl⟩
  | write untaken block content =>
    exact ⟨single.writeBlock block content, follows_of_staged rfl rfl untaken rfl⟩
  | moveRoot untaken nodeType root node allocated =>
    exact ⟨single.moveRoot nodeType root node allocated, follows_of_staged rfl rfl untaken rfl⟩
  | discard untaken active empty =>
    exact ⟨single.discard active empty, follows_of_staged rfl rfl untaken rfl⟩
  | take untaken unlocked active =>
    exact ⟨single.take active untaken unlocked, prefix_refl _, .inl rfl⟩
  | advance untaken writing stepped => exact single.advance writing succeeds stepped

end

/-- What a call that took its copies sees: nothing on its way, or one group, which is in the list
of the call. -/
def View (roots : Nat → Nat) (state : Pipeline β) (copied : Nat → Nat) (pending : List (Txn β)) :
    Prop :=
  state.writing = none ∧ pending = [] ∧ copied = rootsAfter roots state.quiesced ∨
    ∃ group progress front, state.writing = some (group, progress) ∧ pending = [group] ∧
      state.quiesced = front ++ [group] ∧
      (copied = rootsAfter roots front ∨ copied = rootsAfter roots state.quiesced)

variable {pending : List (Txn β)} {copied : Nat → Nat}

/-- A block read by such a call is that after all quiesced groups. -/
theorem Single.read_block (single : state.Single first roots)
    (view : state.View roots copied pending) (block : Nat) :
    readBlock none pending state.disk block = blocksAfter first state.quiesced block := by
  rcases view with ⟨quiet, rfl, -⟩ | ⟨group, progress, front, busy, rfl, last, -⟩
  · show state.disk block = _
    rw [(single.quiet quiet).2.1]
  · obtain ⟨front', last', -, partly, whole, -⟩ := single.busy group progress busy
    have same_front : front = front' := by
      rw [last] at last'
      exact (append_inj' last' rfl).1
    subst same_front
    unfold readBlock
    rw [bind_none, none_or, overlay_singleton]
    cases read : group.read block with
    | some content =>
      rw [last, blocksAfter_append, read]
      rfl
    | none =>
      show state.disk block = _
      by_cases applying : progress = .applying
      · rw [partly applying block read, last, blocksAfter_append, read]
        rfl
      · rw [whole applying]

/-- The moves of a root, when the active transaction does not move it. -/
theorem Single.last_cell (untaken : state.taken = none)
    (inactive : (state.active.bind fun tx => last? nodeType tx.rootCells) = none) :
    last? nodeType state.cells = last? nodeType (state.quiesced.flatMap Txn.rootCells) := by
  rw [cells_staging, untaken, toList_none, append_nil, last?_append]
  have unmoved : last? nodeType state.staging.rootCells = none := by
    unfold staging
    cases active : state.active with
    | none => rfl
    | some tx =>
      rw [active] at inactive
      exact inactive
  rw [unmoved, none_or]

/-- A root resolved by such a call, while it is not on the move, is that after all groups. -/
theorem Single.effectiveRoot (single : state.Single first roots) (untaken : state.taken = none)
    (view : state.View roots copied pending) {seq : Nat} {next : Nat → Reading β R}
    (still : RootsStill state (.reading seq copied pending (.root nodeType next))) :
    state.effectiveRoot copied nodeType = rootsAfter roots state.quiesced nodeType := by
  unfold RootsStill at still
  dsimp only at still
  unfold Pipeline.effectiveRoot
  cases slot : BTree.hasRootSlot nodeType with
  | true =>
    have switches := switchesRoot_of_slot slot
    rw [if_pos slot] at still
    rw [single.mirrored nodeType slot, last_cell untaken still, rootsAfter_eq, if_pos switches]
    cases moved : last? nodeType (state.quiesced.flatMap Txn.rootCells) with
    | some root =>
      have root_ne : root ≠ 0 := by
        refine single.nonzero (nodeType, root) ?_
        rw [cells_staging, flatMap_append, append_assoc]
        exact mem_append_left _ (mem_of_last? moved)
      simp [root_ne]
    | none =>
      simp only [getD_none, bne_self_eq_false, Bool.and_false, Bool.false_eq_true, if_false]
      rcases view with ⟨-, -, rfl⟩ | ⟨group, progress, front, -, -, last, rfl | rfl⟩
      · rw [rootsAfter_eq, if_pos switches, moved, getD_none]
      · rw [last, flatMap_append, last?_append, or_eq_none_iff] at moved
        rw [rootsAfter_eq, if_pos switches, moved.2, getD_none]
      · rw [rootsAfter_eq, if_pos switches, moved, getD_none]
  | false =>
    rw [if_neg (by rw [slot]; exact Bool.false_ne_true)] at still
    simp only [Bool.false_and, Bool.false_eq_true, if_false]
    rcases view with ⟨-, -, rfl⟩ | ⟨group, progress, front, -, rfl, last, rfl | rfl⟩
    · rfl
    · rw [last, rootsAfter_append]
      unfold switched
      split_ifs with switches
      · cases moved : last? nodeType group.rootCells with
        | none => rfl
        | some root => exact still group mem_cons_self root moved switches
      · rfl
    · rfl

/-- What a call sees stays when no counter is bumped. -/
theorem Steady.view (steady : Steady state next) (view : state.View roots copied pending) :
    next.View roots copied pending := by
  rcases view with ⟨quiet, empty, same⟩ | ⟨group, progress, front, busy, alone, last, same⟩
  · refine .inl ⟨steady.quiet quiet, empty, ?_⟩
    rwa [steady.quiesced]
  · obtain ⟨progress', busy'⟩ := steady.busy group progress busy
    refine .inr ⟨group, progress', front, busy', alone, ?_⟩
    rw [steady.quiesced]
    exact ⟨last, same⟩

end Pipeline

section Reader
variable {first : Nat → β} {roots : Nat → Nat} {closure : Reading β R}

/-- The closure's value on the state after all quiesced groups. -/
def Pipeline.value (first : Nat → β) (roots : Nat → Nat) (closure : Reading β R)
    (state : Pipeline β) : R :=
  closure.eval (blocksAfter first state.quiesced) (rootsAfter roots state.quiesced)

/-- What holds of a call: as long as `commit_seq` is what it sampled, it sees one state. -/
def Scratch.Ok (first : Nat → β) (roots : Nat → Nat) (closure : Reading β R) (state : Pipeline β) :
    Scratch β R → Prop
  | .sampling => True
  | .odd seq => seq ≤ state.commitSeq
  | .oddPending seq pending => seq ≤ state.commitSeq ∧ (state.commitSeq = seq →
    state.taken = none ∧ ∃ group progress, state.writing = some (group, progress) ∧
      pending = [group])
  | .even seq => seq ≤ state.commitSeq ∧ seq % 2 = 0
  | .evenCopied seq copied => seq ≤ state.commitSeq ∧ seq % 2 = 0 ∧
    (state.commitSeq = seq → copied = rootsAfter roots state.quiesced)
  | .reading seq copied pending rest => seq ≤ state.commitSeq ∧ (state.commitSeq = seq →
    state.taken = none ∧ state.View roots copied pending ∧
      state.value first roots rest = state.value first roots closure)
  | .checking seq result => seq ≤ state.commitSeq ∧ (state.commitSeq = seq →
    state.taken = none ∧ result = state.value first roots closure)
  | .returned result => ∃ front, front <+: state.quiesced ∧
    result = closure.eval (blocksAfter first front) (rootsAfter roots front)

/-- With an even counter nothing is on its way. -/
theorem Pipeline.Single.idle {state : Pipeline β} (single : state.Single first roots)
    (even : state.commitSeq % 2 = 0) : state.taken = none ∧ state.writing = none := by
  have parity := single.parity
  rw [even] at parity
  split_ifs at parity with both
  exact ⟨isNone_iff_eq_none.mp both.1, isNone_iff_eq_none.mp both.2⟩

/-- A step of a writer or a commit keeps what holds of a call. -/
theorem Scratch.Ok.follow {state next : Pipeline β} (single : state.Single first roots)
    (follows : Pipeline.Follows state next) {call : Scratch β R}
    (ok : call.Ok first roots closure state) : call.Ok first roots closure next := by
  obtain ⟨grown, kind⟩ := follows
  have later : state.commitSeq ≤ next.commitSeq := by
    rcases kind with bumped | ⟨same, -⟩ <;> omega
  -- a call whose counter is still the current one has seen no bump
  have steady : ∀ seq, seq ≤ state.commitSeq → next.commitSeq = seq →
      state.commitSeq = seq ∧ (state.taken = none → Pipeline.Steady state next) := by
    intro seq sampled now
    rcases kind with bumped | ⟨same, steady⟩
    · omega
    · exact ⟨same ▸ now, steady⟩
  cases call with
  | sampling => trivial
  | odd seq => exact le_trans ok later
  | oddPending seq pending =>
    refine ⟨ok.1.trans later, fun now => ?_⟩
    obtain ⟨here, steady⟩ := steady seq ok.1 now
    obtain ⟨untaken, group, progress, busy, alone⟩ := ok.2 here
    obtain ⟨progress', busy'⟩ := (steady untaken).busy group progress busy
    exact ⟨(steady untaken).taken, group, progress', busy', alone⟩
  | even seq => exact ⟨ok.1.trans later, ok.2⟩
  | evenCopied seq copied =>
    refine ⟨ok.1.trans later, ok.2.1, fun now => ?_⟩
    obtain ⟨here, steady⟩ := steady seq ok.1 now
    have untaken := (single.idle (here ▸ ok.2.1)).1
    rw [(steady untaken).quiesced]
    exact ok.2.2 here
  | reading seq copied pending rest =>
    refine ⟨ok.1.trans later, fun now => ?_⟩
    obtain ⟨here, steady⟩ := steady seq ok.1 now
    obtain ⟨untaken, view, value⟩ := ok.2 here
    refine ⟨(steady untaken).taken, (steady untaken).view view, ?_⟩
    unfold Pipeline.value at value ⊢
    rwa [(steady untaken).quiesced]
  | checking seq result =>
    refine ⟨ok.1.trans later, fun now => ?_⟩
    obtain ⟨here, steady⟩ := steady seq ok.1 now
    obtain ⟨untaken, value⟩ := ok.2 here
    refine ⟨(steady untaken).taken, ?_⟩
    unfold Pipeline.value at value ⊢
    rwa [(steady untaken).quiesced]
  | returned result =>
    obtain ⟨front, part, value⟩ := ok
    exact ⟨front, part.trans grown, value⟩

theorem Scratch.Ok.step {state : Pipeline β} (single : state.Single first roots)
    {call call' : Scratch β R} (ok : call.Ok first roots closure state)
    (still : RootsStill state call) (stepped : scratchStep state closure call = some call') :
    call'.Ok first roots closure state := by
  cases call with
  | sampling =>
    cases stepped
    split_ifs with odd
    · exact le_refl _
    · exact ⟨le_refl _, by omega⟩
  | odd seq =>
    cases stepped
    split_ifs with empty
    · trivial
    · refine ⟨ok, fun _ => ?_⟩
      cases writing : state.writing with
      | none =>
        rw [(single.quiet writing).1] at empty
        exact (empty rfl).elim
      | some pair =>
        obtain ⟨front, -, committing, -⟩ := single.busy pair.1 pair.2 writing
        refine ⟨single.untaken writing, pair.1, pair.2, rfl, ?_⟩
        rw [committing] at empty ⊢
        split_ifs at empty ⊢
        · exact (empty rfl).elim
        · rfl
  | oddPending seq pending =>
    cases stepped
    refine ⟨ok.1, fun same => ?_⟩
    obtain ⟨untaken, group, progress, busy, alone⟩ := ok.2 same
    obtain ⟨front, last, -, -, -, same_roots⟩ := single.busy group progress busy
    refine ⟨untaken, .inr ⟨group, progress, front, busy, alone, last, ?_⟩, rfl⟩
    rw [same_roots]
    split_ifs
    · exact .inl rfl
    · exact .inr rfl
  | even seq =>
    cases stepped
    refine ⟨ok.1, ok.2, fun same => ?_⟩
    have idle := single.idle (same ▸ ok.2)
    exact (single.quiet idle.2).2.2
  | evenCopied seq copied =>
    cases stepped
    refine ⟨ok.1, fun same => ?_⟩
    have idle := single.idle (same ▸ ok.2.1)
    exact ⟨idle.1, .inl ⟨idle.2, (single.quiet idle.2).1, ok.2.2 same⟩, rfl⟩
  | reading seq copied pending rest =>
    cases rest with
    | done result =>
      cases stepped
      exact ⟨ok.1, fun same => ⟨(ok.2 same).1, (ok.2 same).2.2⟩⟩
    | block number next =>
      cases stepped
      refine ⟨ok.1, fun same => ?_⟩
      obtain ⟨untaken, view, value⟩ := ok.2 same
      refine ⟨untaken, view, ?_⟩
      rw [← value, single.read_block view number]
      rfl
    | root nodeType next =>
      cases stepped
      refine ⟨ok.1, fun same => ?_⟩
      obtain ⟨untaken, view, value⟩ := ok.2 same
      refine ⟨untaken, view, ?_⟩
      rw [← value, single.effectiveRoot untaken view still]
      rfl
  | checking seq result =>
    cases stepped
    split_ifs with same
    · exact ⟨state.quiesced, prefix_refl _, (ok.2 same).2⟩
    · trivial
  | returned result => cases stepped

theorem Pipeline.single_mounted (nextTxId : Nat) :
    (Pipeline.mounted first roots nextTxId).Single first roots := by
  constructor
  · rfl
  · exact fun _ => rfl
  · exact fun _ => ⟨rfl, rfl, rfl⟩
  · intro group progress no
    cases no
  · exact fun _ _ => rfl
  · intro cell mem
    cases mem
  · intro tx no
    cases no

/-- A call of `with_scratch_ctx` that returns, in any interleaving in which no commit fails and the
call resolves no root that is on the move, returns the value of its closure on one state. -/
theorem scratch_read_consistent (first : Nat → β) (roots : Nat → Nat) (nextTxId : Nat)
    (closure : Reading β R) (events : List (Option (PipelineEvent β)))
    (both : Pipeline β × Scratch β R)
    (still : Machine.Along (readerStep closure) Still events
      (.mounted first roots nextTxId, .sampling))
    (ran : run (readerStep closure) events (.mounted first roots nextTxId, .sampling) =
      some both) : Consistent first roots closure both := by
  have keeps : ∀ (state : Pipeline β × Scratch β R) event next,
      (state.1.Single first roots ∧ state.2.Ok first roots closure state.1) → Still state event →
      readerStep closure state event = some next →
      next.1.Single first roots ∧ next.2.Ok first roots closure next.1 := by
    rintro state event next ⟨single, ok⟩ allowed stepped
    cases event with
    | some event =>
      obtain ⟨after, taken, rfl⟩ := map_eq_some_iff.mp stepped
      have succeeds : event ≠ .fail := by
        rintro rfl
        exact allowed
      obtain ⟨kept, follows⟩ := single.step succeeds taken
      exact ⟨kept, ok.follow single follows⟩
    | none =>
      obtain ⟨after, taken, rfl⟩ := map_eq_some_iff.mp stepped
      exact ⟨single, ok.step single allowed taken⟩
  have start : (Pipeline.mounted first roots nextTxId).Single first roots ∧
      (Scratch.sampling : Scratch β R).Ok first roots closure (.mounted first roots nextTxId) :=
    ⟨Pipeline.single_mounted nextTxId, trivial⟩
  have inv := run_keeps keeps start still ran
  intro result returned
  have ok := inv.2
  cases call : both.2 with
  | returned value =>
    rw [call] at ok returned
    have same : value = result := some.inj returned
    rw [← same]
    exact ok
  | _ =>
    rw [call] at returned
    cases returned

end Reader

/-- A closure that resolves the root of the inode tree and reads its node. -/
def rootNode : Reading Nat (Nat × Nat) :=
  .root 1 fun root => .block root fun node => .done (root, node)

/-- A group with the root node is quiesced and half applied while a call reads. -/
def overlappedRead : List (Option (PipelineEvent Nat)) :=
  [some (.write 10 5), some .take, some .push, none, none, some (.land [10]), none, none,
    some .settle, none, none, none]

/-- The call returns the node of that group, under the root it always had. -/
theorem overlapped_read_consistent : ∃ both,
    run (readerStep rootNode) overlappedRead
      (.mounted (fun _ => 0) (fun _ => 10) 1, .sampling) = some both ∧
    both.2.result? = some (10, 5) ∧ Consistent (fun _ => 0) (fun _ => 10) rootNode both := by
  have facts : (run (readerStep rootNode) overlappedRead
      (.mounted (fun _ => 0) (fun _ => 10) 1, .sampling)).map (fun both => both.2.result?) =
      some (some (10, 5)) := by decide
  obtain ⟨both, ran, returned⟩ := map_eq_some_iff.mp facts
  refine ⟨both, ran, returned, scratch_read_consistent _ _ 1 rootNode overlappedRead both ?_ ran⟩
  exact ⟨trivial, trivial, trivial, trivial, trivial, trivial, trivial, rfl, trivial, trivial,
    trivial, trivial, trivial⟩

/-- A staged move of the inode tree's root, then a call. -/
def stagedMove : List (Option (PipelineEvent Nat)) :=
  [some (.moveRoot 1 20 5), none, none, none, none, none, none, none]

/-- The call returns the new root with what the device has at its block, though the transaction
that moved it is still active: the value of its closure on no state. -/
theorem staged_root_read_early : ¬ ∀ (first : Nat → Nat) (roots : Nat → Nat) (nextTxId : Nat)
    (closure : Reading Nat (Nat × Nat)) (events : List (Option (PipelineEvent Nat)))
    (both : Pipeline Nat × Scratch Nat (Nat × Nat)),
    run (readerStep closure) events (.mounted first roots nextTxId, .sampling) =
      some both → Consistent first roots closure both := by
  intro consistent
  have facts : (run (readerStep rootNode) stagedMove
      (.mounted (fun _ => 0) (fun _ => 10) 1, .sampling)).map
      (fun both => (both.2.result?, both.1.quiesced.isEmpty)) = some (some (20, 0), true) := by
    decide
  obtain ⟨both, ran, all⟩ := map_eq_some_iff.mp facts
  rw [Prod.mk.injEq] at all
  obtain ⟨front, part, value⟩ := consistent _ _ _ _ _ both ran (20, 0) all.1
  rw [isEmpty_iff.mp all.2] at part
  rw [prefix_nil.mp part] at value
  exact absurd value (by decide)

end LionFS.Vfs
