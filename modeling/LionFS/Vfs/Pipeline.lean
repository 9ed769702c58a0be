import LionFS.Data.Machine
import LionFS.Data.Writes
import LionFS.BTree.Tree

/-!
# The commit pipeline

What staging, quiescing and committing do to the blocks and the tree roots, and
what a context reads while a group is on its way to the device. Writers stage into
the active transaction under the staging lock; `commit_one` takes it out, pushes it
to the pending list, applies its blocks to the home blocks of the device, switches
the roots in the superblock, and retires the group. A group whose commit failed is
kept in the list.

The journal and the superblock slots are written by commits only and read by no
context; the device here is the home blocks. Contents are of any type.
-/
namespace LionFS.Vfs
variable {β : Type}

/-- `Transaction`. -/
structure Txn (β : Type) where
  id : Nat
  /-- `dirty_blocks`, as the writes that filled it. -/
  dirty : List (Nat × β)
  /-- `root_cells`, as the moves that filled it. -/
  rootCells : List (Nat × Nat)

/-- `Transaction::new`. -/
def Txn.new (id : Nat) : Txn β := ⟨id, [], []⟩

/-- `Transaction::add_block`. -/
def Txn.addBlock (block : Nat) (content : β) (tx : Txn β) : Txn β :=
  { tx with dirty := tx.dirty ++ [(block, content)] }

/-- A root cell is set. -/
def Txn.addRoot (nodeType root : Nat) (tx : Txn β) : Txn β :=
  { tx with rootCells := tx.rootCells ++ [(nodeType, root)] }

/-- The content of a dirty block. -/
def Txn.read (tx : Txn β) (block : Nat) : Option β := Writes.last? block tx.dirty

/-- The blocks of pending groups, oldest first; the newest group that has a block is read. -/
def overlay : List (Txn β) → Nat → Option β
  | [], _ => none
  | tx :: newer, block => (overlay newer block).or (tx.read block)

/-- `TxContext::read_block` of a context over a transaction, pending groups and the device. -/
def readBlock (tx : Option (Txn β)) (pending : List (Txn β)) (disk : Nat → β) (block : Nat) : β :=
  ((tx.bind fun tx => tx.read block).or (overlay pending block)).getD (disk block)

/-- How far `commit_one` is with a quiesced group. -/
inductive Progress where
  /-- `commit_tx` is in the journal commit: some blocks may be at home. -/
  | applying
  /-- The journal commit returned. -/
  | applied
  /-- The roots in the superblock are switched. -/
  | switched
  /-- The group is out of the pending list. -/
  | dropped
deriving DecidableEq

/-- What the threads share of the blocks and the roots. -/
structure Pipeline (β : Type) where
  /-- The home blocks of the device. -/
  disk : Nat → β
  /-- The roots in the superblock, by node type. -/
  roots : Nat → Nat
  /-- `Disk::frozen_roots`, by node type; zero for a root that never moved. -/
  mirror : Nat → Nat
  /-- `active_tx`. -/
  active : Option (Txn β)
  /-- What `quiesce_tx` has taken and not pushed yet; it has the staging lock. -/
  taken : Option (Txn β)
  /-- `committing`, oldest first. -/
  committing : List (Txn β)
  /-- The group in its I/O phase; the thread has `commit_io`. -/
  writing : Option (Txn β × Progress)
  commitSeq : Nat
  /-- `current_tx_id`. -/
  nextTxId : Nat
  /-- The staged writes so far, oldest first. -/
  log : List (Nat × β)
  /-- The groups quiesced so far, oldest first. -/
  quiesced : List (Txn β)

namespace Pipeline

/-- After mount: nothing staged, no root moved. -/
def mounted (disk : Nat → β) (roots : Nat → Nat) (nextTxId : Nat) : Pipeline β where
  disk := disk
  roots := roots
  mirror := fun _ => 0
  active := none
  taken := none
  committing := []
  writing := none
  commitSeq := 0
  nextTxId := nextTxId
  log := []
  quiesced := []

variable (state : Pipeline β)

/-- The transaction staging runs in: the active one, or a new one. -/
def staging : Txn β := state.active.getD (.new state.nextTxId)

/-- The active transaction is changed by a staging context. -/
def stage (change : Txn β → Txn β) : Pipeline β :=
  { state with
    active := some (change state.staging)
    nextTxId := if state.active.isNone then state.nextTxId + 1 else state.nextTxId }

/-- `TxContext::write_block`. -/
def writeBlock (block : Nat) (content : β) : Pipeline β :=
  { state.stage (Txn.addBlock block content) with
    log := state.log ++ [(block, content)] }

/-- `TxContext::set_root_cell`. -/
def setRootCell (nodeType root : Nat) : Pipeline β :=
  { state.stage (Txn.addRoot nodeType root) with
    mirror := if BTree.hasRootSlot nodeType then Function.update state.mirror nodeType root
      else state.mirror }

/-- The blocks among the given ones that a group has, with their contents. -/
def landing (group : Txn β) (blocks : List Nat) : List (Nat × β) :=
  blocks.filterMap fun block => (group.read block).map fun content => (block, content)

/-- `commit_tx` syncs root cells of these trees into the superblock: inode, dir, checksum,
refcount, clone and xattr. -/
def switchesRoot (nodeType : Nat) : Bool :=
  nodeType == 1 || nodeType == 2 || nodeType == 5 || nodeType == 7 || nodeType == 9 ||
    nodeType == 13

/-- The superblock's roots with a group's root cells. -/
def switched (roots : Nat → Nat) (group : Txn β) : Nat → Nat := fun nodeType =>
  if switchesRoot nodeType then (Writes.last? nodeType group.rootCells).getD (roots nodeType)
  else roots nodeType

end Pipeline

/-- The steps of writers and committers. -/
inductive PipelineEvent (β : Type) where
  /-- A staging context is opened. -/
  | enter
  /-- It writes a block. -/
  | write (block : Nat) (content : β)
  /-- It writes the copy of a root node to a block it allocated, and moves the root there; block
  zero, the superblock, is never allocated. -/
  | moveRoot (nodeType root : Nat) (node : β)
  /-- `quiesce_tx` takes the active transaction and bumps `commit_seq`. -/
  | take
  /-- It pushes the group to the pending list. -/
  | push
  /-- The apply loop writes some blocks of the group. -/
  | land (blocks : List Nat)
  /-- The journal commit returned Ok: all blocks are written. -/
  | settle
  /-- The roots in the superblock are switched. -/
  | switch
  /-- `commit_tx` failed: the group is kept. -/
  | fail
  /-- The group is dropped from the pending list. -/
  | drop
  /-- `commit_seq` is bumped and `commit_io` released. -/
  | finish

/-- `commit_tx` and the retirement of a group, from one progress to the next. -/
def advance (state : Pipeline β) (group : Txn β) : Progress → PipelineEvent β → Option (Pipeline β)
  | .applying, .land blocks =>
    some { state with disk := Writes.apply (Pipeline.landing group blocks) state.disk }
  | .applying, .settle =>
    some { state with
      disk := Writes.apply group.dirty state.disk
      writing := some (group, .applied) }
  | .applied, .switch =>
    some { state with
      roots := Pipeline.switched state.roots group
      writing := some (group, .switched) }
  | .switched, .drop =>
    some { state with
      committing := state.committing.filter fun other => decide (other.id ≠ group.id)
      writing := some (group, .dropped) }
  | .dropped, .finish => some { state with writing := none, commitSeq := state.commitSeq + 1 }
  | .applying, .fail => some { state with writing := none }
  | .switched, .fail => some { state with writing := none }
  | _, _ => none

/-- `quiesce_tx` up to the push. -/
def quiesceTake (state : Pipeline β) : Option (Pipeline β) :=
  match state.active with
  | none => none
  | some group =>
    if group.dirty.isEmpty then some { state with active := none }
    else some { state with active := none, taken := some group, commitSeq := state.commitSeq + 1 }

/-- One step. Staging and taking need the staging lock, taking also the commit lock. -/
def pipelineStep (state : Pipeline β) (event : PipelineEvent β) : Option (Pipeline β) :=
  match state.taken with
  | some group =>
    match event with
    | .push =>
      some { state with
        taken := none
        committing := state.committing ++ [group]
        quiesced := state.quiesced ++ [group]
        writing := some (group, .applying) }
    | _ => none
  | none =>
    match event with
    | .enter => some (state.stage id)
    | .write block content => some (state.writeBlock block content)
    | .moveRoot nodeType root node =>
      if root = 0 then none else some ((state.writeBlock root node).setRootCell nodeType root)
    | .take => if state.writing.isNone then quiesceTake state else none
    | event =>
      match state.writing with
      | some (group, progress) => advance state group progress event
      | none => none

/-- The group that was taken goes to the list. -/
def Pipeline.pushed (state : Pipeline β) (group : Txn β) : Pipeline β :=
  { state with
    taken := none
    committing := state.committing ++ [group]
    quiesced := state.quiesced ++ [group]
    writing := some (group, .applying) }

/-- What a step can do. -/
inductive Stepped (state : Pipeline β) : PipelineEvent β → Pipeline β → Prop
  | push {group : Txn β} (taken : state.taken = some group) :
    Stepped state .push (state.pushed group)
  | enter (untaken : state.taken = none) : Stepped state .enter (state.stage id)
  | write (untaken : state.taken = none) (block : Nat) (content : β) :
    Stepped state (.write block content) (state.writeBlock block content)
  | moveRoot (untaken : state.taken = none) (nodeType root : Nat) (node : β)
    (allocated : root ≠ 0) :
    Stepped state (.moveRoot nodeType root node)
      ((state.writeBlock root node).setRootCell nodeType root)
  /-- An active transaction without dirty blocks is dropped. -/
  | discard {group : Txn β} (untaken : state.taken = none) (active : state.active = some group)
    (empty : group.dirty.isEmpty) : Stepped state .take { state with active := none }
  | take {group : Txn β} (untaken : state.taken = none) (unlocked : state.writing = none)
    (active : state.active = some group) :
    Stepped state .take
      { state with active := none, taken := some group, commitSeq := state.commitSeq + 1 }
  /-- A commit goes on. -/
  | advance {event : PipelineEvent β} {group : Txn β} {progress : Progress} {next : Pipeline β}
    (untaken : state.taken = none) (writing : state.writing = some (group, progress))
    (stepped : advance state group progress event = some next) : Stepped state event next

theorem stepped_of_pipelineStep {state next : Pipeline β} {event : PipelineEvent β}
    (stepped : pipelineStep state event = some next) : Stepped state event next := by
  unfold pipelineStep at stepped
  cases taken : state.taken with
  | some group =>
    rw [taken] at stepped
    cases event with
    | push =>
      cases stepped
      exact .push taken
    | _ => cases stepped
  | none =>
    rw [taken] at stepped
    dsimp only at stepped
    cases event with
    | enter =>
      cases stepped
      exact .enter taken
    | write block content =>
      cases stepped
      exact .write taken block content
    | moveRoot nodeType root node =>
      dsimp only at stepped
      split_ifs at stepped with zero
      cases stepped
      exact .moveRoot taken nodeType root node zero
    | take =>
      dsimp only at stepped
      split_ifs at stepped with unlocked
      unfold quiesceTake at stepped
      cases active : state.active with
      | none =>
        rw [active] at stepped
        cases stepped
      | some group =>
        rw [active] at stepped
        dsimp only at stepped
        split_ifs at stepped with empty
        · cases stepped
          exact .discard taken active empty
        · cases stepped
          exact .take taken (Option.isNone_iff_eq_none.mp unlocked) active
    | push | land | settle | switch | fail | drop | finish =>
      cases writing : state.writing with
      | none =>
        rw [writing] at stepped
        cases stepped
      | some pair =>
        rw [writing] at stepped
        exact .advance taken writing stepped

end LionFS.Vfs
