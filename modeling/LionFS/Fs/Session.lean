import LionFS.Data.Assoc
import LionFS.Data.Machine

/-!
# Counters of a volume over its mounts

The superblock carries two counters: the next inode number and the high-water
mark of the node stamps. The numbers they hand out reach the device in tree
nodes, through the journal; the counters themselves reach it only in the
superblock slots, which are written when a commit moved a root, at a clean
unmount, and at a mount that found a higher transaction id.

A volume is modelled by its nodes. A node has its stamp, its children and its
items, of which the inode numbers and the birth stamps of checksum records
matter here. The device holds what recovery yields: a transaction is on it from
the moment its journal record is. `nodeGen` is the static counter of the process.
-/
namespace LionFS.Fs
open Assoc

/-- What a leaf holds: inode records by number, checksum records by birth stamp. -/
inductive Item where
  /-- An inode record. -/
  | inode (ino : Nat)
  /-- A checksum record. -/
  | checksum (birth : Nat)
deriving DecidableEq

/-- A tree node. -/
structure Node where
  /-- The stamp of its last write. -/
  generation : Nat
  /-- The blocks it points at. -/
  children : List Nat
  /-- The records in it. -/
  items : List Item
deriving DecidableEq

/-- The superblock fields that follow the counters and the roots. -/
structure Counters where
  /-- Tree roots by node type. -/
  roots : List (Nat × Nat)
  nextIno : Nat
  generation : Nat
  nodeGeneration : Nat
  lastSnapshotGeneration : Nat
deriving DecidableEq

/-- A transaction of node writes. -/
structure NodeTx where
  /-- Transaction id. -/
  id : Nat
  /-- Blocks and their new nodes, by ascending block. -/
  dirty : List (Nat × Node)
  rootCells : List (Nat × Nat)
deriving DecidableEq

/-- The state of a mount. -/
structure Live where
  /-- The superblock in memory. -/
  superblock : Counters
  /-- Next transaction id. -/
  nextTxId : Nat
  /-- The active transaction. -/
  active : Option NodeTx
  /-- Quiesced groups, oldest first, each with whether its journal record is on the device. -/
  pending : List (NodeTx × Bool)
  /-- `frozen_roots` of the device: the moved roots of the mirrored trees. -/
  frozenRoots : List (Nat × Nat)
  /-- Numbers and stamps handed out for records that are about to be written. -/
  drawn : List Item
deriving DecidableEq

/-- A volume, mounted or not. -/
structure Volume where
  /-- The nodes that recovery yields. -/
  disk : List (Nat × Node)
  /-- The superblock that the slots yield. -/
  saved : Counters
  /-- Ids of the records in the journal. -/
  journal : List Nat
  /-- `NODE_GEN` of the process. -/
  nodeGen : Nat
  /-- The mount, if there is one. -/
  live : Option Live
deriving DecidableEq

/-- Put nodes at their blocks. -/
def putAll (nodes : List (Nat × Node)) (disk : List (Nat × Node)) : List (Nat × Node) :=
  nodes.foldl (fun disk entry => insert entry.1 entry.2 disk) disk

variable (live : Live)

/-- The groups whose nodes a context sees above the device, newest first. -/
def Live.groups : List NodeTx :=
  live.active.toList ++ (live.pending.map Prod.fst).reverse

/-- `read_block` of a staging context: the first group with the block, or else the device. -/
def Live.read (disk : List (Nat × Node)) (block : Nat) : Option Node :=
  (live.groups.findSome? fun tx => find block tx.dirty).or (find block disk)

/-- `effective_root`. -/
def Live.effectiveRoot (nodeType : Nat) : Nat :=
  ((live.active.bind fun tx => find nodeType tx.rootCells).or
    (find nodeType live.frozenRoots)).getD
      ((find nodeType live.superblock.roots).getD 0)

/-- The active transaction, begun if there is none. -/
def Live.staging : NodeTx := live.active.getD ⟨live.nextTxId, [], []⟩

/-- Change the active transaction, which is begun if there is none. -/
def Live.stage (change : NodeTx → NodeTx) : Live :=
  { live with
    active := some (change live.staging)
    nextTxId := if live.active.isNone then live.nextTxId + 1 else live.nextTxId }

/-- The trees with a mirrored root: inode, directory and checksum. -/
def mirrored : List Nat := [1, 2, 5]

/-- The trees whose roots `commit_tx` copies into the superblock. -/
def switched : List Nat := [1, 2, 5, 7, 9, 13]

/-- What `create_snapshot` records. -/
structure SnapshotRecord where
  /-- The barrier. -/
  generation : Nat
  /-- The roots of the inode, directory, extent, checksum and bad block trees. -/
  roots : List Nat
deriving DecidableEq

/-- `create_snapshot`: the barrier is the current stamp, at least one, and the roots are the
current ones. -/
def createSnapshot (nodeGen : Nat) (live : Live) : SnapshotRecord × Counters :=
  let barrier := max nodeGen 1
  let roots := mirrored.foldl (fun roots nodeType =>
    insert nodeType (live.effectiveRoot nodeType) roots) live.superblock.roots
  let superblock := { live.superblock with
    lastSnapshotGeneration := max live.superblock.lastSnapshotGeneration barrier
    roots := roots }
  (⟨barrier, [1, 2, 3, 5, 6].map fun nodeType => (find nodeType roots).getD 0⟩, superblock)

/-- The superblock that `commit_tx` writes into the slots after a root moved. -/
def commitCounters (superblock : Counters) (nodeGen : Nat) (tx : NodeTx) : Counters :=
  { superblock with
    roots := (tx.rootCells.filter fun cell => decide (cell.1 ∈ switched)).foldl
      (fun roots cell => insert cell.1 cell.2 roots) superblock.roots
    nodeGeneration := nodeGen }

/-- What happens to a volume. -/
inductive VolumeEvent where
  /-- `LionFS::new`, with the ids that recovery finds in the journal. -/
  | mount (found : List Nat)
  /-- The process ends, with or without a mount. -/
  | crash
  /-- `destroy`, after the last commit. -/
  | unmount
  /-- `allocate_inode`, for a create or mkdir. -/
  | allocateInode
  /-- `node_gen_stamp` for the birth of a block. -/
  | stampBirth
  | writeNode (block : Nat) (children : List Nat) (items : List Item)
  | initEmpty (block : Nat)
  /-- `set_root_cell`. -/
  | moveRoot (nodeType root : Nat)
  /-- `quiesce_tx`. -/
  | quiesce
  /-- The journal record of a group is on the device. -/
  | journal (id : Nat)
  /-- `commit_tx` writes the slots if a root moved, and the group is retired. -/
  | finish (id : Nat)
  /-- `create_snapshot`. -/
  | snapshot
deriving DecidableEq

/-- The items of the nodes that a context sees, and those about to be written. -/
def Live.items (disk : List (Nat × Node)) : List Item :=
  live.drawn ++ (live.groups.flatMap NodeTx.dirty ++ disk).flatMap fun entry => entry.2.items

/-- The stamp counter at mount. -/
def mountGen (saved : Counters) (nodeGen highestTx : Nat) : Nat :=
  max nodeGen (max (max (max saved.nodeGeneration saved.lastSnapshotGeneration) highestTx) 1)

/-- A step of a mounted volume. -/
def liveStep (volume : Volume) (live : Live) : VolumeEvent → Option Volume
  | .mount _ => none
  | .crash => some { volume with nodeGen := 0, live := none }
  | .unmount =>
    if live.active.isNone ∧ live.pending.isEmpty then
      let generation := max live.superblock.generation (live.nextTxId - 1)
      some { volume with
        saved := { live.superblock with generation := generation }
        live := none }
    else none
  | .allocateInode =>
    some { volume with live := some { live with
      superblock := { live.superblock with nextIno := live.superblock.nextIno + 1 }
      drawn := .inode live.superblock.nextIno :: live.drawn } }
  | .stampBirth =>
    some { volume with
      nodeGen := volume.nodeGen + 1
      live := some { live with drawn := .checksum (volume.nodeGen + 1) :: live.drawn } }
  | .writeNode block children items =>
    if ∀ item ∈ items, item ∈ live.items volume.disk then
      let node : Node := ⟨volume.nodeGen + 1, children, items⟩
      some { volume with
        nodeGen := volume.nodeGen + 1
        live := some (live.stage fun tx => { tx with dirty := insert block node tx.dirty }) }
    else none
  | .initEmpty block =>
    some { volume with live := some (live.stage fun tx =>
      { tx with dirty := insert block ⟨0, [], []⟩ tx.dirty }) }
  | .moveRoot nodeType root =>
    let staged := live.stage fun tx =>
      { tx with rootCells := insert nodeType root tx.rootCells }
    some { volume with live := some { staged with
      frozenRoots :=
        if nodeType ∈ mirrored then insert nodeType root live.frozenRoots
        else live.frozenRoots } }
  | .quiesce =>
    match live.active with
    | none => none
    | some tx =>
      some { volume with live := some { live with
        active := none
        pending := if tx.dirty.isEmpty then live.pending else live.pending ++ [(tx, false)] } }
  | .journal id =>
    match live.pending.find? fun entry => decide (entry.1.id = id ∧ entry.2 = false) with
    | none => none
    | some (tx, _) =>
      some { volume with
        disk := putAll tx.dirty volume.disk
        journal := id :: volume.journal
        live := some { live with pending := live.pending.map fun entry =>
          if entry.1.id = id then (entry.1, true) else entry } }
  | .finish id =>
    match live.pending.find? fun entry => decide (entry.1.id = id ∧ entry.2 = true) with
    | none => none
    | some (tx, _) =>
      let pending := live.pending.filter fun entry => decide (entry.1.id ≠ id)
      if tx.rootCells.isEmpty then
        some { volume with live := some { live with pending := pending } }
      else
        let superblock := commitCounters live.superblock volume.nodeGen tx
        some { volume with
          saved := { superblock with generation := max superblock.generation tx.id }
          live := some { live with superblock := superblock, pending := pending } }
  | .snapshot =>
    some { volume with live := some { live with
      superblock := (createSnapshot volume.nodeGen live).2 } }

/-- A step of a volume. -/
def volumeStep (volume : Volume) (event : VolumeEvent) : Option Volume :=
  match volume.live with
  | some live => liveStep volume live event
  | none =>
    match event with
    | .mount found =>
      if ∀ id ∈ found, id ∈ volume.journal then
        let highestTx := found.foldl max volume.saved.generation
        let superblock := { volume.saved with generation := highestTx }
        some { volume with
          saved := superblock
          nodeGen := mountGen volume.saved volume.nodeGen highestTx
          live := some ⟨superblock, highestTx + 1, none, [], [], []⟩ }
      else none
    | .crash => some { volume with nodeGen := 0 }
    | _ => none

end LionFS.Fs
