import LionFS.Cluster.Extents.Store
import LionFS.Data.Assoc

/-!
# The namespace

The Merkle DAG of `dag.rs`: version nodes under their hashes, child maps under
the content hashes of their directories, the root and its chain, and the
snapshot table. A path is the list of its parts. Updating a path rebuilds the
directories above it, making the ones that are missing.

The functions this crate takes from elsewhere are the fields of `Outside`.
Hashes of nodes and of child maps are hashes of their serialized forms; they
stand here as functions of the node and of the map.
-/
namespace LionFS.Cluster
open LionFS Extents Function Assoc Run

/-- `NodeKind`. -/
inductive NodeKind where
  /-- A version of a file. -/
  | file
  | directory
  /-- A deletion marker. -/
  | tombstone
  deriving DecidableEq, Repr

/-- `VersionNode` without its own hash, which is computed. One writer ticks the vector clock, so
it is a number. -/
structure VersionNode (Hash : Type) where
  /-- `content_hash`: of the chunk list of a file, of the child map of a directory. -/
  contentHash : Hash
  parents : List Hash
  vclock : Nat
  /-- `timestamp_ns`. -/
  timestamp : Nat
  kind : NodeKind
  deriving DecidableEq

/-- `ChildMap`: names with the heads of the children, in order of the names. -/
abbrev ChildMap (Hash Name : Type) := List (Name × Hash)

/-- What the cluster engine takes from other crates, and from the modules with the chunker, the
ciphers and the erasure codec, of which nothing is used but that decryption undoes encryption. -/
structure Outside (Hash Name : Type) where
  of : Bytes → Hash
  zero : Hash
  /-- `VersionNode::compute_hash`. -/
  nodeHash : VersionNode Hash → Hash
  /-- `dir_content_hash`. -/
  dirHash : ChildMap Hash Name → Hash
  /-- `bincode::serialize` of a chunk list. -/
  pack : List Hash → Bytes
  /-- `bincode::deserialize` of a chunk list. -/
  unpack : Bytes → Option (List Hash)
  /-- `Chunker::chunk`. -/
  chunk : Bytes → List Bytes
  zstd : Zstd
  /-- `KeyTree::encrypt_extent` under the domain key. -/
  encrypt : Hash → Bytes → Option Bytes
  /-- `KeyTree::decrypt_extent` under the domain key. -/
  decrypt : Hash → Bytes → Option Bytes
  /-- `RsCodec::encode`. -/
  parity : List Bytes → Option (List Bytes)
  /-- `crc32fast::hash`. -/
  crc : Bytes → UInt32

/-- Hashes do not collide, and what is undone is what was done. -/
structure Outside.Lawful {Hash Name : Type} (outside : Outside Hash Name) : Prop where
  of_injective : Function.Injective outside.of
  nodeHash_injective : Function.Injective outside.nodeHash
  dirHash_injective : Function.Injective outside.dirHash
  unpack_pack : ∀ hashes, outside.unpack (outside.pack hashes) = some hashes
  inverts : outside.zstd.Inverts
  decrypt_encrypt : ∀ hash data sealed, outside.encrypt hash data = some sealed →
    outside.decrypt hash sealed = some data

/-- `Namespace`. -/
structure Namespace (Hash Name : Type) where
  /-- The nodes of `repo`, by hash. -/
  repo : Hash → Option (VersionNode Hash)
  /-- `dirs`: child maps by content hash. -/
  dirs : Hash → Option (ChildMap Hash Name)
  rootHead : Hash
  /-- `root_chain`, oldest first. -/
  rootChain : List (Nat × Hash)
  snapshots : Name → Option Hash
  /-- `created`: nodes made since the last drain. -/
  created : List (VersionNode Hash × Option (ChildMap Hash Name))

namespace Namespace
variable {Hash Name : Type}

/-- `children_of`. -/
def childrenOf (names : Namespace Hash Name) (dir : Hash) : Option (ChildMap Hash Name) :=
  match names.repo dir with
  | none => none
  | some node => if node.kind = .directory then names.dirs node.contentHash else none

variable [LinearOrder Name]

/-- `resolve_under`. -/
def resolveUnder (names : Namespace Hash Name) (root : Hash) : List Name → Option Hash
  | [] => some root
  | part :: rest =>
    match names.childrenOf root with
    | none => none
    | some children =>
      match find part children with
      | none => none
      | some child => names.resolveUnder child rest

/-- `resolve`. -/
def resolve (names : Namespace Hash Name) (path : List Name) : Option Hash :=
  names.resolveUnder names.rootHead path

/-- `resolve_at` at the end of time: the newest root of the chain, which must not be a merge. -/
def resolveNewest (names : Namespace Hash Name) (path : List Name) : Option Hash :=
  match names.rootChain.getLast? with
  | none => none
  | some newest =>
    match names.repo newest.2 with
    | none => none
    | some node => if 1 < node.parents.length then none else names.resolveUnder newest.2 path

variable [DecidableEq Hash] (outside : Outside Hash Name)

/-- `NodeRepository::put`, of a node whose hash was computed. -/
def putNode (names : Namespace Hash Name) (node : VersionNode Hash) : Namespace Hash Name :=
  { names with repo := update names.repo (outside.nodeHash node) (some node) }

/-- `register_dir`. -/
def registerDir (names : Namespace Hash Name) (content : Hash) (children : ChildMap Hash Name) :
    Namespace Hash Name :=
  { names with dirs := update names.dirs content (some children) }

/-- The node of a directory with some children, made over a parent. -/
def dirNode (names : Namespace Hash Name) (children : ChildMap Hash Name) (parent : Hash)
    (timestamp : Nat) : VersionNode Hash where
  contentHash := outside.dirHash children
  parents := [parent]
  vclock := ((names.repo parent).map VersionNode.vclock).getD 0 + 1
  timestamp := timestamp
  kind := .directory

/-- `new_dir_node_at`. -/
def newDirNode (children : ChildMap Hash Name) (parent : Hash) (timestamp : Nat) :
    Run (Namespace Hash Name) Hash := fun names =>
  let node := names.dirNode outside children parent timestamp
  let registered := (names.registerDir node.contentHash children).putNode outside node
  (some (outside.nodeHash node),
    { registered with created := registered.created ++ [(node, some children)] })

/-- `set_path_recursive`, making missing directories. -/
def setPathRecursive (head : Hash) (timestamp : Nat) :
    List Name → Hash → Run (Namespace Hash Name) Hash
  | [], _ => fail
  | [part], dir => do
    let names ← get
    match names.childrenOf dir with
    | none => fail
    | some children =>
      match find part children with
      | some child =>
        match names.repo child with
        | none => fail
        | some _ => newDirNode outside (insert part head children) dir timestamp
      | none => newDirNode outside (insert part head children) dir timestamp
  | part :: next :: rest, dir => do
    let names ← get
    match names.childrenOf dir with
    | none => fail
    | some children =>
      let below ←
        match find part children with
        | some child =>
          match names.repo child with
          | none => fail
          | some node =>
            if node.kind = .directory then setPathRecursive head timestamp (next :: rest) child
            else fail
        | none => do
          let made ← newDirNode outside [] dir timestamp
          setPathRecursive head timestamp (next :: rest) made
      newDirNode outside (insert part below children) dir timestamp

/-- `set_path_at`. -/
def setPathAt (path : List Name) (head : Hash) (timestamp : Nat) :
    Run (Namespace Hash Name) Hash := do
  if path = [] then fail
  else
    let names ← get
    let root ← setPathRecursive outside head timestamp path names.rootHead
    modify fun names =>
      { names with
        rootHead := root
        rootChain := names.rootChain ++ [(timestamp, root)] }
    pure root

/-- `snapshot`. -/
def snapshot (names : Namespace Hash Name) (name : Name) : Namespace Hash Name :=
  { names with snapshots := update names.snapshots name (some names.rootHead) }

/-- `restore`: the head is swapped before the root is looked up. -/
def restore (name : Name) : Run (Namespace Hash Name) Hash := fun names =>
  match names.snapshots name with
  | none => (none, names)
  | some root =>
    let swapped := { names with rootHead := root }
    match names.repo root with
    | none => (none, swapped)
    | some node =>
      (some root, { swapped with rootChain := names.rootChain ++ [(node.timestamp, root)] })

/-- `set_root_from_recovery`. -/
def setRootFromRecovery (names : Namespace Hash Name) (root : Hash) (timestamp : Nat) :
    Namespace Hash Name :=
  if names.rootHead = root then names
  else
    { names with
      rootHead := root
      rootChain := names.rootChain ++ [(timestamp, root)] }

/-- `snapshot_from_recovery`. -/
def snapshotFromRecovery (names : Namespace Hash Name) (name : Name) (root : Hash) :
    Namespace Hash Name :=
  { names with snapshots := update names.snapshots name (some root) }

/-- The root node of a fresh namespace. -/
def rootNode (timestamp : Nat) : VersionNode Hash where
  contentHash := outside.dirHash []
  parents := []
  vclock := 1
  timestamp := timestamp
  kind := .directory

/-- `Namespace::new`: an empty root directory. -/
def fresh (timestamp : Nat) : Namespace Hash Name where
  repo := update (fun _ => none) (outside.nodeHash (rootNode outside timestamp))
    (some (rootNode outside timestamp))
  dirs := update (fun _ => none) (outside.dirHash []) (some [])
  rootHead := outside.nodeHash (rootNode outside timestamp)
  rootChain := [(timestamp, outside.nodeHash (rootNode outside timestamp))]
  snapshots := fun _ => none
  created := []

end Namespace
end LionFS.Cluster
