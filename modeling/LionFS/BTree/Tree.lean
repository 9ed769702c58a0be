import LionFS.Data.Assoc
import LionFS.Data.Run
import Mathlib.Algebra.Group.Nat.Defs

/-!
# The on-disk B-tree

`BTree<K, V>` of `btree::tree`, over the node blocks of one transaction. A node
is a header and a typed payload: a leaf holds pairs in key order, an internal
node a leftmost pointer and pairs of a separator and the pointer to its right.
Payload bytes behind the item count are not modelled; no reader looks at them.
`read_node` fails on a block that is not a node of the tree's type, or that
claims more items than fit.

A handle caches the rightmost leaf and the leaf it last changed. Both caches are
trusted only under the structural epoch they were filled in. Under a snapshot
barrier, nodes stamped at or below it are copied before they are changed.
-/
namespace LionFS.BTree
open Assoc Run

/-- `is_frozen_tree`: the trees whose roots a snapshot records. -/
def isFrozenTree (nodeType : Nat) : Bool :=
  nodeType == 1 || nodeType == 2 || nodeType == 3 || nodeType == 5 || nodeType == 13

/-- `Disk::frozen_root_slot`: the trees whose moved roots are mirrored on the device. -/
def hasRootSlot (nodeType : Nat) : Bool := nodeType == 1 || nodeType == 2 || nodeType == 5

/-- What a handle knows of its tree: the node type, and how many items a node may hold. -/
structure Kind where
  nodeType : Nat
  maxLeafItems : Nat
  maxInternalItems : Nat

/-- The sizes and alignments of a key and a value type. An alignment is a power of two that
divides the size. -/
structure Layout where
  keySize : Nat
  /-- Alignment of a key, as the exponent of two. -/
  keyAlign : Nat
  valueSize : Nat
  /-- Alignment of a value, as the exponent of two. -/
  valueAlign : Nat

/-- A size rounded up to a multiple of an alignment. -/
def roundUp (size align : Nat) : Nat := (size + align - 1) / align * align

/-- `size_of::<KVPair<K, V>>`, laid out as in C. -/
def Layout.kvPairSize (layout : Layout) : Nat :=
  roundUp (roundUp layout.keySize (2 ^ layout.valueAlign) + layout.valueSize)
    (2 ^ max layout.keyAlign layout.valueAlign)

/-- `size_of::<KPtrPair<K>>`, laid out as in C with a pointer of eight bytes. -/
def Layout.kPtrPairSize (layout : Layout) : Nat :=
  roundUp (roundUp layout.keySize 8 + 8) (2 ^ max layout.keyAlign 3)

/-- `BTREE_PAYLOAD_SIZE`. -/
def payloadSize : Nat := 4032

/-- The kind of a tree over a layout: `max_leaf_items` and `max_internal_items`. -/
def Layout.kind (layout : Layout) (nodeType : Nat) : Kind :=
  ⟨nodeType, payloadSize / layout.kvPairSize, (payloadSize - 8) / layout.kPtrPairSize⟩

/-- The payload of a node. -/
inductive Body (K V : Type) where
  /-- A leaf, level zero. -/
  | leaf (items : List (K × V))
  /-- An internal node, one level above the given one. -/
  | internal (level leftmost : Nat) (items : List (K × Nat))

/-- `BTreeNodeData`: the header fields the tree uses, and the payload. -/
structure Node (K V : Type) where
  /-- The payload, with its item count. -/
  body : Body K V
  /-- `generation`: the stamp of the last write. -/
  generation : Nat
  parentBlock : Nat
  nextLeaf : Nat
  prevLeaf : Nat

/-- `FastLeaf`: the rightmost leaf as a handle last saw it. -/
structure FastLeaf (K : Type) where
  leafBlock : Nat
  /-- Its largest key. -/
  lastKey : K
  itemCount : Nat
  /-- The structural epoch. -/
  epoch : Nat

/-- `RangeLeaf`: the leaf a handle last changed. -/
structure RangeLeaf (K : Type) where
  leafBlock : Nat
  /-- Its least key. -/
  minKey : K
  /-- Its largest key. -/
  maxKey : K
  itemCount : Nat
  /-- The structural epoch. -/
  epoch : Nat

/-- `BTree`: a handle. -/
structure Handle (K : Type) where
  rootBlock : Nat
  fastLeaf : Option (FastLeaf K)
  rangeLeaf : Option (RangeLeaf K)
  frozenView : Bool

/-- `BTree::new`. -/
def Handle.new (K : Type) (root : Nat) : Handle K := ⟨root, none, none, false⟩

/-- `BTree::new_frozen`. -/
def Handle.newFrozen (K : Type) (root : Nat) : Handle K := ⟨root, none, none, true⟩

/-- What an operation works on: the node blocks as the transaction reads them, the global
counters, the moved root, the allocator's successive results, and the handle used. -/
structure State (K V : Type) where
  /-- Blocks that hold nodes of the tree's type. -/
  nodes : Nat → Option (Node K V)
  nodeGen : Nat
  /-- `TREE_EPOCH`. -/
  epoch : Nat
  /-- `cow_barrier_of` the context. -/
  cowBarrier : Nat
  /-- The transaction's root cell for the node type. -/
  rootCell : Option Nat
  /-- The device's mirror of the root, zero when it never moved. -/
  rootMirror : Nat
  /-- The blocks the allocator returns, in order. -/
  allocator : Nat → Nat
  /-- How many it has returned. -/
  allocations : Nat
  handle : Handle K

variable {K V : Type} [LinearOrder K]

/-- `BTreeNodeData::new` with a payload: all other header fields zero. -/
def Node.new (body : Body K V) : Node K V := ⟨body, 0, 0, 0, 0⟩

variable (kind : Kind)

/-- `item_count` is within the capacity of the node's kind. -/
def Kind.admits : Body K V → Bool
  | .leaf items => items.length ≤ kind.maxLeafItems
  | .internal _ _ items => items.length ≤ kind.maxInternalItems

/-- `read_node`. -/
def readNode (block : Nat) : Run (State K V) (Node K V) := fun state =>
  match state.nodes block with
  | some node => if kind.admits node.body then (some node, state) else (none, state)
  | none => (none, state)

/-- The state after a node write: it is stamped with a fresh value of the counter. -/
def State.written (state : State K V) (block : Nat) (node : Node K V) : State K V :=
  { state with
    nodes := Function.update state.nodes block (some { node with generation := state.nodeGen + 1 })
    nodeGen := state.nodeGen + 1 }

/-- `write_node`. -/
def writeNode (block : Nat) (node : Node K V) : Run (State K V) PUnit := modify fun state =>
  state.written block node

/-- `allocate_block`, which never fails here. -/
def allocate : Run (State K V) Nat := fun state =>
  (some (state.allocator state.allocations), { state with allocations := state.allocations + 1 })

/-- `TxContext::effective_root`. -/
def State.effectiveRoot (state : State K V) (kind : Kind) (default : Nat) : Nat :=
  match state.rootCell with
  | some root => root
  | none =>
    if hasRootSlot kind.nodeType && state.rootMirror != 0 then state.rootMirror else default

/-- `TxContext::set_root_cell`. -/
def State.setRootCell (state : State K V) (kind : Kind) (root : Nat) : State K V :=
  { state with
    rootCell := some root
    rootMirror := if hasRootSlot kind.nodeType then root else state.rootMirror }

/-- `view_root`. -/
def State.viewRoot (state : State K V) (kind : Kind) : Nat :=
  if state.handle.frozenView then state.handle.rootBlock
  else state.effectiveRoot kind state.handle.rootBlock

/-- The child pointer for a key: the one right of the last separator not above it. -/
def childFor (key : K) (leftmost : Nat) : List (K × Nat) → Nat
  | [] => leftmost
  | item :: rest => if item.1 ≤ key then childFor key item.2 rest else leftmost

/-- `lookup` from a block on. The fuel bounds the descent. -/
def lookupFrom (kind : Kind) (key : K) : (fuel block : Nat) → Run (State K V) (Option V)
  | 0, _ => fail
  | fuel + 1, block => do
    let node ← readNode kind block
    match node.body with
    | .leaf items => pure (find key items)
    | .internal _ leftmost items => lookupFrom kind key fuel (childFor key leftmost items)

/-- `BTree::lookup`. -/
def lookup (fuel : Nat) (key : K) : Run (State K V) (Option V) := do
  let state ← get
  lookupFrom kind key fuel (state.viewRoot kind)

/-- `collect_pairs`. The fuel bounds the depth. -/
def collectPairs (kind : Kind) : (fuel block : Nat) → Run (State K V) (List (K × V))
  | 0, _ => fail
  | fuel + 1, block => do
    let node ← readNode kind block
    match node.body with
    | .leaf items => pure items
    | .internal _ leftmost items => do
      let first ← collectPairs kind fuel leftmost
      items.foldlM (fun out item => do
        let more ← collectPairs kind fuel item.2
        pure (out ++ more)) first

/-- `BTree::iter_all`. -/
def iterAll (fuel : Nat) : Run (State K V) (List (K × V)) := do
  let state ← get
  collectPairs kind fuel (state.viewRoot kind)

/-- What a descent to a leaf returns. -/
structure Found (K V : Type) where
  /-- The leaf node. -/
  node : Node K V
  items : List (K × V)
  /-- The blocks of the descent, the leaf first. -/
  path : List Nat
  /-- Whether the descent took the rightmost child at every level. -/
  rightmost : Bool

/-- The key is at or past the last separator of a node, if it has one. -/
def pastLast (key : K) (items : List (K × Nat)) : Bool :=
  match items.getLast? with
  | none => true
  | some last => !decide (key < last.1)

/-- The "find leaf" loop of `insert` and `remove_inner`. -/
def findLeaf (kind : Kind) (key : K) :
    (fuel block : Nat) → (path : List Nat) → (rightmost : Bool) → Run (State K V) (Found K V)
  | 0, _, _, _ => fail
  | fuel + 1, block, path, rightmost => do
    let node ← readNode kind block
    match node.body with
    | .leaf items => pure ⟨node, items, block :: path, rightmost⟩
    | .internal _ leftmost items =>
      findLeaf kind key fuel (childFor key leftmost items) (block :: path)
        (rightmost && pastLast key items)

/-- The node may belong to a snapshot's view. -/
def State.isFrozen (state : State K V) (kind : Kind) (node : Node K V) : Bool :=
  decide (0 < state.cowBarrier) && isFrozenTree kind.nodeType &&
    decide (node.generation ≤ state.cowBarrier)

/-- `replace_child_ptr`. -/
def replaceChildPtr (old new : Nat) : Body K V → Body K V
  | .leaf items => .leaf items
  | .internal level leftmost items =>
    .internal level (if leftmost = old then new else leftmost)
      (items.map fun item => (item.1, if item.2 = old then new else item.2))

/-- The root of the tree and of the handle becomes another block. -/
def moveRoot (root : Nat) : Run (State K V) PUnit := modify fun state =>
  { state.setRootCell kind root with handle := { state.handle with rootBlock := root } }

/-- Put the copy of a node in place: below its parent's effective block, or as the root. -/
def placeCopy (orig : Nat) (node : Node K V) (copyBlock : Nat) :
    (effective : List Nat) → Run (State K V) PUnit
  | [] => do
    writeNode copyBlock node
    moveRoot kind copyBlock
  | parentBlock :: _ => do
    writeNode copyBlock { node with parentBlock := parentBlock }
    let parent ← readNode kind parentBlock
    writeNode parentBlock { parent with body := replaceChildPtr orig copyBlock parent.body }

/-- `cow_descent_path`, from the root down: the blocks already done, the last one first, and
the blocks to do. -/
def cowDescentPath (kind : Kind) (allocateBlock : Run (State K V) Nat) :
    (effective path : List Nat) → Run (State K V) (List Nat)
  | effective, [] => pure effective
  | effective, orig :: rest => do
    let node ← readNode kind orig
    let state ← get
    if state.cowBarrier < node.generation then
      cowDescentPath kind allocateBlock (orig :: effective) rest
    else do
      let copyBlock ← allocateBlock
      placeCopy kind orig node copyBlock effective
      cowDescentPath kind allocateBlock (copyBlock :: effective) rest

/-- The copy-on-write pass of `insert` and `remove_inner`: the path to work on, leaf first. -/
def pathCopy (allocateBlock : Run (State K V) Nat) (path : List Nat) :
    Run (State K V) (List Nat) := do
  let state ← get
  if 0 < state.cowBarrier && isFrozenTree kind.nodeType then
    cowDescentPath kind allocateBlock [] path.reverse
  else pure path

/-- The separators of a parent with one more, right of those not above it. -/
def insertSeparator (key : K) (ptr : Nat) : List (K × Nat) → List (K × Nat)
  | [] => [(key, ptr)]
  | item :: rest =>
    if key < item.1 then (key, ptr) :: item :: rest else item :: insertSeparator key ptr rest

/-- `reparent` of an internal split: unconditional. -/
def reparent (parent block : Nat) : Run (State K V) PUnit := do
  let child ← readNode kind block
  writeNode block { child with parentBlock := parent }

/-- `reparent` of a root split: only children that name the old parent. -/
def reparentFrom (old parent block : Nat) : Run (State K V) PUnit := do
  let child ← readNode kind block
  if child.parentBlock = old then writeNode block { child with parentBlock := parent }
  else pure ⟨⟩

/-- The child pointers of an internal node. -/
def childPtrs (leftmost : Nat) (items : List (K × Nat)) : List Nat :=
  leftmost :: items.map Prod.snd

/-- The level of a node. -/
def Body.level : Body K V → Nat
  | .leaf _ => 0
  | .internal level _ _ => level + 1

/-- The header updates of a root split: the right half's parent, and what named the old root
although the left half moved. -/
def relinkHalves (leftBlock moved rightBlock : Nat) (right : Node K V) :
    (left : Body K V) → Run (State K V) PUnit
  | .leaf _ =>
    writeNode rightBlock { right with
      parentBlock := leftBlock
      prevLeaf := if right.prevLeaf = leftBlock then moved else right.prevLeaf }
  | .internal _ leftmost items => do
    writeNode rightBlock { right with parentBlock := leftBlock }
    each (childPtrs leftmost items) (reparentFrom kind leftBlock moved)

/-- The stable-root split of `insert_into_parent`: the left half moves to a fresh block and the
root block becomes a taller root over both halves. -/
def splitRoot (leftBlock : Nat) (key : K) (rightBlock : Nat) : Run (State K V) PUnit := do
  let moved ← allocate
  let movedNode ← readNode kind leftBlock
  let right ← readNode kind rightBlock
  relinkHalves kind leftBlock moved rightBlock right movedNode.body
  writeNode moved { movedNode with parentBlock := leftBlock }
  writeNode leftBlock (Node.new (.internal movedNode.body.level moved [(key, rightBlock)]))

/-- The internal split of `insert_into_parent`: the promoted separator and the new block. -/
def splitInternal (parentBlock : Nat) (parentNode : Node K V) (level leftmost : Nat)
    (items : List (K × Nat)) : Run (State K V) (K × Nat) := do
  let rightInternal ← allocate
  match items.drop (items.length / 2) with
  | [] => fail
  | promoted :: rightItems => do
    writeNode rightInternal { Node.new (.internal level promoted.2 rightItems) with
      parentBlock := parentNode.parentBlock }
    writeNode parentBlock { parentNode with
      body := .internal level leftmost (items.take (items.length / 2)) }
    each (childPtrs promoted.2 rightItems) (reparent kind rightInternal)
    pure (promoted.1, rightInternal)

/-- `insert_into_parent`, with the ancestors of the split node, the nearest first. -/
def insertIntoParent (kind : Kind) :
    (path : List Nat) → (leftBlock : Nat) → (key : K) → (rightBlock : Nat) →
    Run (State K V) PUnit
  | [], leftBlock, key, rightBlock => splitRoot kind leftBlock key rightBlock
  | parentBlock :: path, leftBlock, key, rightBlock =>
    if parentBlock = 0 then splitRoot kind leftBlock key rightBlock
    else do
      let parentNode ← readNode kind parentBlock
      match parentNode.body with
      | .leaf _ => fail
      | .internal level leftmost oldItems =>
        let items := insertSeparator key rightBlock oldItems
        if oldItems.length ≥ kind.maxInternalItems - 1 then do
          let promoted ← splitInternal kind parentBlock parentNode level leftmost items
          insertIntoParent kind path parentBlock promoted.1 promoted.2
        else writeNode parentBlock { parentNode with body := .internal level leftmost items }

/-- The state after `bump_epoch`, with the handle's caches dropped. -/
def State.invalidated (state : State K V) : State K V :=
  { state with
    epoch := state.epoch + 1
    handle := { state.handle with fastLeaf := none, rangeLeaf := none } }

/-- Bump the epoch and drop the handle's caches. -/
def invalidate : Run (State K V) PUnit := modify State.invalidated

/-- The `prev_leaf` of the next leaf, when it names the split one. -/
def relinkNext (leafBlock nextLeaf rightBlock : Nat) : Run (State K V) PUnit :=
  if nextLeaf ≠ 0 then do
    match ← attempt (readNode kind nextLeaf) with
    | some oldNext =>
      if oldNext.prevLeaf = leafBlock then
        writeNode nextLeaf { oldNext with prevLeaf := rightBlock }
      else pure ⟨⟩
    | none => pure ⟨⟩
  else pure ⟨⟩

/-- `split_leaf`. -/
def splitLeaf (leafBlock : Nat) (leafNode : Node K V) (items : List (K × V)) (path : List Nat) :
    Run (State K V) PUnit := do
  invalidate
  let rightBlock ← allocate
  relinkNext kind leafBlock leafNode.nextLeaf rightBlock
  let mid := items.length / 2
  match items.drop mid with
  | [] => fail
  | promoted :: rightItems =>
    writeNode rightBlock { Node.new (.leaf (promoted :: rightItems)) with
      nextLeaf := leafNode.nextLeaf, prevLeaf := leafBlock }
    writeNode leafBlock { leafNode with body := .leaf (items.take mid), nextLeaf := rightBlock }
    insertIntoParent kind path leafBlock promoted.1 rightBlock

/-- A cached leaf, when it is a leaf of the cached count that may be changed in place. -/
def State.cachedLeaf (state : State K V) (kind : Kind) (block count : Nat) :
    Option (Node K V × List (K × V)) :=
  match (readNode kind block state).1 with
  | some node =>
    match node.body with
    | .leaf items =>
      if items.length = count ∧ state.isFrozen kind node = false then some (node, items) else none
    | .internal _ _ _ => none
  | none => none

/-- Change the handle's caches. -/
def setCaches (fast : Option (FastLeaf K)) (range : Option (RangeLeaf K)) :
    Run (State K V) PUnit := modify fun state =>
  { state with handle := { state.handle with fastLeaf := fast, rangeLeaf := range } }

/-- The in-place update path of `insert`: whether it was taken. -/
def fastUpdate (key : K) (value : V) : Run (State K V) Bool := do
  let state ← get
  match state.handle.rangeLeaf with
  | none => pure false
  | some cached =>
    if cached.minKey ≤ key ∧ key ≤ cached.maxKey ∧ 0 < cached.itemCount ∧
        cached.epoch = state.epoch then
      match state.cachedLeaf kind cached.leafBlock cached.itemCount with
      | some (node, items) =>
        if (find key items).isSome then do
          writeNode cached.leafBlock { node with body := .leaf (insert key value items) }
          pure true
        else do
          setCaches state.handle.fastLeaf none
          pure false
      | none => do
        setCaches state.handle.fastLeaf none
        pure false
    else pure false

/-- The append path of `insert`: whether it was taken. -/
def fastAppend (key : K) (value : V) : Run (State K V) Bool := do
  let state ← get
  match state.handle.fastLeaf with
  | none => pure false
  | some cached =>
    if cached.lastKey < key ∧ 0 < cached.itemCount ∧ cached.itemCount < kind.maxLeafItems - 1 ∧
        cached.epoch = state.epoch then
      match state.cachedLeaf kind cached.leafBlock cached.itemCount with
      | some (node, items) =>
        if items.getLast?.map Prod.fst = some cached.lastKey then do
          writeNode cached.leafBlock { node with body := .leaf (items ++ [(key, value)]) }
          setCaches (some { cached with lastKey := key, itemCount := cached.itemCount + 1 })
            state.handle.rangeLeaf
          pure true
        else do
          setCaches none state.handle.rangeLeaf
          pure false
      | none => do
        setCaches none state.handle.rangeLeaf
        pure false
    else pure false

/-- The root a mutation starts from, which becomes the handle's own. -/
def adoptRoot : Run (State K V) Nat := do
  let state ← get
  let root := state.viewRoot kind
  modify fun state => { state with handle := { state.handle with rootBlock := root } }
  pure root

/-- The slow path's last step: put a pair in a leaf that has room and refill the caches. -/
def placeInLeaf (leafBlock : Nat) (found : Found K V) (key : K) (value : V) :
    Run (State K V) PUnit := do
  let items := insert key value found.items
  writeNode leafBlock { found.node with body := .leaf items }
  let state ← get
  match items.head?, items.getLast? with
  | some first, some last =>
    setCaches
      (if found.rightmost then some ⟨leafBlock, last.1, items.length, state.epoch⟩
        else state.handle.fastLeaf)
      (some ⟨leafBlock, first.1, last.1, items.length, state.epoch⟩)
  | _, _ => pure ⟨⟩

/-- The descent of a mutation: the leaf, and the path to it after the copy-on-write pass. -/
def approach (fuel : Nat) (key : K) (allocateBlock : Run (State K V) Nat) :
    Run (State K V) (Found K V × List Nat) := do
  let root ← adoptRoot kind
  let found ← findLeaf kind key fuel root [] true
  let path ← pathCopy kind allocateBlock found.path
  pure (found, path)

/-- The body of `insert` up to its retry: whether the pair was placed. Otherwise a full leaf
was split. -/
def insertAttempt (fuel : Nat) (key : K) (value : V) : Run (State K V) Bool := do
  let updated ← fastUpdate kind key value
  if updated then pure true
  else do
    let appended ← fastAppend kind key value
    if appended then pure true
    else do
      let landed ← approach kind fuel key allocate
      match landed.2 with
      | [] => fail
      | leafBlock :: ancestors =>
        if landed.1.items.length ≥ kind.maxLeafItems - 1 then do
          splitLeaf kind leafBlock landed.1.node landed.1.items ancestors
          pure false
        else do
          placeInLeaf leafBlock landed.1 key value
          pure true

/-- `BTree::insert`. The fuel bounds the descent and the retries after a split. -/
def insert (kind : Kind) : (fuel : Nat) → (key : K) → (value : V) → Run (State K V) PUnit
  | 0, _, _ => fail
  | fuel + 1, key, value => do
    let placed ← insertAttempt kind (fuel + 1) key value
    if placed then pure ⟨⟩ else insert kind fuel key value

/-- `remove_inner`: whether the key was there. `merge`, which it calls on an underflow, does
nothing. -/
def removeInner (fuel : Nat) (key : K) (allocateBlock : Run (State K V) Nat) :
    Run (State K V) Bool := do
  invalidate
  let landed ← approach kind fuel key allocateBlock
  match landed.2 with
  | [] => fail
  | leafBlock :: _ =>
    if (find key landed.1.items).isSome then do
      writeNode leafBlock
        { landed.1.node with body := .leaf (erase key landed.1.items) }
      pure true
    else pure false

/-- `BTree::remove`: without an allocator. -/
def remove (fuel : Nat) (key : K) : Run (State K V) Bool :=
  removeInner kind fuel key fail

/-- `BTree::remove_with_alloc`. -/
def removeWithAlloc (fuel : Nat) (key : K) : Run (State K V) Bool :=
  removeInner kind fuel key allocate

/-- `BTree::init_empty`: an empty leaf at the root block, not stamped. -/
def initEmpty (root : Nat) : Run (State K V) PUnit := modify fun state =>
  { state with
    epoch := state.epoch + 1
    nodes := Function.update state.nodes root (some (Node.new (.leaf []))) }

end LionFS.BTree
