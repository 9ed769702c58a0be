import LionFS.BTree.Refine

/-!
# Snapshot views under copy-on-write

While a barrier is live, a mutation copies the nodes on its path that are stamped
at or below it. What it then writes are blocks it allocated and blocks stamped
above the barrier, with one exception: an internal split re-parents every child
it moves, in place and under a fresh stamp, whatever stamp the child had. Such a
child passes for a private node from then on and the next mutation below it
changes the snapshot's view.

`Guarded` is the invariant of the runs in which no split moves a child stamped at
or below the barrier: every block that was old when the barrier was set is still
what it was.
-/
namespace LionFS.BTree
open Run List
variable {K V : Type}

/-- The blocks a node points to. -/
def Body.children : Body K V → List Nat
  | .leaf _ => []
  | .internal _ leftmost items => childPtrs leftmost items

/-- The blocks of the tree at a root. -/
inductive Reaches (nodes : Nat → Option (Node K V)) (root : Nat) : Nat → Prop where
  /-- The root block. -/
  | root : Reaches nodes root root
  /-- A block a node of the tree points to. -/
  | child {block child : Nat} {node : Node K V} (reached : Reaches nodes root block)
      (held : nodes block = some node) (points : child ∈ node.body.children) :
      Reaches nodes root child

/-- The allocator will return the block. -/
def State.Allocatable (state : State K V) (block : Nat) : Prop :=
  ∃ index, state.allocations ≤ index ∧ state.allocator index = block

/-- The block may be written after a barrier is set: it is fresh, or stamped above the barrier. -/
def State.Movable (state : State K V) (barrier block : Nat) : Prop :=
  state.Allocatable block ∨ ∃ node, state.nodes block = some node ∧ barrier < node.generation

/-- What holds when a barrier is set over the tree at a root. -/
structure FrozenAt (kind : Kind) (start : State K V) (root barrier : Nat) : Prop where
  recorded : isFrozenTree kind.nodeType = true
  positive : 0 < barrier
  set : barrier ≤ start.cowBarrier
  /-- The nodes of the tree are stamped at or below the barrier. -/
  stamps : ∀ block, Reaches start.nodes root block → ∀ node, start.nodes block = some node →
    node.generation ≤ barrier
  /-- The allocator returns no block of the tree. -/
  fresh : ∀ block, Reaches start.nodes root block → ¬start.Allocatable block
  /-- No old node names a block that is fresh or stamped above the barrier as its parent or its
  previous leaf. -/
  unnamed : ∀ block node, ¬start.Movable barrier block → start.nodes block = some node →
    ¬start.Movable barrier node.parentBlock ∧ ¬start.Movable barrier node.prevLeaf

/-- Every old block is what it was when the barrier was set. -/
structure Guarded (start : State K V) (barrier : Nat) (state : State K V) : Prop where
  /-- Blocks that are neither fresh nor stamped above the barrier keep their nodes. -/
  kept : ∀ block, ¬start.Movable barrier block → state.nodes block = start.nodes block
  live : barrier ≤ state.cowBarrier
  allocator : state.allocator = start.allocator
  position : start.allocations ≤ state.allocations

/-- A command ends in a state with a property, whether it returns or fails. -/
def Ends {α : Type} (kept : State K V → Prop) (command : Run (State K V) α) :
    State K V → Prop :=
  wp command (fun _ => kept) kept

variable {allocateBlock : Run (State K V) Nat} {kind : Kind} {start state : State K V}
  {node : Node K V} {root barrier block : Nat}
section Guarding
section
variable (guarded : Guarded start barrier state)
include guarded

theorem Guarded.movable_of_stamp (held : state.nodes block = some node)
    (above : state.cowBarrier < node.generation) : start.Movable barrier block := by
  by_contra old
  rw [guarded.kept block old] at held
  exact old (.inr ⟨node, held, guarded.live.trans_lt above⟩)

theorem Guarded.movable_of_named (frozen : FrozenAt kind start root barrier)
    (held : state.nodes block = some node)
    (named : start.Movable barrier node.parentBlock ∨ start.Movable barrier node.prevLeaf) :
    start.Movable barrier block := by
  by_contra old
  rw [guarded.kept block old] at held
  have unnamed := frozen.unnamed block node old held
  rcases named with parent | previous
  · exact unnamed.1 parent
  · exact unnamed.2 previous

theorem Guarded.written (movable : start.Movable barrier block) (node : Node K V) :
    Guarded start barrier (state.written block node) := by
  refine { guarded with kept := fun other old => ?_ }
  have ne : other ≠ block := fun same => old (same ▸ movable)
  exact (Function.update_of_ne ne _ _).trans (guarded.kept other old)

theorem Guarded.allocate :
    wp allocate (fun block next => Guarded start barrier next ∧ start.Movable barrier block)
      (Guarded start barrier) state := by
  rw [wp_allocate]
  refine ⟨{ guarded with position := guarded.position.trans (Nat.le_succ _) }, .inl
    ⟨state.allocations, guarded.position, ?_⟩⟩
  rw [guarded.allocator]

theorem Guarded.writeNode (movable : start.Movable barrier block) (node : Node K V) :
    Ends (Guarded start barrier) (writeNode block node) state := by
  unfold Ends
  rw [wp_writeNode]
  exact guarded.written movable node

theorem Guarded.moveRoot (target : Nat) :
    Ends (Guarded start barrier) (moveRoot kind target) state := by
  unfold Ends BTree.moveRoot
  rw [wp_modify]
  exact { guarded with }

/-- A copy goes to its fresh block, and its parent may be written. -/
theorem Guarded.placeCopy {orig copyBlock : Nat} {effective : List Nat}
    (movable : start.Movable barrier copyBlock)
    (parents : ∀ block ∈ effective, start.Movable barrier block) :
    Ends (Guarded start barrier) (placeCopy kind orig node copyBlock effective) state := by
  cases effective with
  | nil =>
    unfold Ends BTree.placeCopy
    rw [wp_bind, wp_writeNode]
    exact (guarded.written movable node).moveRoot copyBlock
  | cons parent rest =>
    unfold Ends BTree.placeCopy
    rw [wp_bind, wp_writeNode, wp_bind]
    have copied := guarded.written movable { node with parentBlock := parent }
    refine wp_readNode_any (fun held _ => ?_) copied
    exact copied.writeNode (parents parent mem_cons_self) _

end

/-- An allocator that may be used while a barrier is live: it fails or returns fresh blocks. -/
def Allocates (start : State K V) (barrier : Nat) (allocateBlock : Run (State K V) Nat) : Prop :=
  ∀ state, Guarded start barrier state → wp allocateBlock
    (fun block next => Guarded start barrier next ∧ start.Movable barrier block)
    (Guarded start barrier) state

variable (guarded : Guarded start barrier state)
include guarded

/-- The copy-on-write pass: all blocks of the effective path may be written. -/
theorem Guarded.cowDescentPath (allocates : Allocates start barrier allocateBlock)
    {effective path : List Nat} (done : ∀ block ∈ effective, start.Movable barrier block) :
    wp (cowDescentPath kind allocateBlock effective path)
      (fun path next => Guarded start barrier next ∧ ∀ block ∈ path, start.Movable barrier block)
      (Guarded start barrier) state := by
  induction path generalizing state effective with
  | nil =>
    unfold BTree.cowDescentPath
    rw [wp_pure]
    exact ⟨guarded, done⟩
  | cons orig rest ih =>
    unfold BTree.cowDescentPath
    rw [wp_bind]
    refine wp_readNode_any (fun node held => ?_) guarded
    rw [wp_bind, wp_get]
    split
    · next above =>
      exact ih guarded (forall_mem_cons.mpr ⟨guarded.movable_of_stamp held above, done⟩)
    · refine wp_seq (allocates state guarded) ?_
      rintro copyBlock next ⟨next_guarded, movable⟩
      refine wp_seq (next_guarded.placeCopy movable done) (fun _ last last_guarded => ?_)
      exact ih last_guarded (forall_mem_cons.mpr ⟨movable, done⟩)

/-- A cached leaf that may be changed in place may be written. -/
theorem Guarded.cachedLeaf (frozen : FrozenAt kind start root barrier) {count : Nat}
    {items : List (K × V)} (found : state.cachedLeaf kind block count = some (node, items)) :
    start.Movable barrier block := by
  obtain ⟨held, -, -, not_frozen⟩ := cachedLeaf_node found
  have live := frozen.positive.trans_le guarded.live
  refine guarded.movable_of_stamp held ?_
  simpa [State.isFrozen, live, frozen.recorded] using not_frozen

theorem Guarded.setCaches (fast : Option (FastLeaf K)) (range : Option (RangeLeaf K)) :
    Ends (Guarded start barrier) (setCaches fast range) state := by
  unfold Ends BTree.setCaches
  rw [wp_modify]
  exact { guarded with }

end Guarding

/-- A full internal node points only to blocks that may be written. -/
def Loose (kind : Kind) (movable : Nat → Prop) : Body K V → Prop
  | .leaf _ => True
  | .internal _ leftmost items => kind.maxInternalItems - 1 ≤ items.length →
      ∀ child ∈ childPtrs leftmost items, movable child

/-- The invariant of the splits: no full node on the path points to an old block. -/
structure Splitting (kind : Kind) (start : State K V) (barrier : Nat) (path : List Nat)
    (state : State K V) : Prop extends Guarded start barrier state where
  /-- The path may be written. -/
  movable : ∀ block ∈ path, start.Movable barrier block
  /-- No full node on the path points to an old block. -/
  loose : ∀ block ∈ path, ∀ body, state.bodies block = some body →
    Loose kind (start.Movable barrier) body

variable {leftBlock rightBlock leafBlock : Nat} {path : List Nat} {key : K} {value : V}
section Splits

theorem bodies_of_nodes (held : state.nodes block = some node) :
    state.bodies block = some node.body := by
  rw [State.bodies, held, Option.map_some]

theorem Splitting.tail (splitting : Splitting kind start barrier (block :: path) state) :
    Splitting kind start barrier path state :=
  ⟨splitting.toGuarded, (forall_mem_cons.mp splitting.movable).2,
    (forall_mem_cons.mp splitting.loose).2⟩

variable (splitting : Splitting kind start barrier path state)
include splitting

/-- Writing a block that may be written, with a payload that points to no old block or is not
full. -/
theorem Splitting.written (movable : start.Movable barrier block)
    (loose : Loose kind (start.Movable barrier) node.body) :
    Splitting kind start barrier path (state.written block node) := by
  refine ⟨splitting.toGuarded.written movable node, splitting.movable, fun other mem body held =>
    ?_⟩
  rw [bodies_written] at held
  by_cases same : other = block
  · subst same
    rw [Function.update_self, Option.some_inj] at held
    exact held ▸ loose
  · rw [Function.update_of_ne same] at held
    exact splitting.loose other mem body held

theorem Splitting.header (movable : start.Movable barrier block)
    (held : state.bodies block = some node.body) :
    Splitting kind start barrier path (state.written block node) := by
  refine ⟨splitting.toGuarded.written movable node, splitting.movable, ?_⟩
  rw [bodies_written_same held]
  exact splitting.loose

theorem Splitting.reparents {parent : Nat} {blocks : List Nat}
    (movable : ∀ block ∈ blocks, start.Movable barrier block) :
    Ends (Splitting kind start barrier path) (Run.each blocks (reparent kind parent)) state := by
  refine wp_each (fun block mem next kept => ?_) splitting
  unfold reparent
  rw [wp_bind]
  refine wp_readNode_any (fun node held => ?_) kept
  have body := bodies_of_nodes held
  rw [wp_writeNode]
  exact kept.header (movable block mem) body

theorem Splitting.allocate :
    wp allocate
      (fun block next => Splitting kind start barrier path next ∧ start.Movable barrier block)
      (Splitting kind start barrier path) state := by
  have allocated := splitting.toGuarded.allocate
  rw [wp_allocate] at allocated ⊢
  exact ⟨⟨allocated.1, splitting.movable, splitting.loose⟩, allocated.2⟩

/-- An internal split whose children may all be written. -/
theorem Splitting.splitInternal {parentBlock level leftmost : Nat} {items : List (K × Nat)}
    (parent_movable : start.Movable barrier parentBlock) (first : start.Movable barrier leftmost)
    (others : ∀ item ∈ items, start.Movable barrier item.2) :
    wp (splitInternal kind parentBlock node level leftmost items)
      (fun promoted next => Splitting kind start barrier path next ∧
        start.Movable barrier promoted.2)
      (Guarded start barrier) state := by
  unfold BTree.splitInternal
  rw [wp_bind]
  refine wp_mono splitting.allocate ?_ fun _ failed => failed.toGuarded
  rintro right next ⟨allocated, right_movable⟩
  cases dropped : items.drop (items.length / 2) with
  | nil => exact allocated.toGuarded
  | cons promoted right_items =>
    have in_right : ∀ item ∈ promoted :: right_items, start.Movable barrier item.2 := by
      intro item mem
      rw [← dropped] at mem
      exact others item (mem_of_mem_drop mem)
    have right_children : ∀ child ∈ childPtrs promoted.2 right_items,
        start.Movable barrier child := by
      exact forall_mem_map.mpr in_right
    have left_children : ∀ child ∈ childPtrs leftmost (items.take (items.length / 2)),
        start.Movable barrier child := by
      refine forall_mem_cons.mpr ⟨first, forall_mem_map.mpr fun item mem => ?_⟩
      exact others item (mem_of_mem_take mem)
    dsimp only
    rw [wp_bind, wp_writeNode, wp_bind, wp_writeNode, wp_bind]
    refine wp_mono (Splitting.reparents (Splitting.written (allocated.written right_movable ?_)
      parent_movable ?_) right_children) (fun _ last done => ⟨done, right_movable⟩)
      fun _ failed => failed.toGuarded
    · exact fun _ => right_children
    · exact fun _ => left_children

variable (frozen : FrozenAt kind start root barrier)
include frozen

/-- Re-parenting the blocks that name a block that may be written. -/
theorem Splitting.reparentsFrom {old parent : Nat} (movable : start.Movable barrier old)
    {blocks : List Nat} :
    Ends (Splitting kind start barrier path)
      (Run.each blocks (reparentFrom kind old parent)) state := by
  refine wp_each (fun block _ next kept => ?_) splitting
  unfold reparentFrom
  rw [wp_bind]
  refine wp_readNode_any (fun node held => ?_) kept
  split
  · next names =>
    have body := bodies_of_nodes held
    rw [wp_writeNode]
    refine kept.header ?_ body
    exact kept.toGuarded.movable_of_named frozen held (.inl (names ▸ movable))
  · exact kept

/-- The header updates of a root split. -/
theorem Splitting.relinkHalves {moved : Nat} {right : Node K V} {left : Body K V}
    (left_movable : start.Movable barrier leftBlock)
    (right_movable : start.Movable barrier rightBlock)
    (held : state.bodies rightBlock = some right.body) :
    Ends (Splitting kind start barrier path)
      (relinkHalves kind leftBlock moved rightBlock right left) state := by
  cases left with
  | leaf items =>
    unfold Ends BTree.relinkHalves
    rw [wp_writeNode]
    exact splitting.header right_movable held
  | internal level leftmost items =>
    unfold Ends BTree.relinkHalves
    rw [wp_bind, wp_writeNode]
    have written : Splitting kind start barrier path
        (state.written rightBlock { right with parentBlock := leftBlock }) :=
      splitting.header right_movable held
    exact written.reparentsFrom frozen left_movable

theorem Splitting.splitRoot (left_movable : start.Movable barrier leftBlock)
    (right_movable : start.Movable barrier rightBlock) :
    Ends (Guarded start barrier) (splitRoot kind leftBlock key rightBlock) state := by
  unfold Ends BTree.splitRoot
  rw [wp_bind]
  refine wp_mono splitting.allocate ?_ fun _ failed => failed.toGuarded
  rintro moved next ⟨allocated, moved_movable⟩
  rw [wp_bind]
  refine wp_readNode_any (fun left _ => ?_) allocated.toGuarded
  rw [wp_bind]
  refine wp_readNode_any (fun right held => ?_) allocated.toGuarded
  rw [wp_bind]
  refine wp_mono (allocated.relinkHalves frozen left_movable right_movable
    (bodies_of_nodes held)) (fun _ last linked => ?_) fun _ failed => failed.toGuarded
  rw [wp_bind, wp_writeNode, wp_writeNode]
  exact (linked.toGuarded.written moved_movable _).written left_movable _

theorem Splitting.relinkNext {nextLeaf : Nat} (leaf_movable : start.Movable barrier leafBlock) :
    Ends (Splitting kind start barrier path)
      (relinkNext kind leafBlock nextLeaf rightBlock) state := by
  unfold Ends BTree.relinkNext
  split
  · rw [wp_bind, wp_attempt]
    refine wp_readNode_any (fun node held => ?_) splitting
    have body := bodies_of_nodes held
    dsimp only
    split
    · next names =>
      rw [wp_writeNode]
      refine splitting.header ?_ body
      exact splitting.toGuarded.movable_of_named frozen held (.inr (names ▸ leaf_movable))
    · exact splitting
  · exact splitting

end Splits

variable [LinearOrder K] {fuel : Nat}
section Descending
variable (guarded : Guarded start barrier state)
include guarded

theorem Guarded.findLeaf {rightmost : Bool} :
    Ends (Guarded start barrier) (findLeaf kind key fuel block path rightmost) state := by
  induction fuel generalizing block path rightmost with
  | zero => exact guarded
  | succ fuel ih =>
    unfold Ends BTree.findLeaf
    rw [wp_bind]
    refine wp_readNode_any (fun node held => ?_) guarded
    cases node.body with
    | leaf items => exact guarded
    | internal level leftmost items => exact ih

variable (frozen : FrozenAt kind start root barrier)
include frozen

/-- The descent of a mutation ends with a path that may be written. -/
theorem Guarded.approach (allocates : Allocates start barrier allocateBlock) :
    wp (approach kind fuel key allocateBlock)
      (fun landed next => Guarded start barrier next ∧
        ∀ block ∈ landed.2, start.Movable barrier block)
      (Guarded start barrier) state := by
  unfold BTree.approach adoptRoot
  simp only [wp_bind, wp_get, wp_modify, wp_pure]
  have adopted : Guarded start barrier
      { state with handle := { state.handle with rootBlock := state.viewRoot kind } } :=
    { guarded with }
  refine wp_imp adopted.findLeaf (fun found next next_guarded => ?_)
  unfold pathCopy
  rw [wp_bind, wp_get]
  have copies : (decide (0 < next.cowBarrier) && isFrozenTree kind.nodeType) = true := by
    have live := frozen.positive.trans_le next_guarded.live
    simp [live, frozen.recorded]
  rw [if_pos copies]
  exact next_guarded.cowDescentPath allocates fun block none_done => by cases none_done

theorem Guarded.fastUpdate : Ends (Guarded start barrier) (fastUpdate kind key value) state := by
  unfold Ends BTree.fastUpdate
  rw [wp_bind, wp_get]
  split
  · exact guarded
  · next cached cache =>
    split
    · split
      · next node items found =>
        split
        · rw [wp_bind, wp_writeNode]
          exact guarded.written (guarded.cachedLeaf frozen found) _
        · rw [wp_bind]
          exact guarded.setCaches _ _
      · rw [wp_bind]
        exact guarded.setCaches _ _
    · exact guarded

theorem Guarded.fastAppend : Ends (Guarded start barrier) (fastAppend kind key value) state := by
  unfold Ends BTree.fastAppend
  rw [wp_bind, wp_get]
  split
  · exact guarded
  · next cached cache =>
    split
    · split
      · next node items found =>
        split
        · rw [wp_bind, wp_writeNode, wp_bind]
          exact (guarded.written (guarded.cachedLeaf frozen found) _).setCaches _ _
        · rw [wp_bind]
          exact guarded.setCaches _ _
      · rw [wp_bind]
        exact guarded.setCaches _ _
    · exact guarded

end Descending

/-- The separators of a node point to blocks that may be written, and so does the new one. -/
theorem forall_insertSeparator {movable : Nat → Prop} {ptr : Nat} {items : List (K × Nat)}
    (new : movable ptr) (old : ∀ item ∈ items, movable item.2) :
    ∀ item ∈ insertSeparator key ptr items, movable item.2 := by
  induction items with
  | nil => simpa [insertSeparator] using new
  | cons item rest ih =>
    unfold insertSeparator
    have both := forall_mem_cons.mp old
    split
    · exact forall_mem_cons.mpr ⟨new, old⟩
    · exact forall_mem_cons.mpr ⟨both.1, ih both.2⟩

section Inserting
section
variable (splitting : Splitting kind start barrier path state)
  (frozen : FrozenAt kind start root barrier)
include splitting frozen

/-- `insert_into_parent` along a path on which no full node points to an old block. -/
theorem Splitting.insertIntoParent (left_movable : start.Movable barrier leftBlock)
    (right_movable : start.Movable barrier rightBlock) :
    Ends (Guarded start barrier) (insertIntoParent kind path leftBlock key rightBlock) state := by
  induction path generalizing state leftBlock key rightBlock with
  | nil => exact splitting.splitRoot frozen left_movable right_movable
  | cons parent path ih =>
    have parent_movable := splitting.movable parent mem_cons_self
    unfold Ends BTree.insertIntoParent
    split
    · exact splitting.splitRoot frozen left_movable right_movable
    · rw [wp_bind]
      refine wp_readNode_any (fun node held => ?_) splitting.toGuarded
      cases body : node.body with
      | leaf items => exact splitting.toGuarded
      | internal level leftmost items =>
        dsimp only
        split
        · next full =>
          have children : ∀ child ∈ childPtrs leftmost items, start.Movable barrier child := by
            have loose := splitting.loose parent mem_cons_self _ (bodies_of_nodes held)
            rw [body] at loose
            exact loose full
          refine wp_seq (splitting.tail.splitInternal parent_movable
            (children leftmost mem_cons_self) (forall_insertSeparator right_movable
              fun item mem => children item.2 (mem_cons_of_mem _ (mem_map_of_mem mem)))) ?_
          rintro promoted next ⟨rest, promoted_movable⟩
          exact ih rest parent_movable promoted_movable
        · exact splitting.toGuarded.writeNode parent_movable _

theorem Splitting.splitLeaf {items : List (K × V)}
    (leaf_movable : start.Movable barrier leafBlock) :
    Ends (Guarded start barrier) (splitLeaf kind leafBlock node items path) state := by
  have voided : Splitting kind start barrier path state.invalidated :=
    ⟨{ splitting.toGuarded with }, splitting.movable, splitting.loose⟩
  unfold Ends BTree.splitLeaf invalidate
  rw [wp_bind, wp_modify, wp_bind]
  refine wp_mono voided.allocate ?_ fun _ failed => failed.toGuarded
  rintro right next ⟨allocated, right_movable⟩
  rw [wp_bind]
  refine wp_mono (allocated.relinkNext frozen leaf_movable) (fun _ linked kept => ?_)
    fun _ failed => failed.toGuarded
  dsimp only
  split
  · exact kept.toGuarded
  · rw [wp_bind, wp_writeNode, wp_bind, wp_writeNode]
    refine Splitting.insertIntoParent (Splitting.written (kept.written right_movable ?_)
      leaf_movable ?_) frozen leaf_movable right_movable
    · trivial
    · trivial

end

/-- The children of a node are stamped above the barrier, or the node has room for another. -/
def State.privateChildren (state : State K V) (kind : Kind) (block : Nat) : Bool :=
  match state.nodes block with
  | none => true
  | some node =>
    match node.body with
    | .leaf _ => true
    | .internal _ leftmost items =>
      decide (items.length < kind.maxInternalItems - 1) ||
        (childPtrs leftmost items).all fun child =>
          match state.nodes child with
          | none => false
          | some node => decide (state.cowBarrier < node.generation)

/-- An attempt to insert splits no leaf, or all children of every full internal node on its path
are stamped above the barrier. -/
def attemptPrivate (kind : Kind) (fuel : Nat) (key : K) (value : V) (state : State K V) : Bool :=
  match fastUpdate kind key value state with
  | (some false, first) =>
    match fastAppend kind key value first with
    | (some false, second) =>
      match approach kind fuel key allocate second with
      | (some landed, third) =>
        decide (landed.1.items.length < kind.maxLeafItems - 1) ||
          landed.2.tail.all (third.privateChildren kind)
      | (none, _) => true
    | _ => true
  | _ => true

/-- Every attempt of an insertion is of this kind. -/
def splitsPrivate (kind : Kind) : (fuel : Nat) → (key : K) → (value : V) → State K V → Bool
  | 0, _, _, _ => true
  | fuel + 1, key, value, state =>
    attemptPrivate kind (fuel + 1) key value state &&
      match insertAttempt kind (fuel + 1) key value state with
      | (some false, next) => splitsPrivate kind fuel key value next
      | _ => true

omit [LinearOrder K] in
/-- Children stamped above the barrier may be written. -/
theorem Guarded.loose_of_private (guarded : Guarded start barrier state)
    (private_children : state.privateChildren kind block = true) {body : Body K V}
    (held : state.bodies block = some body) : Loose kind (start.Movable barrier) body := by
  obtain ⟨node, stored, rfl⟩ := Option.map_eq_some_iff.mp held
  cases shape : node.body with
  | leaf items => trivial
  | internal level leftmost items =>
    intro full child mem
    simp only [State.privateChildren, stored, shape, Bool.or_eq_true, decide_eq_true_eq,
      all_eq_true] at private_children
    rcases private_children with has_room | above
    · omega
    · have stamp := above child mem
      split at stamp
      · cases stamp
      · next node found =>
        exact guarded.movable_of_stamp found (of_decide_eq_true stamp)

theorem Guarded.placeInLeaf (guarded : Guarded start barrier state) {found : Found K V}
    (movable : start.Movable barrier leafBlock) :
    Ends (Guarded start barrier) (placeInLeaf leafBlock found key value) state := by
  unfold Ends BTree.placeInLeaf
  rw [wp_bind, wp_writeNode, wp_bind, wp_get]
  have written := guarded.written movable
    { found.node with body := .leaf (Assoc.insert key value found.items) }
  split
  · exact written.setCaches _ _
  · exact written

variable (guarded : Guarded start barrier state) (frozen : FrozenAt kind start root barrier)
include guarded frozen

theorem Guarded.insertAttempt (privately : attemptPrivate kind fuel key value state = true) :
    Ends (Guarded start barrier) (insertAttempt kind fuel key value) state := by
  unfold Ends BTree.insertAttempt
  unfold attemptPrivate at privately
  refine wp_seq (wp_remember (guarded.fastUpdate frozen)) ?_
  rintro (_ | _) first ⟨updated, first_guarded⟩
  · rw [if_neg Bool.false_ne_true]
    refine wp_seq (wp_remember (first_guarded.fastAppend frozen)) ?_
    rintro (_ | _) second ⟨appended, second_guarded⟩
    · rw [if_neg Bool.false_ne_true]
      refine wp_seq (wp_remember (second_guarded.approach frozen fun _ kept =>
        kept.allocate)) ?_
      rintro ⟨found, path⟩ third ⟨ran, third_guarded, movable⟩
      simp only [updated, appended, ran, Bool.or_eq_true, decide_eq_true_eq,
        all_eq_true] at privately
      cases path with
      | nil => exact third_guarded
      | cons leafBlock ancestors =>
        have leaf_movable := movable leafBlock mem_cons_self
        dsimp only
        split
        · next full =>
          rw [wp_bind]
          have splitting : Splitting kind start barrier ancestors third := by
            refine ⟨third_guarded, fun block mem => movable block
              (mem_cons_of_mem _ mem), fun block mem body held => ?_⟩
            rcases privately with not_full | private_path
            · omega
            · exact third_guarded.loose_of_private (private_path block mem) held
          exact splitting.splitLeaf frozen leaf_movable
        · rw [wp_bind]
          exact third_guarded.placeInLeaf leaf_movable
    · exact second_guarded
  · exact first_guarded

theorem Guarded.insert (privately : splitsPrivate kind fuel key value state = true) :
    Ends (Guarded start barrier) (insert kind fuel key value) state := by
  induction fuel generalizing state with
  | zero => exact guarded
  | succ fuel ih =>
    unfold splitsPrivate at privately
    rw [Bool.and_eq_true] at privately
    unfold Ends BTree.insert
    refine wp_seq (wp_remember (guarded.insertAttempt frozen privately.1)) ?_
    rintro (_ | _) next ⟨ran, kept⟩
    · rw [if_neg Bool.false_ne_true]
      rw [ran] at privately
      exact ih kept privately.2
    · exact kept

theorem Guarded.removeInner (allocates : Allocates start barrier allocateBlock) :
    Ends (Guarded start barrier) (removeInner kind fuel key allocateBlock) state := by
  have voided : Guarded start barrier state.invalidated := { guarded with }
  unfold Ends BTree.removeInner invalidate
  rw [wp_bind, wp_modify]
  refine wp_seq (voided.approach frozen allocates) ?_
  rintro landed next ⟨kept, movable⟩
  cases path : landed.2 with
  | nil => exact kept
  | cons leafBlock ancestors =>
    dsimp only
    split
    · rw [wp_bind, wp_writeNode]
      exact kept.written (movable leafBlock (path ▸ mem_cons_self)) _
    · exact kept

theorem Guarded.command (op : Op K V)
    (privately : ∀ handle key value, op = .insert handle key value →
      splitsPrivate kind fuel key value state = true) :
    Guarded start barrier (op.command kind fuel state).2 := by
  have kept : Ends (Guarded start barrier) (op.command kind fuel) state := by
    cases op with
    | insert handle key value => exact guarded.insert frozen (privately handle key value rfl)
    | remove handle key =>
      unfold Ends Op.command
      rw [wp_bind]
      have no_allocator : Allocates start barrier Run.fail := fun _ kept => kept
      exact guarded.removeInner frozen no_allocator
    | removeWithAlloc handle key =>
      unfold Ends Op.command
      rw [wp_bind]
      exact guarded.removeInner frozen fun _ kept => kept.allocate
  exact state_of_wp kept

end Inserting

section Reading
variable {next : State K V}

omit [LinearOrder K] in
/-- A node that two states hold alike is read from both or from neither. -/
theorem readNode_cases (same : next.nodes block = start.nodes block) :
    readNode kind block start = (none, start) ∧ readNode kind block next = (none, next) ∨
      ∃ node, start.nodes block = some node ∧ readNode kind block start = (some node, start) ∧
        readNode kind block next = (some node, next) := by
  unfold readNode
  rw [same]
  split
  · next node held =>
    split
    · exact .inr ⟨node, held, rfl, rfl⟩
    · exact .inl ⟨rfl, rfl⟩
  · exact .inl ⟨rfl, rfl⟩

theorem childFor_mem (key : K) (leftmost : Nat) (items : List (K × Nat)) :
    childFor key leftmost items ∈ childPtrs leftmost items := by
  induction items generalizing leftmost with
  | nil => exact mem_singleton_self leftmost
  | cons item rest ih =>
    unfold childFor
    split
    · exact mem_cons_of_mem _ (ih item.2)
    · exact mem_cons_self

theorem lookupFrom_congr
    (same : ∀ block, Reaches start.nodes root block → next.nodes block = start.nodes block)
    (reached : Reaches start.nodes root block) :
    (lookupFrom kind key fuel block next).1 = (lookupFrom kind key fuel block start).1 := by
  induction fuel generalizing block with
  | zero => rfl
  | succ fuel ih =>
    unfold lookupFrom
    obtain ⟨here, there⟩ | ⟨node, held, here, there⟩ := readNode_cases (same block reached)
    · rw [bind_none there, bind_none here]
    · rw [bind_some there, bind_some here]
      cases body : node.body with
      | leaf items => rfl
      | internal level leftmost items =>
        refine ih (.child reached held ?_)
        rw [body]
        exact childFor_mem key leftmost items

omit [LinearOrder K] in
theorem collectPairs_fold_congr (items : List (K × Nat)) (out : List (K × V))
    (each : ∀ item ∈ items, collectPairs kind fuel item.2 start =
        ((collectPairs kind fuel item.2 start).1, start) ∧
      collectPairs kind fuel item.2 next = ((collectPairs kind fuel item.2 start).1, next)) :
    (items.foldlM (fun out item => do
      let more ← collectPairs kind fuel item.2
      pure (out ++ more)) out : Run (State K V) (List (K × V))) next =
    (((items.foldlM (fun out item => do
      let more ← collectPairs kind fuel item.2
      pure (out ++ more)) out : Run (State K V) (List (K × V))) start).1, next) := by
  induction items generalizing out with
  | nil => rfl
  | cons item rest ih =>
    obtain ⟨here, there⟩ := each item mem_cons_self
    rw [foldlM_cons, bind_apply, bind_apply, bind_apply, bind_apply, there, here]
    cases (collectPairs kind fuel item.2 start).1 with
    | none => rfl
    | some more =>
      exact ih (out ++ more) (forall_mem_cons.mp each).2

omit [LinearOrder K] in
theorem collectPairs_congr
    (same : ∀ block, Reaches start.nodes root block → next.nodes block = start.nodes block)
    (reached : Reaches start.nodes root block) :
    collectPairs kind fuel block next = ((collectPairs kind fuel block start).1, next) := by
  induction fuel generalizing block next with
  | zero => rfl
  | succ fuel ih =>
    unfold collectPairs
    obtain ⟨here, there⟩ | ⟨node, held, here, there⟩ := readNode_cases (same block reached)
    · rw [bind_none there, bind_none here]
    · rw [bind_some there, bind_some here]
      cases body : node.body with
      | leaf items => rfl
      | internal level leftmost items =>
        have children : ∀ child ∈ childPtrs leftmost items,
            collectPairs kind fuel child start = ((collectPairs kind fuel child start).1, start) ∧
            collectPairs kind fuel child next = ((collectPairs kind fuel child start).1, next) := by
          intro child mem
          have below : Reaches start.nodes root child := .child reached held (by rwa [body])
          exact ⟨ih (fun _ _ => rfl) below, ih same below⟩
        obtain ⟨first_here, first_there⟩ := children leftmost mem_cons_self
        dsimp only
        rw [bind_apply, bind_apply, first_there, first_here]
        cases (collectPairs kind fuel leftmost start).1 with
        | none => rfl
        | some out =>
          exact collectPairs_fold_congr items out fun item mem =>
            children item.2 (mem_cons_of_mem _ (mem_map_of_mem mem))

end Reading

/-- What happens to a session while a snapshot is live. -/
inductive Event (K V : Type) where
  /-- An operation through a handle, whether it succeeds or not. -/
  | perform (op : Op K V)
  /-- Another barrier, for snapshots that come and go. -/
  | setBarrier (barrier : Nat)
  /-- A new transaction: the root cells are empty again. -/
  | newTransaction

/-- The session after an event. -/
def Event.apply (kind : Kind) (fuel : Nat) (session : Session K V) : Event K V → Session K V
  | .perform op => (Session.step kind fuel op session).2
  | .setBarrier barrier =>
    { session with state := { session.state with cowBarrier := barrier } }
  | .newTransaction => { session with state := { session.state with rootCell := none } }

/-- The barrier does not sink below a snapshot's, and insertions split privately. -/
def Event.Allowed (kind : Kind) (fuel barrier : Nat) (session : Session K V) : Event K V → Prop
  | .perform (.insert handle key value) =>
    splitsPrivate kind fuel key value (session.state.through (session.handles handle)) = true
  | .perform _ => True
  | .setBarrier value => barrier ≤ value
  | .newTransaction => True

/-- A history all of whose events are allowed. -/
def AllowedRun (kind : Kind) (fuel barrier : Nat) : Session K V → List (Event K V) → Prop
  | _, [] => True
  | session, event :: events =>
    event.Allowed kind fuel barrier session ∧
      AllowedRun kind fuel barrier (event.apply kind fuel session) events

section Views
variable {kind : Kind} {start : State K V} {root barrier : Nat}

theorem Guarded.run {session : Session K V} (guarded : Guarded start barrier session.state)
    (frozen : FrozenAt kind start root barrier) {events : List (Event K V)}
    (allowed : AllowedRun kind fuel barrier session events) :
    Guarded start barrier (events.foldl (Event.apply kind fuel) session).state := by
  induction events generalizing session with
  | nil => exact guarded
  | cons event events ih =>
    obtain ⟨here, later⟩ := allowed
    refine ih ?_ later
    cases event with
    | perform op =>
      have seen : Guarded start barrier (session.state.through (session.handles op.handle)) :=
        { guarded with }
      refine seen.command frozen op fun handle key value same => ?_
      subst same
      exact here
    | setBarrier value => exact { guarded with live := here }
    | newTransaction => exact { guarded with }

/-- The view of a tree through a frozen handle: what `lookup` and `iter_all` return. -/
def frozenView (kind : Kind) (depth root : Nat) (state : State K V) :
    (K → Option (Option V)) × Option (List (K × V)) :=
  (fun key => (lookup kind depth key (state.through (Handle.newFrozen K root))).1,
    (iterAll kind depth (state.through (Handle.newFrozen K root))).1)

/-- In every history that keeps the barrier and whose insertions split privately, a snapshot's
view of the tree stays what it was. -/
theorem frozen_view_stable (frozen : FrozenAt kind start root barrier) (session : Session K V)
    (opened : session.state = start) (events : List (Event K V))
    (allowed : AllowedRun kind fuel barrier session events) (depth : Nat) :
    frozenView kind depth root (events.foldl (Event.apply kind fuel) session).state =
      frozenView kind depth root start := by
  have guarded : Guarded start barrier session.state := by
    rw [opened]
    exact ⟨fun _ _ => rfl, frozen.set, rfl, le_rfl⟩
  have kept := guarded.run frozen allowed
  generalize events.foldl (Event.apply kind fuel) session = last at kept ⊢
  have same : ∀ block, Reaches start.nodes root block →
      last.state.nodes block = start.nodes block := by
    intro block reached
    refine kept.kept block ?_
    rintro (fresh | ⟨node, held, above⟩)
    · exact frozen.fresh block reached fresh
    · exact absurd (frozen.stamps block reached node held) (by omega)
  have through : ∀ block, Reaches (start.through (Handle.newFrozen K root)).nodes root block →
      (last.state.through (Handle.newFrozen K root)).nodes block = start.nodes block := same
  refine Prod.ext ?_ ?_
  · funext key
    exact lookupFrom_congr through Reaches.root
  · show (collectPairs kind depth root _).1 = (collectPairs kind depth root _).1
    rw [collectPairs_congr through Reaches.root]

/-- A layout with four pairs to a leaf and three separators to an internal node. -/
def wideLayout : Layout := ⟨1000, 3, 8, 3⟩

/-- A tree of two levels at block one when a snapshot is taken at stamp four: the first leaf and
the root are full. -/
def snapshotTree : State Nat Nat :=
  { nodes := fun block =>
      if block = 1 then some ⟨.internal 0 2 [(20, 3), (30, 4)], 4, 0, 0, 0⟩
      else if block = 2 then some ⟨.leaf [(5, 50), (6, 60), (10, 100)], 3, 1, 3, 0⟩
      else if block = 3 then some ⟨.leaf [(20, 200)], 1, 1, 4, 2⟩
      else if block = 4 then some ⟨.leaf [(30, 300), (40, 400)], 2, 1, 0, 3⟩
      else none
    nodeGen := 4, epoch := 0, cowBarrier := 4, rootCell := none, rootMirror := 0
    allocator := fun index => index + 5, allocations := 0, handle := Handle.new Nat 1 }

/-- The snapshot's tree and barrier are as a snapshot finds them. -/
theorem frozenAt_snapshotTree : FrozenAt (wideLayout.kind 5) snapshotTree 1 4 := by
  have nodes : ∀ block node, snapshotTree.nodes block = some node →
      block < 5 ∧ node.generation ≤ 4 ∧ node.parentBlock < 5 ∧ node.prevLeaf < 5 ∧
        ∀ child ∈ node.body.children, child < 5 := by
    intro block node held
    simp only [snapshotTree] at held
    split_ifs at held <;> cases held <;> simp_all [Body.children, childPtrs]
  have movable : ∀ block, snapshotTree.Movable 4 block → 5 ≤ block := by
    rintro block (⟨index, -, rfl⟩ | ⟨node, held, above⟩)
    · simp [snapshotTree]
    · have stamp := (nodes block node held).2.1
      omega
  have small : ∀ block, Reaches snapshotTree.nodes 1 block → block < 5 := by
    intro block reached
    cases reached with
    | root => decide
    | child reached held points => exact (nodes _ _ held).2.2.2.2 block points
  refine ⟨rfl, by decide, by decide, fun block _ node held => (nodes block node held).2.1,
    fun block reached fresh => ?_, fun block node _ held => ⟨fun named => ?_, fun named => ?_⟩⟩
  · have low := small block reached
    have high := movable block (.inl fresh)
    omega
  · have low := (nodes block node held).2.2.1
    have high := movable _ named
    omega
  · have low := (nodes block node held).2.2.2.1
    have high := movable _ named
    omega

/-- An insertion and a removal that split nothing: the view keeps key thirty and gets no key
twenty-one. -/
theorem frozen_view_stable_without_split :
    frozenView (wideLayout.kind 5) 3 1 ([Event.perform (.insert 0 21 210),
      .perform (.removeWithAlloc 1 30)].foldl (Event.apply (wideLayout.kind 5) 4)
        (Session.opened 1 snapshotTree)).state =
      frozenView (wideLayout.kind 5) 3 1 snapshotTree :=
  frozen_view_stable frozenAt_snapshotTree (Session.opened 1 snapshotTree) rfl _
    (show AllowedRun (wideLayout.kind 5) 4 4 (Session.opened 1 snapshotTree)
      [.perform (.insert 0 21 210), .perform (.removeWithAlloc 1 30)] from
      ⟨(by decide +kernel : splitsPrivate _ _ _ _ _ = true), trivial, trivial⟩) 3

/-- Key seven splits the full root, which stamps the leaf of key twenty anew, and key twenty-one
is then inserted into that leaf in place: the snapshot gets a key it did not have. -/
theorem reparented_leaf_changes_view : FrozenAt (wideLayout.kind 5) snapshotTree 1 4 ∧
    (frozenView (wideLayout.kind 5) 3 1 snapshotTree).1 21 = some none ∧
    (frozenView (wideLayout.kind 5) 3 1 ([Event.perform (.insert 0 7 70),
      .perform (.insert 0 21 210)].foldl (Event.apply (wideLayout.kind 5) 4)
        (Session.opened 1 snapshotTree)).state).1 21 = some (some 210) :=
  ⟨frozenAt_snapshotTree, by decide +kernel, by decide +kernel⟩

end Views
end LionFS.BTree
