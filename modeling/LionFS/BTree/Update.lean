import LionFS.BTree.Split

/-!
# Inserting and removing

`Represents` is what one tree in a transaction looks like from outside: a list of
bindings in key order, the blocks of the leaves in order, and how much fuel a
mutation may need. The caches of a handle are valid when, under the current
epoch, they name a leaf of the tree, the fast one the last leaf. Every mutation
keeps both, whichever of the three ways an insertion takes, and changes the
bindings as the ordered map does.
-/
namespace LionFS.BTree
open Run List Option Assoc Prod
variable {K V : Type} [LinearOrder K]

/-- The leaves an insertion would split. -/
def fullLeaves (kind : Kind) (contents : List (List (K × V))) : Nat :=
  contents.countP fun items => kind.maxLeafItems - 1 ≤ items.length

/-- A tree at a root block in a transaction without a barrier: its bindings, the blocks of its
leaves, and its height with twice the number of its full leaves at most `effort`. -/
structure Represents (kind : Kind) (root : Nat) (state : State K V) (bindings : List (K × V))
    (blocks : List Nat) (effort : Nat) : Prop where
  /-- The tree, all of whose blocks are kept from the allocator. -/
  tree : ∃ height leaves own, Rep state.bodies kind height ⊥ ⊤ root leaves own ∧
    entries leaves = bindings ∧ leaves.map fst = blocks ∧
    height + 2 * fullLeaves kind (leaves.map snd) ≤ effort ∧ state.Fresh own
  barrier : state.cowBarrier = 0
  live : state.effectiveRoot kind root = root

variable {kind : Kind} {bindings : List (K × V)} {root : Nat} {blocks : List Nat} {effort : Nat}

theorem Represents.of_eq {state next : State K V}
    (tree : Represents kind root state bindings blocks effort) (bodies : next.bodies = state.bodies)
    (allocator : next.allocator = state.allocator) (spot : state.allocations ≤ next.allocations)
    (barrier : next.cowBarrier = state.cowBarrier)
    (live : next.effectiveRoot kind root = state.effectiveRoot kind root) :
    Represents kind root next bindings blocks effort := by
  obtain ⟨height, leaves, own, rep, rest⟩ := tree.tree
  refine ⟨⟨height, leaves, own, ?_, rest.1, rest.2.1, rest.2.2.1,
    rest.2.2.2.of_eq allocator spot⟩, barrier.trans tree.barrier, live.trans tree.live⟩
  rw [bodies]
  exact rep

variable {state : State K V}

theorem Represents.mono {effort' : Nat} (tree : Represents kind root state bindings blocks effort)
    (more : effort ≤ effort') : Represents kind root state bindings blocks effort' := by
  obtain ⟨height, leaves, own, rep, same, places, enough, fresh⟩ := tree.tree
  exact ⟨⟨height, leaves, own, rep, same, places, enough.trans more, fresh⟩, tree.barrier,
    tree.live⟩

/-- The root and the caches of a handle fit the tree. -/
structure Handle.Valid (handle : Handle K) (root epoch : Nat) (blocks : List Nat) : Prop where
  rootBlock : handle.rootBlock = root
  live : handle.frozenView = false
  /-- A fast leaf of this epoch is the last leaf. -/
  fast : ∀ cached, handle.fastLeaf = some cached →
    cached.epoch ≤ epoch ∧ (cached.epoch = epoch → blocks.getLast? = some cached.leafBlock)
  range : ∀ cached, handle.rangeLeaf = some cached →
    cached.epoch ≤ epoch ∧ (cached.epoch = epoch → cached.leafBlock ∈ blocks)

omit [LinearOrder K] in
theorem Handle.Valid.new (root epoch : Nat) (blocks : List Nat) :
    (Handle.new K root).Valid root epoch blocks :=
  ⟨rfl, rfl, fun _ none_cached => absurd none_cached (by simp [Handle.new]),
    fun _ none_cached => absurd none_cached (by simp [Handle.new])⟩

/-- From one tree to another: the leaves are the same, or caches filled before are void. -/
def Reshaped (epoch epoch' : Nat) (blocks blocks' : List Nat) : Prop :=
  (epoch' = epoch ∧ blocks' = blocks) ∨ epoch < epoch'

omit [LinearOrder K] in
theorem Handle.Valid.reshaped {handle : Handle K} {epoch epoch' : Nat} {blocks' : List Nat}
    (valid : handle.Valid root epoch blocks) (reshaped : Reshaped epoch epoch' blocks blocks') :
    handle.Valid root epoch' blocks' := by
  rcases reshaped with ⟨rfl, rfl⟩ | later
  · exact valid
  · refine ⟨valid.rootBlock, valid.live, fun cached found => ?_, fun cached found => ?_⟩
    · have old := (valid.fast cached found).1
      exact ⟨by omega, fun same => by omega⟩
    · have old := (valid.range cached found).1
      exact ⟨by omega, fun same => by omega⟩

variable {items : List (K × V)}

omit [LinearOrder K] in
theorem fullLeaves_split (capacity : 4 ≤ kind.maxLeafItems) (before after : List (List (K × V)))
    (full : items.length = kind.maxLeafItems - 1) :
    fullLeaves kind (before ++ (items.take (items.length / 2) ::
      items.drop (items.length / 2) :: after)) + 1 =
        fullLeaves kind (before ++ items :: after) := by
  have left : ¬kind.maxLeafItems - 1 ≤ (items.take (items.length / 2)).length := by
    rw [length_take]
    omega
  have right : ¬kind.maxLeafItems - 1 ≤ (items.drop (items.length / 2)).length := by
    rw [length_drop]
    omega
  simp only [fullLeaves, countP_append, countP_cons, decide_eq_true_eq, left, right,
    full.ge, ↓reduceIte]
  omega

variable {before after : List (Leaf K V)} {outside : Finset Nat} {node : Node K V} {path : List Nat}
  {lo hi : Bound K} {block : Nat}

/-- The pairs of the leaves around and in a place are in key order. -/
theorem LeafAt.ordered {bodies : Nat → Option (Body K V)}
    (place : LeafAt bodies kind root path block items lo hi before after outside) :
    Assoc.Ordered (entries (before ++ (block, items) :: after)) :=
  (place.hole.fill place.leaf (Finset.disjoint_singleton_left.mpr place.apart)).ordered

section
variable (node) (place : LeafAt state.bodies kind root path block items lo hi before after outside)
  (fresh : state.Fresh ({block} ∪ outside)) (barrier : state.cowBarrier = 0)
  (live : state.effectiveRoot kind root = root)
  (enough : path.length + 2 * fullLeaves kind ((before ++ (block, items) :: after).map snd) ≤
    effort)
include place fresh barrier live enough

theorem Represents.put {items' : List (K × V)}
    (ordered : Assoc.Ordered items') (inside : Within lo hi (block, items'))
    (room : items'.length ≤ kind.maxLeafItems - 1) (bindings_ordered : Assoc.Ordered bindings)
    (same : ∀ key, find key (entries (before ++ (block, items') :: after)) = find key bindings) :
    Represents kind root (state.written block { node with body := .leaf items' }) bindings
      ((before ++ (block, items) :: after).map fst) (effort + 2) := by
  set next := state.written block { node with body := .leaf items' }
  have held : next.bodies block = some (.leaf items') := by
    rw [bodies_written, Function.update_self]
  have others : ∀ other ∈ outside, next.bodies other = state.bodies other := by
    intro other mem
    have ne : other ≠ block := fun eq => place.apart (eq ▸ mem)
    rw [bodies_written, Function.update_of_ne ne]
  have leaf : Rep next.bodies kind 0 lo hi block [(block, items')] {block} :=
    ⟨items', held, rfl, rfl, ordered, inside, room⟩
  have rep := (place.hole.frame others).fill leaf (Finset.disjoint_singleton_left.mpr place.apart)
  rw [Nat.zero_add] at rep
  refine ⟨⟨path.length, _, _, rep, ?_, ?_, ?_, fresh.of_eq rfl le_rfl⟩, barrier, live⟩
  · exact rep.ordered.ext bindings_ordered same
  · simp
  · -- One leaf changed: at most one more is full.
    simp only [singleton_append, fullLeaves, map_append, map_cons, countP_append, countP_cons]
      at enough ⊢
    split <;> split at enough <;> omega

theorem Represents.put_insert {key : K} {value : V} (low : lo ≤ bound key) (high : bound key < hi)
    (room : (Assoc.insert key value items).length ≤ kind.maxLeafItems - 1) :
    Represents kind root
      (state.written block { node with body := .leaf (Assoc.insert key value items) })
      (Assoc.insert key value (entries (before ++ (block, items) :: after)))
      ((before ++ (block, items) :: after).map fst) (effort + 2) := by
  obtain ⟨ordered, inside, -⟩ := place.contents
  refine Represents.put node place fresh barrier live enough (ordered.insert key value) ?_ room
    (place.ordered.insert key value) fun other => ?_
  · intro item mem
    rcases mem_insert mem with rfl | old
    · exact ⟨low, high⟩
    · exact inside item old
  · rw [find_insert]
    exact place.find_put low high (fun other => find_insert key other value items) other

/-- A pair removed from the leaf for its key is removed from the tree. -/
theorem Represents.put_erase {key : K} (low : lo ≤ bound key) (high : bound key < hi) :
    Represents kind root (state.written block { node with body := .leaf (erase key items) })
      (erase key (entries (before ++ (block, items) :: after)))
      ((before ++ (block, items) :: after).map fst) (effort + 2) := by
  obtain ⟨ordered, inside, room⟩ := place.contents
  have sublist := erase_sublist key items
  refine Represents.put node place fresh barrier live enough (ordered.erase key) ?_
    (sublist.length_le.trans room) (place.ordered.erase key) fun other => ?_
  · exact fun item mem => inside item (sublist.subset mem)
  · rw [find_erase place.ordered]
    exact place.find_put low high (fun other => find_erase ordered key other) other

end

/-- What a mutation leaves: a tree with the given bindings, and valid caches. -/
def Mutated (kind : Kind) (root epoch : Nat) (blocks : List Nat) (bindings : List (K × V))
    (effort : Nat) (next : State K V) : Prop :=
  ∃ blocks', Represents kind root next bindings blocks' effort ∧
    next.handle.Valid root next.epoch blocks' ∧ Reshaped epoch next.epoch blocks blocks'

omit [LinearOrder K] in
theorem cachedLeaf_node {count : Nat}
    (found : state.cachedLeaf kind block count = some (node, items)) :
    state.nodes block = some node ∧ node.body = .leaf items ∧ items.length = count ∧
      state.isFrozen kind node = false := by
  unfold State.cachedLeaf readNode at found
  cases stored : state.nodes block with
  | none => simp [stored] at found
  | some held =>
    rw [stored] at found
    dsimp only at found
    split at found
    · next node' read =>
      split at read
      · cases read
        split at found
        · next items' body =>
          split at found
          · next both =>
            cases found
            exact ⟨rfl, body, both⟩
          · cases found
        · cases found
      · cases read
    · cases found

omit [LinearOrder K] in
theorem cachedLeaf_eq {count : Nat}
    (found : state.cachedLeaf kind block count = some (node, items)) :
    state.bodies block = some (.leaf items) ∧ items.length = count := by
  obtain ⟨stored, body, length, -⟩ := cachedLeaf_node found
  rw [State.bodies, stored, map_some, body]
  exact ⟨rfl, length⟩

theorem Represents.leafAt (tree : Represents kind root state bindings blocks effort)
    (mem : block ∈ blocks) (held : state.bodies block = some (.leaf items)) :
    ∃ path lo hi before after outside,
      LeafAt state.bodies kind root path block items lo hi before after outside ∧
      entries (before ++ (block, items) :: after) = bindings ∧
      (before ++ (block, items) :: after).map fst = blocks ∧
      path.length + 2 * fullLeaves kind ((before ++ (block, items) :: after).map snd) ≤ effort ∧
      state.Fresh ({block} ∪ outside) ∧ (blocks.getLast? = some block → hi = ⊤) := by
  obtain ⟨height, leaves, own, rep, rfl, rfl, enough, fresh⟩ := tree.tree
  obtain ⟨⟨block, found⟩, leaf_mem, rfl⟩ := mem_map.mp mem
  obtain ⟨path, lo, hi, before, after, outside, place, order, blocks, length⟩ :=
    rep.leafAt_of_mem (Hole.root height) (Finset.disjoint_empty_right own) leaf_mem
  obtain ⟨stored, leaf_held, only, -⟩ := place.leaf
  obtain rfl : found = stored := by simpa using only
  obtain rfl : found = items := by simpa [leaf_held] using held
  simp only [nil_append, append_nil, Finset.union_empty, length_nil, Nat.zero_add]
    at order blocks length
  subst order blocks length
  refine ⟨path, lo, hi, before, after, outside, place, rfl, rfl, enough, fresh, fun last => ?_⟩
  refine place.hole.hi_eq_top ?_
  rw [map_append, map_cons, getLast?_append, getLast?_cons] at last
  cases ending : after.getLast? with
  | none => exact getLast?_eq_none_iff.mp ending
  | some other =>
    rw [getLast?_map, ending] at last
    have same : other.1 = block := by simpa using last
    have outer := place.hole.leaf_mem_outside other (mem_of_getLast? ending)
    exact absurd (same ▸ outer) place.apart

section Commands
variable {key : K} {value : V}

/-- What a fast path leaves: the mutation when it was taken, and otherwise the tree as it was,
with valid caches. -/
def FastOutcome (kind : Kind) (root : Nat) (state : State K V) (bindings : List (K × V))
    (blocks : List Nat) (effort : Nat) (key : K) (value : V) (taken : Bool)
    (next : State K V) : Prop :=
  match taken with
  | true => Mutated kind root state.epoch blocks (Assoc.insert key value bindings) (effort + 2) next
  | false => Represents kind root next bindings blocks effort ∧
      next.handle.Valid root next.epoch blocks ∧ next.epoch = state.epoch

variable (tree : Represents kind root state bindings blocks effort)
include tree
section
variable {fast : Option (FastLeaf K)} {range : Option (RangeLeaf K)}
  (valid : ({ state.handle with fastLeaf := fast, rangeLeaf := range } : Handle K).Valid root
    state.epoch blocks)
include valid

theorem wp_setCaches :
    wp (setCaches fast range)
      (fun _ next => Represents kind root next bindings blocks effort ∧
        next.handle.Valid root next.epoch blocks ∧ next.epoch = state.epoch)
      never state := by
  unfold setCaches
  rw [wp_modify]
  exact ⟨tree.of_eq rfl rfl le_rfl rfl rfl, valid, rfl⟩

/-- Dropping a cache and taking the slow road. -/
theorem wp_dropCaches :
    wp (setCaches fast range >>= fun _ => pure false)
      (FastOutcome kind root state bindings blocks effort key value) never state := by
  rw [wp_bind]
  exact wp_setCaches tree valid

end

variable (valid : state.handle.Valid root state.epoch blocks)
include valid

/-- The in-place update, or nothing. -/
theorem fastUpdate_spec : wp (fastUpdate kind key value)
      (FastOutcome kind root state bindings blocks effort key value) never state := by
  have dropped : ({ state.handle with rangeLeaf := none } : Handle K).Valid root state.epoch
      blocks :=
    ⟨valid.rootBlock, valid.live, valid.fast, nofun⟩
  unfold fastUpdate
  rw [wp_bind, wp_get]
  cases cache : state.handle.rangeLeaf with
  | none => exact ⟨tree, valid, rfl⟩
  | some cached =>
    dsimp only
    split
    · next guard =>
      obtain ⟨-, -, -, current⟩ := guard
      cases found : state.cachedLeaf kind cached.leafBlock cached.itemCount with
      | none => exact wp_dropCaches tree dropped
      | some leaf =>
        obtain ⟨node, items⟩ := leaf
        dsimp only
        split
        · next bound_key =>
          obtain ⟨held, -⟩ := cachedLeaf_eq found
          have mem := (valid.range cached cache).2 current
          obtain ⟨path, lo, hi, before, after, outside, place, rfl, blocks_eq, enough, fresh, -⟩ :=
            tree.leafAt mem held
          obtain ⟨ordered, inside, room⟩ := place.contents
          obtain ⟨old, old_eq⟩ := isSome_iff_exists.mp bound_key
          have within := inside (key, old) (mem_of_find old_eq)
          have length : (Assoc.insert key value items).length ≤ kind.maxLeafItems - 1 := by
            rw [length_insert ordered, if_pos bound_key]
            exact room
          rw [wp_bind, wp_writeNode, wp_pure]
          refine ⟨blocks, ?_, valid, .inl ⟨rfl, rfl⟩⟩
          rw [← blocks_eq]
          exact Represents.put_insert node place fresh tree.barrier tree.live enough within.1
            within.2 length
        · exact wp_dropCaches tree dropped
    · exact ⟨tree, valid, rfl⟩

/-- The append to the last leaf, or nothing. -/
theorem fastAppend_spec : wp (fastAppend kind key value)
      (FastOutcome kind root state bindings blocks effort key value) never state := by
  have dropped : ({ state.handle with fastLeaf := none } : Handle K).Valid root state.epoch
      blocks :=
    { valid with fast := nofun }
  unfold fastAppend
  rw [wp_bind, wp_get]
  cases cache : state.handle.fastLeaf with
  | none => exact ⟨tree, valid, rfl⟩
  | some cached =>
    dsimp only
    split
    · next guard =>
      obtain ⟨above, -, room, current⟩ := guard
      cases found : state.cachedLeaf kind cached.leafBlock cached.itemCount with
      | none => exact wp_dropCaches tree dropped
      | some leaf =>
        obtain ⟨node, items⟩ := leaf
        dsimp only
        split
        · next last_key =>
          obtain ⟨held, count⟩ := cachedLeaf_eq found
          have last := (valid.fast cached cache).2 current
          obtain ⟨path, lo, hi, before, after, outside, place, rfl, blocks_eq, enough, fresh,
            top⟩ :=
            tree.leafAt (mem_of_getLast? last) held
          have hi_top := top last
          subst hi_top
          obtain ⟨ordered, inside, -⟩ := place.contents
          obtain ⟨item, item_last, item_key⟩ := map_eq_some_iff.mp last_key
          have below : ∀ binding ∈ items, binding.1 < key := by
            intro binding mem
            refine lt_of_le_of_lt ?_ (item_key.trans_lt above)
            obtain ⟨front, rfl⟩ := getLast?_eq_some_iff.mp item_last
            rcases mem_append.mp mem with earlier | same
            · exact ((pairwise_append.mp ordered).2.2 binding earlier item (by simp)).le
            · rw [mem_singleton.mp same]
          have appended := Assoc.insert_eq_append value below
          have low : lo ≤ bound key :=
            (inside item (mem_of_getLast? item_last)).1.trans
              (bound_le_bound.mpr (below item (mem_of_getLast? item_last)).le)
          have length : (Assoc.insert key value items).length ≤ kind.maxLeafItems - 1 := by
            rw [appended, length_append, length_singleton]
            omega
          rw [wp_bind, wp_writeNode, ← appended, wp_bind]
          have put := Represents.put_insert node place fresh tree.barrier tree.live enough low
            (bound_lt_top key) length
          rw [blocks_eq] at put
          refine wp_imp (wp_setCaches put ?_) (fun _ next kept => ?_)
          · refine { valid with fast := fun other same => ?_ }
            cases same
            exact valid.fast cached cache
          · exact ⟨blocks, kept.1, kept.2.1, .inl ⟨kept.2.2, rfl⟩⟩
        · exact wp_dropCaches tree dropped
    · exact ⟨tree, valid, rfl⟩

/-- A mutation starts at the tree's root. -/
theorem adoptRoot_eq : adoptRoot kind state = (some root, state) := by
  have view : state.viewRoot kind = root := by
    rw [State.viewRoot, valid.live, valid.rootBlock]
    exact tree.live
  have kept : { state with handle := { state.handle with rootBlock := root } } = state := by
    rw [← valid.rootBlock]
  show (some (state.viewRoot kind), { state with
    handle := { state.handle with rootBlock := state.viewRoot kind } }) = (some root, state)
  rw [view, kept]

omit [LinearOrder K] tree valid in
/-- Without a barrier nothing is copied. -/
theorem pathCopy_eq (barrier : state.cowBarrier = 0) (allocateBlock : Run (State K V) Nat)
    (path : List Nat) : pathCopy kind allocateBlock path state = (some path, state) := by
  show (if 0 < state.cowBarrier && isFrozenTree kind.nodeType then
    cowDescentPath kind allocateBlock [] path.reverse else pure path : Run (State K V) (List Nat))
      state = _
  rw [barrier]
  rfl

/-- Where the descent of a mutation ends: the leaf for the key, in its place in the tree. -/
structure Landing (kind : Kind) (root : Nat) (state : State K V) (key : K)
    (bindings : List (K × V)) (blocks : List Nat) (effort : Nat) (found : Found K V)
    (leafBlock : Nat) (ancestors : List Nat) (lo hi : Bound K) (before after : List (Leaf K V))
    (outside : Finset Nat) : Prop where
  path : found.path = leafBlock :: ancestors
  place : LeafAt state.bodies kind root ancestors leafBlock found.items lo hi before after outside
  low : lo ≤ bound key
  high : bound key < hi
  /-- A rightmost descent ends in the last leaf. -/
  last : found.rightmost = true → after = []
  bindings : entries (before ++ (leafBlock, found.items) :: after) = bindings
  blocks : (before ++ (leafBlock, found.items) :: after).map fst = blocks
  /-- The effort covers the height and the full leaves. -/
  effort : ancestors.length + 2 * fullLeaves kind
    ((before ++ (leafBlock, found.items) :: after).map snd) ≤ effort
  /-- The blocks of the tree are kept from the allocator. -/
  fresh : state.Fresh ({leafBlock} ∪ outside)

variable {fuel : Nat}

omit valid in
/-- The descent of a mutation in a whole tree. -/
theorem Represents.landing (key : K) (enough : effort < fuel) :
    ∃ found leafBlock ancestors lo hi before after outside,
      findLeaf kind key fuel root [] true state = (some found, state) ∧
      Landing kind root state key bindings blocks effort found leafBlock ancestors lo hi before
        after outside := by
  obtain ⟨height, leaves, own, rep, rfl, rfl, room, fresh⟩ := tree.tree
  obtain ⟨found, leafBlock, ancestors, lo, hi, before, after, outside, ran, path_eq, -, place, low,
    high, last, order, own_eq, length⟩ :=
    findLeaf_eq rep (Hole.root height) (Finset.disjoint_empty_right own) bot_le (bound_lt_top key)
      (show height < fuel by omega) (fun _ => rfl)
  simp only [nil_append, append_nil, Finset.union_empty, length_nil, Nat.zero_add]
    at order own_eq length
  subst order own_eq length
  exact ⟨found, leafBlock, ancestors, lo, hi, before, after, outside, ran,
    ⟨path_eq, place, low, high, last, rfl, rfl, room, fresh⟩⟩

section Landed
variable {found : Found K V} {leafBlock : Nat} {ancestors : List Nat}
  (landing : Landing kind root state key bindings blocks effort found leafBlock ancestors lo hi
    before after outside)
include landing

/-- The last step of the slow path: the pair is bound and the caches are refilled. -/
theorem placeInLeaf_spec (room : found.items.length < kind.maxLeafItems - 1) :
    wp (placeInLeaf leafBlock found key value)
      (fun _ => Mutated kind root state.epoch blocks (Assoc.insert key value bindings) (effort + 2))
      never state := by
  have length := length_insert landing.place.contents.1 key value
  have fits : (Assoc.insert key value found.items).length ≤ kind.maxLeafItems - 1 := by
    split at length <;> omega
  have put := Represents.put_insert found.node landing.place landing.fresh tree.barrier tree.live
    landing.effort landing.low landing.high fits
  rw [landing.bindings, landing.blocks] at put
  have some_items : Assoc.insert key value found.items ≠ [] := by
    intro none_left
    rw [none_left, length_nil] at length
    split at length
    · next bound_key =>
      rw [length_eq_zero_iff.mp length.symm] at bound_key
      cases bound_key
    · omega
  obtain ⟨first, first_eq⟩ : ∃ first, (Assoc.insert key value found.items).head? = some first :=
    ⟨_, head?_eq_some_head some_items⟩
  obtain ⟨last, last_eq⟩ : ∃ last, (Assoc.insert key value found.items).getLast? = some last :=
    ⟨_, getLast?_eq_some_getLast some_items⟩
  unfold placeInLeaf
  rw [wp_bind, wp_writeNode, wp_bind, wp_get, first_eq, last_eq]
  dsimp only
  refine wp_imp (wp_setCaches put ?_) (fun _ next kept => ?_)
  · refine ⟨valid.rootBlock, valid.live, fun cached same => ?_, fun cached same => ?_⟩
    · dsimp only at same
      split at same
      · next rightmost =>
        cases same
        refine ⟨le_rfl, fun _ => ?_⟩
        rw [← landing.blocks, landing.last rightmost]
        simp
      · exact valid.fast cached same
    · cases same
      refine ⟨le_rfl, fun _ => ?_⟩
      rw [← landing.blocks]
      simp
  · exact ⟨blocks, kept.1, kept.2.1, .inl ⟨kept.2.2, rfl⟩⟩

theorem splitLeaf_represents (leaf_capacity : 4 ≤ kind.maxLeafItems)
    (capacity : 2 ≤ kind.maxInternalItems) (full : kind.maxLeafItems - 1 ≤ found.items.length) :
    wp (splitLeaf kind leafBlock found.node found.items ancestors)
      (fun _ next => ∃ blocks' less, less + 1 = effort ∧
        Represents kind root next bindings blocks' less ∧
        next.handle.Valid root next.epoch blocks' ∧ state.epoch < next.epoch)
      never state := by
  have room := landing.place.contents.2.2
  refine wp_imp (splitLeaf_spec capacity landing.place (by omega) landing.fresh)
    (fun _ next grown => ?_)
  obtain ⟨height, leaves, own, low, rep, contents, fresh⟩ := grown.tree
  have count := fullLeaves_split leaf_capacity (before.map snd) (after.map snd)
    (le_antisymm room full)
  have enough := landing.effort
  simp only [map_append, map_cons] at enough
  have epoch : next.epoch = state.epoch + 1 := grown.steady.epoch
  have reset : next.handle.Valid root next.epoch (leaves.map fst) := by
    rw [grown.steady.handle]
    exact ⟨valid.rootBlock, valid.live, nofun, nofun⟩
  refine ⟨leaves.map fst, effort - 1, by omega, ⟨⟨height, leaves, own, rep, ?_, rfl, ?_, fresh⟩,
    grown.steady.cowBarrier.trans tree.barrier, ?_⟩, reset, by omega⟩
  · rw [← landing.bindings]
    unfold entries
    rw [flatMap_def, flatMap_def, contents]
    simp only [map_append, map_cons, flatten_append, flatten_cons]
    rw [← append_assoc (found.items.take _), take_append_drop]
  · rw [contents]
    omega
  · rw [State.effectiveRoot, grown.steady.rootCell, grown.steady.rootMirror]
    exact tree.live

end Landed

/-- The descent of a mutation without a barrier: nothing is copied. -/
theorem approach_spec (key : K) (enough : effort < fuel) (allocateBlock : Run (State K V) Nat) :
    ∃ found leafBlock ancestors lo hi before after outside,
      approach kind fuel key allocateBlock state = (some (found, leafBlock :: ancestors), state) ∧
      Landing kind root state key bindings blocks effort found leafBlock ancestors lo hi before
        after outside := by
  obtain ⟨found, leafBlock, ancestors, lo, hi, before, after, outside, ran, landing⟩ :=
    tree.landing key enough
  refine ⟨found, leafBlock, ancestors, lo, hi, before, after, outside, ?_, landing⟩
  unfold approach
  rw [bind_some (adoptRoot_eq tree valid), bind_some ran,
    bind_some (pathCopy_eq tree.barrier allocateBlock found.path), landing.path]
  rfl

section
variable (leaf_capacity : 4 ≤ kind.maxLeafItems) (capacity : 2 ≤ kind.maxInternalItems)
  (enough : effort < fuel)
include leaf_capacity capacity enough

theorem insertAttempt_spec :
    wp (insertAttempt kind fuel key value)
      (fun placed next => match placed with
        | true => Mutated kind root state.epoch blocks (Assoc.insert key value bindings)
            (effort + 2) next
        | false => ∃ blocks' less, less + 1 = effort ∧
            Represents kind root next bindings blocks' less ∧
            next.handle.Valid root next.epoch blocks' ∧ state.epoch < next.epoch)
      never state := by
  unfold insertAttempt
  refine wp_seq (fastUpdate_spec tree valid) (fun updated first fast => ?_)
  cases updated with
  | true => exact fast
  | false =>
    obtain ⟨tree, valid, first_epoch⟩ := fast
    rw [← first_epoch, if_neg Bool.false_ne_true]
    refine wp_seq (fastAppend_spec tree valid) (fun appended second fast => ?_)
    cases appended with
    | true => exact fast
    | false =>
      obtain ⟨tree, valid, second_epoch⟩ := fast
      rw [← second_epoch, if_neg Bool.false_ne_true]
      obtain ⟨found, leafBlock, ancestors, lo, hi, before, after, outside, ran, landing⟩ :=
        approach_spec tree valid key enough allocate
      rw [wp_bind, wp_of_eq ran]
      dsimp only
      split
      · next full =>
        rw [wp_bind]
        exact splitLeaf_represents tree valid landing leaf_capacity capacity full
      · next has_room =>
        rw [wp_bind]
        exact placeInLeaf_spec tree valid landing (by omega)

theorem insert_spec :
    wp (insert kind fuel key value)
      (fun _ => Mutated kind root state.epoch blocks (Assoc.insert key value bindings) (effort + 2))
      never state := by
  induction fuel generalizing state blocks effort with
  | zero => omega
  | succ fuel ih =>
    unfold insert
    refine wp_seq (insertAttempt_spec tree valid leaf_capacity capacity enough)
      (fun placed next outcome => ?_)
    cases placed with
    | true => exact outcome
    | false =>
      obtain ⟨blocks', less, less_eq, tree', valid', later⟩ := outcome
      rw [if_neg Bool.false_ne_true]
      refine wp_imp (ih tree' valid' (by omega)) ?_
      rintro _ last ⟨blocks'', tree'', valid'', reshaped⟩
      refine ⟨blocks'', tree''.mono (by omega), valid'', .inr ?_⟩
      rcases reshaped with ⟨same, -⟩ | after_next <;> omega

end

/-- `remove_inner` unbinds the key and says whether it was bound. -/
theorem removeInner_spec {allocateBlock : Run (State K V) Nat} (enough : effort < fuel) :
    wp (removeInner kind fuel key allocateBlock)
      (fun removed next => removed = (find key bindings).isSome ∧
        Mutated kind root state.epoch blocks (erase key bindings) (effort + 2) next)
      never state := by
  have void : state.invalidated.handle.Valid root state.invalidated.epoch blocks :=
    ⟨valid.rootBlock, valid.live, nofun, nofun⟩
  have opened : Represents kind root state.invalidated bindings blocks effort :=
    tree.of_eq rfl rfl le_rfl rfl rfl
  have later : state.epoch < state.invalidated.epoch := Nat.lt_succ_self _
  obtain ⟨found, leafBlock, ancestors, lo, hi, before, after, outside, ran, landing⟩ :=
    approach_spec opened void key enough allocateBlock
  have decided : find key bindings = find key found.items := by
    rw [← landing.bindings]
    exact landing.place.find_entries landing.low landing.high
  unfold removeInner invalidate
  rw [wp_bind, wp_modify, wp_bind, wp_of_eq ran]
  dsimp only
  split
  · next bound_key =>
    have put := Represents.put_erase found.node landing.place landing.fresh opened.barrier
      opened.live landing.effort landing.low landing.high
    rw [landing.bindings, landing.blocks] at put
    refine ⟨?_, blocks, put, void, .inr later⟩
    rw [decided, bound_key]
  · next not_bound =>
    rw [Bool.not_eq_true, isSome_eq_false_iff, isNone_iff_eq_none] at not_bound
    rw [not_bound] at decided
    rw [wp_pure, decided]
    refine ⟨rfl, blocks, ?_, void, .inr later⟩
    rw [erase_eq_self decided]
    exact opened.mono (by omega)

end Commands
end LionFS.BTree
