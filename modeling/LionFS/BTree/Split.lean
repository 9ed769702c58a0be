import LionFS.BTree.Descent

/-!
# Splitting nodes

A split cuts a node in two and hands the new separator to the parent, up to a
stable-root split. `insertIntoParent_spec` follows `insert_into_parent` along the
path of the hole: whatever cascades, the tree at the root block holds the same
pairs in leaves of the same contents, and is at most one level taller. Header
updates write payloads back as they were.
-/
namespace LionFS.BTree
open Run List Finset Prod
open Function (update_self update_of_ne update)
variable {K V : Type}

/-- Nothing changed but node blocks, stamps and the allocator's position. -/
structure Steady (state next : State K V) : Prop where
  epoch : next.epoch = state.epoch
  cowBarrier : next.cowBarrier = state.cowBarrier
  rootCell : next.rootCell = state.rootCell
  rootMirror : next.rootMirror = state.rootMirror
  allocator : next.allocator = state.allocator
  handle : next.handle = state.handle

theorem Steady.refl (state : State K V) : Steady state state := ⟨rfl, rfl, rfl, rfl, rfl, rfl⟩

theorem Steady.trans {first second third : State K V} (one : Steady first second)
    (two : Steady second third) : Steady first third :=
  ⟨two.epoch.trans one.epoch, two.cowBarrier.trans one.cowBarrier,
    two.rootCell.trans one.rootCell, two.rootMirror.trans one.rootMirror,
    two.allocator.trans one.allocator, two.handle.trans one.handle⟩

theorem steady_written (state : State K V) (block : Nat) (node : Node K V) :
    Steady state (state.written block node) :=
  ⟨rfl, rfl, rfl, rfl, rfl, rfl⟩

theorem bodies_written (state : State K V) (block : Nat) (node : Node K V) :
    (state.written block node).bodies = update state.bodies block (some node.body) := by
  funext other
  unfold State.bodies State.written
  by_cases same : other = block
  · subst same
    simp
  · simp [same]

variable {state : State K V} {node : Node K V} {block : Nat}

/-- Writing the payload a block has changes no payload. -/
theorem bodies_written_same (held : state.bodies block = some node.body) :
    (state.written block node).bodies = state.bodies := by
  rw [bodies_written, ← held, Function.update_eq_self]

/-- The allocator returns blocks that are not in use: never block zero, never one twice, and
from its position on none of the given ones. -/
structure State.Fresh (state : State K V) (used : Finset Nat) : Prop where
  injective : Function.Injective state.allocator
  nonzero : ∀ index, state.allocator index ≠ 0
  unused : ∀ index, state.allocations ≤ index → state.allocator index ∉ used
  zero : 0 ∉ used

/-- The state after an allocation. -/
def State.allocated (state : State K V) : State K V :=
  { state with allocations := state.allocations + 1 }

theorem steady_allocated (state : State K V) : Steady state state.allocated :=
  ⟨rfl, rfl, rfl, rfl, rfl, rfl⟩

variable {used : Finset Nat}

theorem State.Fresh.allocated (fresh : state.Fresh used) :
    state.allocated.Fresh ({state.allocator state.allocations} ∪ used) := by
  refine ⟨fresh.injective, fresh.nonzero, fun index later => ?_, ?_⟩
  · have after : state.allocations + 1 ≤ index := later
    simp only [Finset.mem_union, Finset.mem_singleton, not_or]
    constructor
    · intro same
      have equal := fresh.injective same
      omega
    · exact fresh.unused index (by omega)
  · simp only [Finset.mem_union, Finset.mem_singleton, not_or]
    exact ⟨(fresh.nonzero _).symm, fresh.zero⟩

/-- Freshness concerns the allocator and the blocks in use only. -/
theorem State.Fresh.of_eq {next : State K V} (fresh : state.Fresh used)
    (allocator : next.allocator = state.allocator) (spot : state.allocations ≤ next.allocations) :
    next.Fresh used := by
  refine ⟨?_, ?_, ?_, fresh.zero⟩
  · rw [allocator]
    exact fresh.injective
  · rw [allocator]
    exact fresh.nonzero
  · rw [allocator]
    exact fun index later => fresh.unused index (spot.trans later)

theorem State.Fresh.subset {fewer : Finset Nat} (fresh : state.Fresh used) (inside : fewer ⊆ used) :
    state.Fresh fewer :=
  ⟨fresh.injective, fresh.nonzero, fun index later mem =>
    fresh.unused index later (inside mem), fun mem => fresh.zero (inside mem)⟩

variable {kind : Kind}
section Rules
variable {post : PUnit → State K V → Prop} {error : State K V → Prop}

@[simp] theorem wp_writeNode :
    wp (writeNode block node) post error state ↔ post ⟨⟩ (state.written block node) :=
  Iff.rfl

@[simp] theorem wp_allocate {post : Nat → State K V → Prop} :
    wp allocate post error state ↔ post (state.allocator state.allocations) state.allocated :=
  Iff.rfl

theorem wp_readNode {body : Body K V} {post : Node K V → State K V → Prop}
    (held : state.bodies block = some body) (fits : kind.admits body = true)
    (rest : ∀ node, node.body = body → post node state) :
    wp (readNode kind block) post error state := by
  obtain ⟨node, node_body, read⟩ := readNode_eq held fits
  unfold wp
  rw [read]
  exact rest node node_body

theorem wp_readNode_any {post : Node K V → State K V → Prop}
    (found : ∀ node, state.nodes block = some node → post node state) (missing : error state) :
    wp (readNode kind block) post error state := by
  unfold wp readNode
  cases stored : state.nodes block with
  | none => exact missing
  | some node =>
    dsimp only
    split
    · next same =>
      split at same
      · cases same
        exact found node stored
      · cases same
    · next same =>
      split at same
      · cases same
      · cases same
        exact missing

end Rules

/-- Only headers, stamps and nothing of the allocator changed. -/
structure Quiet (state next : State K V) : Prop extends Steady state next where
  /-- Every payload is the same. -/
  bodies : next.bodies = state.bodies
  /-- The allocator is where it was. -/
  allocations : next.allocations = state.allocations

theorem Quiet.refl (state : State K V) : Quiet state state := ⟨Steady.refl state, rfl, rfl⟩

theorem Quiet.trans {first second third : State K V} (one : Quiet first second)
    (two : Quiet second third) : Quiet first third :=
  ⟨one.toSteady.trans two.toSteady, two.bodies.trans one.bodies,
    two.allocations.trans one.allocations⟩

theorem quiet_written (held : state.bodies block = some node.body) :
    Quiet state (state.written block node) :=
  ⟨steady_written state block node, bodies_written_same held, rfl⟩

/-- Two blocks written after an allocation. -/
theorem written_twice {next : State K V} {first second : Nat} {one two : Node K V}
    (fresh : state.Fresh used) (quiet : Quiet state.allocated next) (apart : first ≠ second) :
    Steady state ((next.written first one).written second two) ∧
      ((next.written first one).written second two).Fresh
        ({state.allocator state.allocations} ∪ used) ∧
      ((next.written first one).written second two).bodies first = some one.body ∧
      ((next.written first one).written second two).bodies second = some two.body ∧
      ∀ other, other ≠ first → other ≠ second →
        ((next.written first one).written second two).bodies other = state.bodies other := by
  have steady := (steady_allocated state).trans (quiet.toSteady.trans
    ((steady_written next first one).trans (steady_written _ second two)))
  refine ⟨steady, fresh.allocated.of_eq steady.allocator quiet.allocations.ge, ?_⟩
  rw [bodies_written, bodies_written, quiet.bodies]
  refine ⟨?_, update_self _ _ _, fun other not_first not_second => ?_⟩
  · rw [update_of_ne apart, update_self]
  · rw [update_of_ne not_second, update_of_ne not_first]
    rfl

/-- The halves of a list, the second of which is not empty. -/
theorem exists_halves {α : Type} {items : List α} (some_items : 0 < items.length) :
    ∃ kept promoted rest, items.take (items.length / 2) = kept ∧
      items.drop (items.length / 2) = promoted :: rest ∧ items = kept ++ promoted :: rest ∧
      kept.length = items.length / 2 ∧ rest.length + 1 = items.length - items.length / 2 := by
  obtain ⟨promoted, rest, dropped⟩ :
      ∃ promoted rest, items.drop (items.length / 2) = promoted :: rest :=
    exists_cons_of_ne_nil (by
      rw [ne_eq, drop_eq_nil_iff]
      omega)
  have count := congrArg length dropped
  rw [length_drop, length_cons] at count
  refine ⟨_, promoted, rest, rfl, dropped, ?_, ?_, count.symm⟩
  · rw [← dropped, take_append_drop]
  · rw [length_take]
    omega

/-- A block can be read. -/
def Readable (bodies : Nat → Option (Body K V)) (kind : Kind) (block : Nat) : Prop :=
  ∃ body, bodies block = some body ∧ kind.admits body = true

variable {parent : Nat}

theorem reparent_quiet (readable : Readable state.bodies kind block) :
    wp (reparent kind parent block) (fun _ next => Quiet state next) never
      state := by
  obtain ⟨body, held, fits⟩ := readable
  unfold reparent
  rw [wp_bind]
  refine wp_readNode held fits fun node node_body => ?_
  rw [wp_writeNode]
  exact quiet_written (held.trans (congrArg some node_body.symm))

theorem reparentFrom_quiet {old : Nat} (readable : Readable state.bodies kind block) :
    wp (reparentFrom kind old parent block) (fun _ next => Quiet state next) never
      state := by
  obtain ⟨body, held, fits⟩ := readable
  unfold reparentFrom
  rw [wp_bind]
  refine wp_readNode held fits fun node node_body => ?_
  split
  · rw [wp_writeNode]
    exact quiet_written (held.trans (congrArg some node_body.symm))
  · rw [wp_pure]
    exact Quiet.refl state

theorem each_quiet {list : List Nat} {command : Nat → Run (State K V) PUnit}
    (readable : ∀ block ∈ list, Readable state.bodies kind block)
    (quiet : ∀ block state, Readable state.bodies kind block →
      wp (command block) (fun _ next => Quiet state next) never state) :
    wp (Run.each list command) (fun _ next => Quiet state next) never state := by
  refine wp_each (fun block mem next so_far => ?_) (Quiet.refl state)
  have still : Readable next.bodies kind block := by
    rw [so_far.bodies]
    exact readable block mem
  exact wp_imp (quiet block next still) (fun _ _ step => so_far.trans step)

theorem relinkHalves_quiet {leftBlock moved rightBlock : Nat} {right : Node K V} {left : Body K V}
    (held : state.bodies rightBlock = some right.body)
    (children : ∀ level leftmost items, left = .internal level leftmost items →
      ∀ block ∈ childPtrs leftmost items, Readable state.bodies kind block) :
    wp (relinkHalves kind leftBlock moved rightBlock right left)
      (fun _ next => Quiet state next) never state := by
  cases left with
  | leaf items =>
    unfold relinkHalves
    rw [wp_writeNode]
    exact quiet_written held
  | internal level leftmost items =>
    unfold relinkHalves
    rw [wp_bind, wp_writeNode]
    have quiet : Quiet state (state.written rightBlock { right with parentBlock := leftBlock }) :=
      quiet_written held
    refine wp_imp (each_quiet ?_ fun block state => reparentFrom_quiet)
      (fun _ _ step => quiet.trans step)
    intro block mem
    rw [quiet.bodies]
    exact children level leftmost items rfl block mem

theorem relinkNext_quiet {leafBlock nextLeaf rightBlock : Nat} :
    wp (relinkNext kind leafBlock nextLeaf rightBlock) (fun _ next => Quiet state next)
      never state := by
  unfold relinkNext
  split
  · rw [wp_bind, wp_attempt]
    refine wp_readNode_any (fun node stored => ?_) (Quiet.refl state)
    dsimp only
    split
    · rw [wp_writeNode]
      refine quiet_written ?_
      rw [State.bodies, stored, Option.map_some]
    · exact Quiet.refl state
  · exact Quiet.refl state

variable [LinearOrder K] {lo hi : Bound K} {items : List (K × Nat)} {level leftmost : Nat}
  {leaves : List (Leaf K V)}

theorem chain_readable {bodies : Nat → Option (Body K V)} {below : Finset Nat}
    (chain : Chain (Rep bodies kind level) (segments lo leftmost items) hi leaves below) :
    ∀ block ∈ childPtrs leftmost items, Readable bodies kind block := by
  intro block mem
  rw [show childPtrs leftmost items = (segments lo leftmost items).map snd by
    simp [childPtrs, segments]] at mem
  obtain ⟨part, part_mem, rfl⟩ := mem_map.mp mem
  obtain ⟨top, here, mine, -, -, child⟩ := chain.forall_mem part part_mem
  obtain ⟨body, held, fits, -⟩ := child.readable
  exact ⟨body, held, fits⟩

/-- A tree at the root block, not above a height, with leaves of the given contents. -/
structure Grown (kind : Kind) (root : Nat) (state next : State K V) (top : Nat)
    (contents : List (List (K × V))) : Prop where
  tree : ∃ height leaves own, height ≤ top ∧ Rep next.bodies kind height ⊥ ⊤ root leaves own ∧
    leaves.map snd = contents ∧ next.Fresh own
  steady : Steady state next

variable {key : K}

/-- A stable-root split gives a tree over both halves. -/
theorem splitRoot_spec {root right : Nat} {first second : List (Leaf K V)}
    {leftOwn rightOwn : Finset Nat} (capacity : 2 ≤ kind.maxInternalItems)
    (left_rep : Rep state.bodies kind level ⊥ (bound key) root first leftOwn)
    (right_rep : Rep state.bodies kind level (bound key) ⊤ right second rightOwn)
    (apart : Disjoint leftOwn rightOwn) (fresh : state.Fresh (leftOwn ∪ rightOwn)) :
    wp (splitRoot kind root key right)
      (fun _ next => Grown kind root state next (level + 1) ((first ++ second).map snd))
      never state := by
  obtain ⟨left_body, left_held, left_fits, left_level⟩ := left_rep.readable
  obtain ⟨right_body, right_held, right_fits, -⟩ := right_rep.readable
  have moved_unused := fresh.unused state.allocations le_rfl
  generalize moved_eq : state.allocator state.allocations = moved at moved_unused
  simp only [mem_union, not_or] at moved_unused
  have root_mem := left_rep.mem_own
  have root_not_right : root ∉ rightOwn := disjoint_left.mp apart root_mem
  have moved_ne : moved ≠ root := fun same => moved_unused.1 (same ▸ root_mem)
  unfold splitRoot
  rw [wp_bind, wp_allocate, moved_eq, wp_bind]
  refine wp_readNode left_held left_fits fun left left_eq => ?_
  rw [wp_bind]
  refine wp_readNode right_held right_fits fun right_node right_eq => ?_
  refine wp_seq (relinkHalves_quiet ?_ ?_) (fun _ next quiet => ?_)
  · exact right_held.trans (congrArg some right_eq.symm)
  · intro inner leftmost items internal
    cases level with
    | zero =>
      obtain ⟨_, held, -⟩ := left_rep
      rw [left_held, ← left_eq, internal] at held
      exact absurd held (by simp)
    | succ level =>
      obtain ⟨_, _, _, held, -, -, -, chain⟩ := left_rep
      rw [left_held, ← left_eq, internal] at held
      cases held
      exact chain_readable chain
  · rw [wp_bind, wp_writeNode, wp_writeNode]
    obtain ⟨steady, used, at_moved, at_root, same⟩ := @written_twice K V state _ next moved
      root { left with parentBlock := root }
      (Node.new (.internal left.body.level moved [(key, right)])) fresh quiet moved_ne
    generalize State.written _ root _ = final at steady used at_moved at_root same ⊢
    refine ⟨?_, steady⟩
    generalize final.bodies = bodies at at_moved at_root same ⊢
    rw [left_eq, ← left_held] at at_moved
    rw [left_eq, left_level] at at_root
    rw [moved_eq] at used
    obtain ⟨first', contents, moved_rep⟩ := left_rep.moved moved_unused.1 at_moved
      (fun other mem => same other (fun eq => moved_unused.1 (eq ▸ mem)))
    have right_rep' : Rep bodies kind level (bound key) ⊤ right second rightOwn :=
      right_rep.frame fun other mem => same other (fun eq => moved_unused.2 (eq ▸ mem))
        (fun eq => root_not_right (eq ▸ mem))
    refine ⟨level + 1, first' ++ second, {root} ∪ (({moved} ∪ leftOwn.erase root) ∪ rightOwn),
      le_rfl, ⟨moved, [(key, right)], _, at_root, rfl, ?_, ?_, ?_⟩, ?_, ?_⟩
    · simp [root_not_right, moved_ne.symm]
    · simp only [length_singleton]
      omega
    · refine .cons ⊥ moved _ ⊤ first' second _ rightOwn moved_rep (bot_lt_bound key) ?_
        (Chain.single right_rep' (bound_lt_top key))
      rw [disjoint_union_left]
      exact ⟨by simpa using moved_unused.2, apart.mono_left (erase_subset _ _)⟩
    · rw [map_append, map_append, contents]
    · refine used.subset fun other mem => ?_
      simp only [Finset.mem_union, Finset.mem_singleton, Finset.mem_erase] at mem ⊢
      rcases mem with rfl | (rfl | mem) | mem
      · exact .inr (.inl root_mem)
      · exact .inl rfl
      · exact .inr (.inl mem.2)
      · exact .inr (.inr mem)

theorem length_insertSeparator (key : K) (ptr : Nat) (items : List (K × Nat)) :
    (insertSeparator key ptr items).length = items.length + 1 := by
  induction items with
  | nil => rfl
  | cons item rest ih =>
    unfold insertSeparator
    split
    · rfl
    · rw [length_cons, ih, length_cons]

variable {path : List Nat} {root : Nat}

/-- A parent with its new separator in place is part of a tree again. -/
theorem parent_written {before after : List (Leaf K V)} {children outside : Finset Nat}
    (outer : Hole state.bodies kind root path (level + 1) parent lo hi before after outside)
    (chain : Chain (Rep state.bodies kind level) (segments lo leftmost items) hi leaves children)
    (room : items.length ≤ kind.maxInternalItems - 1) (parent_children : parent ∉ children)
    (parent_outside : parent ∉ outside) (apart : Disjoint children outside)
    (fresh : state.Fresh ({parent} ∪ children ∪ outside)) : Grown kind root state
      (state.written parent { node with body := .internal level leftmost items })
      (level + 1 + path.length) ((before ++ (leaves ++ after)).map snd) := by
  refine ⟨?_, steady_written _ _ _⟩
  have same : ∀ other, other ≠ parent →
      (state.written parent { node with body := .internal level leftmost items }).bodies other =
        state.bodies other := by
    intro other ne
    rw [bodies_written, update_of_ne ne]
  have held : (state.written parent { node with body := .internal level leftmost items }).bodies
      parent = some (.internal level leftmost items) := by
    rw [bodies_written, update_self]
  have outer' := outer.frame fun other mem =>
    same other fun eq => parent_outside (eq ▸ mem)
  have chain' := chain_frame chain fun other mem =>
    same other fun eq => parent_children (eq ▸ mem)
  refine ⟨_, _, _, le_rfl, outer'.fill
    ⟨leftmost, items, children, held, rfl, parent_children, room, chain'⟩ ?_, rfl, ?_⟩
  · rw [disjoint_union_left, disjoint_singleton_left]
    exact ⟨parent_outside, apart⟩
  · exact fresh.of_eq rfl le_rfl

/-- An internal node split in two: both halves, and everything else as it was. -/
theorem splitInternal_spec {children : Finset Nat} (capacity : 2 ≤ kind.maxInternalItems)
    (chain : Chain (Rep state.bodies kind level) (segments lo leftmost items) hi leaves children)
    (some_items : 0 < items.length) (few_items : items.length ≤ kind.maxInternalItems)
    (parent_children : parent ∉ children) (inside : {parent} ∪ children ⊆ used)
    (fresh : state.Fresh used) : wp (splitInternal kind parent node level leftmost items)
      (fun promoted next => ∃ first second leftOwn rightOwn, leaves = first ++ second ∧
        Rep next.bodies kind (level + 1) lo (bound promoted.1) parent first ({parent} ∪ leftOwn) ∧
        Rep next.bodies kind (level + 1) (bound promoted.1) hi promoted.2 second
          ({promoted.2} ∪ rightOwn) ∧
        children = leftOwn ∪ rightOwn ∧ Disjoint leftOwn rightOwn ∧ lo < bound promoted.1 ∧
        bound promoted.1 < hi ∧ promoted.2 ∉ used ∧ Steady state next ∧
        next.Fresh ({promoted.2} ∪ used) ∧
        ∀ other, other ≠ parent → other ≠ promoted.2 → next.bodies other = state.bodies other)
      never state := by
  obtain ⟨kept, promoted, right_items, kept_eq, dropped, whole, kept_length, right_length⟩ :=
    exists_halves some_items
  rw [whole, show segments lo leftmost (kept ++ promoted :: right_items) =
    segments lo leftmost kept ++ segments (bound promoted.1) promoted.2 right_items by
      simp [segments]] at chain
  have bounds := chain.le_of_mem (bound promoted.1, promoted.2) (by simp [segments])
  have start_lt : lo < bound promoted.1 := by
    have ascending := chain.ascending
    rw [segments, cons_append] at ascending
    exact (pairwise_cons.mp ascending).1 (bound promoted.1, promoted.2) (by simp [segments])
  obtain ⟨first, second, leftOwn, rightOwn, leaves_eq, children_eq, separate, left_chain,
    right_chain⟩ := chain.split
  have right_unused := fresh.unused state.allocations le_rfl
  have right_parent : state.allocator state.allocations ≠ parent :=
    fun eq => right_unused (inside (by simp [eq]))
  have right_children : state.allocator state.allocations ∉ children := fun mem =>
    right_unused (inside (mem_union_right _ mem))
  unfold splitInternal
  rw [wp_bind, wp_allocate, dropped]
  simp only [wp_bind, wp_writeNode, kept_eq, wp_pure]
  obtain ⟨steady, middle_fresh, at_right, at_parent, same⟩ := @written_twice K V state _ _
    (state.allocator state.allocations) parent
    { Node.new (.internal level promoted.2 right_items) with parentBlock := node.parentBlock }
    { node with body := .internal level leftmost kept } fresh (Quiet.refl _) right_parent
  generalize State.written _ parent _ = middle at steady middle_fresh at_right at_parent same ⊢
  generalize state.allocator state.allocations = right at *
  have same_child : ∀ other ∈ children, middle.bodies other = state.bodies other :=
    fun other mem => same other (fun eq => right_children (eq ▸ mem))
      (fun eq => parent_children (eq ▸ mem))
  rw [children_eq] at same_child parent_children right_children
  have left_chain' := chain_frame left_chain fun other mem =>
    same_child other (mem_union_left _ mem)
  have right_chain' := chain_frame right_chain fun other mem =>
    same_child other (mem_union_right _ mem)
  refine wp_imp (each_quiet (chain_readable right_chain') fun block state => reparent_quiet)
    (fun _ next quiet => ?_)
  refine ⟨first, second, leftOwn, rightOwn, leaves_eq, ?_, ?_, children_eq, separate, start_lt,
    bounds.2, right_unused, steady.trans quiet.toSteady, ?_, ?_⟩
  · rw [quiet.bodies]
    refine ⟨leftmost, kept, leftOwn, at_parent, rfl, ?_, ?_, left_chain'⟩
    · exact fun mem => parent_children (mem_union_left _ mem)
    · omega
  · rw [quiet.bodies]
    refine ⟨promoted.2, right_items, rightOwn, at_right, rfl, ?_, ?_, right_chain'⟩
    · exact fun mem => right_children (mem_union_right _ mem)
    · omega
  · exact middle_fresh.of_eq quiet.allocator quiet.allocations.ge
  · rw [quiet.bodies]
    exact fun other not_parent not_right => same other not_right not_parent

/-- Steady steps may precede growth. -/
theorem Grown.after {middle next : State K V} {top top' : Nat} {contents : List (List (K × V))}
    (grown : Grown kind root middle next top contents) (steady : Steady state middle)
    (higher : top ≤ top') : Grown kind root state next top' contents := by
  obtain ⟨height, leaves, own, low, rest⟩ := grown.tree
  exact ⟨⟨height, leaves, own, low.trans higher, rest⟩, steady.trans grown.steady⟩

/-- A leaf or an internal node split in two under its parents: the tree holds both halves. -/
theorem insertIntoParent_spec (capacity : 2 ≤ kind.maxInternalItems) {left right : Nat}
    {before first second after : List (Leaf K V)} {leftOwn rightOwn outside : Finset Nat}
    (hole : Hole state.bodies kind root path level left lo hi before after outside)
    (left_rep : Rep state.bodies kind level lo (bound key) left first leftOwn)
    (right_rep : Rep state.bodies kind level (bound key) hi right second rightOwn)
    (above : lo < bound key) (below : bound key < hi) (apart : Disjoint leftOwn rightOwn)
    (outside_apart : Disjoint (leftOwn ∪ rightOwn) outside)
    (fresh : state.Fresh (leftOwn ∪ rightOwn ∪ outside)) :
    wp (insertIntoParent kind path left key right)
      (fun _ next => Grown kind root state next (level + path.length + 1)
        ((before ++ (first ++ (second ++ after))).map snd))
      never state := by
  induction path generalizing level left right key lo hi before first second after leftOwn rightOwn
    outside state with
  | nil =>
    cases hole
    unfold insertIntoParent
    rw [union_empty] at fresh
    simpa using splitRoot_spec capacity left_rep right_rep apart fresh
  | cons parent path ih =>
    cases hole with
    | @child _ _ _ leftmost _ lo hi start before after prior later outside priorOwn laterOwn items
        front back outer held room cut prior_chain later_chain lt separate parent_apart
        outer_apart =>
      have parent_ne : parent ≠ 0 := by
        rintro rfl
        exact fresh.zero (by simp)
      obtain ⟨left_out, right_out⟩ := disjoint_union_left.mp outside_apart
      simp only [disjoint_union_right, disjoint_union_left, disjoint_singleton_left,
        disjoint_singleton_right, mem_union, not_or] at left_out right_out outer_apart parent_apart
      have halves := Chain.cons _ left _ hi first _ leftOwn _ left_rep above
        (disjoint_union_right.mpr ⟨apart, left_out.1.2.2⟩)
        (.cons _ right back hi second later rightOwn laterOwn right_rep below right_out.1.2.2
          later_chain)
      have chain := prior_chain.append halves (by
        simp only [disjoint_union_right]
        exact ⟨left_out.1.2.1.symm, right_out.1.2.1.symm, separate⟩)
      have ascending : (segments lo leftmost items).Pairwise fun first second =>
          first.1 < second.1 := by
        rw [cut]
        refine chain.ascending.sublist ?_
        simp
      rw [← segments_insertSeparator cut ascending above below] at chain
      generalize children_eq : priorOwn ∪ (leftOwn ∪ (rightOwn ∪ laterOwn)) = children at chain
      have parent_children : parent ∉ children := by
        rw [← children_eq]
        simp [left_out.1.1, right_out.1.1, parent_apart]
      have children_outer : Disjoint children outside := by
        rw [← children_eq]
        simp only [disjoint_union_left]
        exact ⟨outer_apart.2.1, left_out.2, right_out.2, outer_apart.2.2⟩
      have used : state.Fresh ({parent} ∪ children ∪ outside) := by
        refine fresh.subset ?_
        rw [← children_eq]
        intro other
        simp only [Finset.mem_union, Finset.mem_singleton]
        grind
      have fits : kind.admits (.internal level leftmost items : Body K V) = true := by
        simp only [Kind.admits, decide_eq_true_eq]
        omega
      have leaves_eq : before ++ prior ++ (first ++ (second ++ (later ++ after))) =
          before ++ ((prior ++ (first ++ (second ++ later))) ++ after) := by
        simp only [append_assoc]
      have count := length_insertSeparator key right items
      unfold insertIntoParent
      rw [if_neg parent_ne, wp_bind, leaves_eq]
      refine wp_readNode held fits fun node node_body => ?_
      rw [node_body]
      dsimp only
      split
      · refine wp_seq (splitInternal_spec capacity chain (by omega) (by omega) parent_children
          subset_union_left used) ?_
        rintro promoted next ⟨one, two, oneOwn, twoOwn, split_eq, one_rep, two_rep,
          parts, parts_apart, low, high, unused, steady, next_fresh, same⟩
        rw [split_eq]
        simp only [Finset.mem_union, Finset.mem_singleton, not_or] at unused
        rw [parts] at unused parent_children children_outer next_fresh
        simp only [mem_union, not_or] at unused parent_children
        rw [disjoint_union_left] at children_outer
        have outer' := outer.frame fun other mem =>
          same other (fun eq => outer_apart.1 (eq ▸ mem)) fun eq => unused.2 (eq ▸ mem)
        refine wp_imp (ih outer' one_rep two_rep low high ?_ ?_ ?_) ?_
        · simp only [disjoint_union_left, disjoint_union_right,
            Finset.disjoint_singleton_left, Finset.disjoint_singleton_right]
          exact ⟨by simp [unused.1], parent_children.2, parts_apart⟩
        · simp only [disjoint_union_left, disjoint_singleton_left]
          exact ⟨⟨outer_apart.1, children_outer.1⟩, unused.2, children_outer.2⟩
        · refine next_fresh.subset ?_
          intro other
          simp only [Finset.mem_union, Finset.mem_singleton]
          grind
        · intro _ final grown
          simp only [append_assoc] at grown ⊢
          refine grown.after steady ?_
          simp only [length_cons]
          omega
      · rw [wp_writeNode]
        refine (parent_written outer chain (by omega) parent_children outer_apart.1 children_outer
          used).after (Steady.refl state) ?_
        simp only [length_cons]
        omega

/-- The two halves of a leaf, between its places. -/
theorem leaf_halves {kept rest : List (K × V)} {promoted : K × V}
    (ordered : Assoc.Ordered (kept ++ promoted :: rest))
    (inside : Within lo hi (block, kept ++ promoted :: rest)) (some_kept : kept ≠ []) :
    Assoc.Ordered kept ∧ Assoc.Ordered (promoted :: rest) ∧
      (∀ item ∈ kept, lo ≤ bound item.1 ∧ bound item.1 < bound promoted.1) ∧
      (∀ item ∈ promoted :: rest, bound promoted.1 ≤ bound item.1 ∧ bound item.1 < hi) ∧
      lo < bound promoted.1 ∧ bound promoted.1 < hi := by
  obtain ⟨left, right, across⟩ := pairwise_append.mp ordered
  have low : ∀ item ∈ kept, lo ≤ bound item.1 ∧ bound item.1 < bound promoted.1 := by
    intro item mem
    exact ⟨(inside item (mem_append_left _ mem)).1,
      bound_lt_bound.mpr (across item mem promoted mem_cons_self)⟩
  refine ⟨left, right, low, fun item mem => ⟨?_, ?_⟩, ?_, ?_⟩
  · rcases mem_cons.mp mem with rfl | later
    · exact le_rfl
    · exact bound_le_bound.mpr ((pairwise_cons.mp right).1 item later).le
  · exact (inside item (mem_append_right _ mem)).2
  · obtain ⟨item, others, rfl⟩ := exists_cons_of_ne_nil some_kept
    obtain ⟨above, below⟩ := low item mem_cons_self
    exact above.trans_lt below
  · exact (inside promoted (by simp)).2

/-- A leaf split in two: the contents of the other leaves stay, and the caches are void. -/
theorem splitLeaf_spec {items : List (K × V)} {before after : List (Leaf K V)}
    {outside : Finset Nat} (capacity : 2 ≤ kind.maxInternalItems)
    (place : LeafAt state.bodies kind root path block items lo hi before after outside)
    (two_items : 2 ≤ items.length) (fresh : state.Fresh ({block} ∪ outside)) :
    wp (splitLeaf kind block node items path)
      (fun _ next => Grown kind root state.invalidated next (path.length + 1)
        (before.map snd ++ (items.take (items.length / 2) ::
          items.drop (items.length / 2) :: after.map snd)))
      never state := by
  obtain ⟨kept, promoted, rest, kept_eq, dropped, whole, kept_length, rest_length⟩ :=
    exists_halves (show 0 < items.length by omega)
  rw [kept_eq, dropped]
  have some_kept : kept ≠ [] := by
    rintro rfl
    simp only [length_nil] at kept_length
    omega
  obtain ⟨ordered, inside, room⟩ := place.contents
  rw [whole] at ordered inside
  obtain ⟨kept_ordered, rest_ordered, kept_inside, rest_inside, low, high⟩ :=
    leaf_halves ordered inside some_kept
  have right_unused := fresh.unused state.allocations le_rfl
  have right_ne : state.allocator state.allocations ≠ block :=
    fun eq => right_unused (by simp [eq])
  unfold splitLeaf invalidate
  rw [wp_bind, wp_modify, wp_bind, wp_allocate,
    show state.invalidated.allocator state.invalidated.allocations =
      state.allocator state.allocations from rfl, wp_bind]
  refine wp_imp relinkNext_quiet (fun _ linked quiet => ?_)
  simp only [dropped, kept_eq, wp_bind, wp_writeNode]
  obtain ⟨steady, halved_fresh, at_right, at_block, same⟩ := @written_twice K V state.invalidated
    _ linked (state.allocator state.allocations) block { Node.new (.leaf (promoted :: rest)) with
      nextLeaf := node.nextLeaf, prevLeaf := block }
    { node with body := .leaf kept, nextLeaf := state.allocator state.allocations }
    (fresh.of_eq rfl le_rfl) quiet right_ne
  change State.Fresh _ ({state.allocator state.allocations} ∪ _) at halved_fresh
  generalize State.written _ block _ = halved at steady halved_fresh at_right at_block same ⊢
  generalize state.allocator state.allocations = right at *
  simp only [Finset.mem_union, Finset.mem_singleton, not_or] at right_unused
  have left_rep : Rep halved.bodies kind 0 lo (bound promoted.1) block [(block, kept)] {block} :=
    ⟨kept, at_block, rfl, rfl, kept_ordered, kept_inside, by omega⟩
  have right_rep : Rep halved.bodies kind 0 (bound promoted.1) hi right
      [(right, promoted :: rest)] {right} := by
    refine ⟨promoted :: rest, at_right, rfl, rfl, rest_ordered, rest_inside, ?_⟩
    simp only [length_cons]
    omega
  refine wp_imp (insertIntoParent_spec capacity (place.hole.frame fun other mem =>
    same other (fun eq => right_unused.2 (eq ▸ mem)) fun eq => place.apart (eq ▸ mem))
    left_rep right_rep low
    high ?_ ?_ ?_) (fun _ next grown => ?_)
  · simp [Ne.symm right_unused.1]
  · simp [place.apart, right_unused.2]
  · refine halved_fresh.subset ?_
    intro other
    simp only [Finset.mem_union, Finset.mem_singleton]
    grind
  · have grown' := grown.after steady (show 0 + path.length + 1 ≤ path.length + 1 by omega)
    simpa using grown'

end LionFS.BTree
