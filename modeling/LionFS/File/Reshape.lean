import LionFS.File.Mapping

/-!
# Adding and redirecting extents

`add_extent` maps fresh logical blocks and `remap_block` moves one; every other
block keeps its place, whichever of the extents are merged, split or spilled. The
operations touch one extent tree: the trees of other inodes, and all trees that
a snapshot may hold, stay what they are. All this is up to the point where a
change under a barrier moves the root of a tree (`SpillStore.Moved`): the inode
is not told, and what a handle then reads is another matter.
-/
namespace LionFS.File
open Run List Assoc SpillStore
open Function (update_self update_of_ne update_apply update)

/-- What every operation on the extent trees keeps. -/
structure ExtentTrees.Preserves {τ : Type} (trees : ExtentTrees τ) (kept : τ → Prop) : Prop where
  create : ∀ store, kept store → wp trees.create (fun _ => kept) (fun _ => True) store
  new : ∀ root store, kept store → wp (trees.new root) (fun _ => kept) (fun _ => True) store
  lookupFloor : ∀ key store, kept store →
    wp (trees.lookupFloor key) (fun _ => kept) (fun _ => True) store
  insert : ∀ key value store, kept store →
    wp (trees.insert key value) (fun _ => kept) (fun _ => True) store
  removeWithAlloc : ∀ key store, kept store →
    wp (trees.removeWithAlloc key) (fun _ => kept) (fun _ => True) store
  iterExtents : ∀ store, kept store → wp trees.iterExtents (fun _ => kept) (fun _ => True) store
  nodeGenStamp : ∀ store, kept store →
    wp trees.nodeGenStamp (fun _ => kept) (fun _ => True) store

section Preserved
variable {τ : Type} {trees : ExtentTrees τ} {kept : τ → Prop} (keeps : trees.Preserves kept)
include keeps

theorem ExtentTrees.Preserves.addExtent (inode : Inode) (added : Extent) :
    Keeps kept (addExtent trees inode added) := by
  unfold File.addExtent
  cases mergeInline added inode.extents with
  | some extents => exact keeps_pure _
  | none =>
    dsimp only
    split_ifs
    · exact keeps_pure _
    · have made : Keeps kept (ensureTree trees inode) := by
        unfold ensureTree
        split_ifs
        · exact Keeps.bind keeps.create keeps_pure
        · exact keeps_pure _
      refine made.bind fun rooted => ?_
      refine Keeps.bind (keeps.new _) fun _ => ?_
      refine Keeps.bind (keeps.lookupFloor _) fun floor => ?_
      exact Keeps.bind (keeps.insert _ _) keeps_pure

theorem ExtentTrees.Preserves.addExtents (added : List Extent) (inode : Inode) :
    Keeps kept (addExtents trees inode added) := by
  induction added generalizing inode with
  | nil => exact keeps_pure _
  | cons first rest ih => exact (keeps.addExtent inode first).bind ih

theorem ExtentTrees.Preserves.remapBlock (inode : Inode) (lba pba : Nat) :
    Keeps kept (remapBlock trees inode lba pba) := by
  have fails : Keeps kept (fail : Run τ Inode) := fun _ _ => trivial
  unfold File.remapBlock
  cases takeCovering lba inode.extents with
  | some found =>
    obtain ⟨before, extent, behind⟩ := found
    dsimp only
    split_ifs
    · exact keeps_pure _
    · exact keeps.addExtents _ _
  | none =>
    dsimp only
    unfold remapSpilled
    split_ifs
    · exact fails
    · refine Keeps.bind (keeps.new _) fun _ => ?_
      refine Keeps.bind (keeps.lookupFloor _) fun floor => ?_
      cases floor with
      | none => exact fails
      | some binding =>
        dsimp only
        split_ifs
        · refine Keeps.bind (keeps.removeWithAlloc _) fun _ => ?_
          exact (keeps_each fun piece _ => keeps.insert _ _).bind keeps_pure
        · exact fails

end Preserved

variable {store middle next : SpillStore} {bindings : List (Nat × ExtentTreeValue)}
namespace SpillStore

/-- The root of some tree was moved in this transaction. -/
def Moved (store : SpillStore) : Prop := store.rootCell ≠ none

/-- The allocator returns blocks that are no roots yet. -/
structure Fresh (store : SpillStore) : Prop where
  injective : Function.Injective store.allocator
  /-- What it will return is neither zero nor a tree. -/
  unused : ∀ index, store.allocations ≤ index →
    store.allocator index ≠ 0 ∧ store.trees (store.allocator index) = none

/-- What an operation on the tree of one root keeps, while no root is moved. -/
structure Kept (root : Nat) (store next : SpillStore) : Prop where
  still : next.rootCell = none
  barrier : next.cowBarrier = store.cowBarrier
  stamps : store.nodeGen ≤ next.nodeGen
  fresh : store.Fresh → next.Fresh
  grown : ∀ other, (store.trees other).isSome → (next.trees other).isSome
  others : ∀ other, other ≠ root ∨ root = 0 → next.trees other = store.trees other
  frozen : ∀ other tree, store.trees other = some tree → 0 < store.cowBarrier →
    tree.generation ≤ store.cowBarrier → next.trees other = some tree

/-- Nothing changed but the handle. -/
theorem Kept.handle (still : store.rootCell = none) (root handle : Nat) :
    Kept root store { store with handle := handle } := by
  constructor
  · exact still
  · rfl
  · exact le_rfl
  · exact fun fresh => ⟨fresh.injective, fresh.unused⟩
  · exact fun _ there => there
  · exact fun _ _ => rfl
  · exact fun _ _ there _ _ => there

theorem Kept.trans {first second : Nat} (one : Kept first store middle)
    (two : Kept second middle next) (same : first = second ∨ first = 0) :
    Kept second store next := by
  constructor
  · exact two.still
  · exact two.barrier.trans one.barrier
  · exact one.stamps.trans two.stamps
  · exact fun fresh => two.fresh (one.fresh fresh)
  · exact fun other there => two.grown other (one.grown other there)
  · intro other apart
    rw [two.others other apart]
    refine one.others other ?_
    omega
  · intro other tree there live old
    refine two.frozen other tree (one.frozen other tree there live old) ?_ ?_
    · rwa [one.barrier]
    · rwa [one.barrier]

/-- No root is moved, and the handle is over the tree of a root, with the given bindings. -/
structure Open (root : Nat) (bindings : List (Nat × ExtentTreeValue)) (store : SpillStore) :
    Prop where
  /-- No root is moved. -/
  still : store.rootCell = none
  /-- The handle is over the root. -/
  handle : store.handle = root
  read : store.read root = some bindings

/-- With no root moved a handle reads the tree it names. -/
theorem viewRoot_of_still (still : store.rootCell = none) (root : Nat) :
    store.viewRoot root = root := by
  unfold viewRoot
  rw [still]
  rfl

variable {root : Nat}

theorem isSome_update {other : Nat} {tree : SpillTree} (there : (store.trees other).isSome) :
    (update store.trees root (some tree) other).isSome := by
  rw [update_apply]
  split_ifs
  · rfl
  · exact there

theorem Fresh.put (fresh : store.Fresh) (there : (store.trees root).isSome) :
    (store.put root bindings).Fresh := by
  refine ⟨fresh.injective, fun index later => ⟨(fresh.unused index later).1, ?_⟩⟩
  have apart : store.allocator index ≠ root := by
    intro same
    rw [← same, (fresh.unused index later).2] at there
    cases there
  exact (update_of_ne apart _ _).trans (fresh.unused index later).2

/-- A young tree put in place of an old one. -/
theorem Kept.put {old : SpillTree} (rooted : root ≠ 0) (still : store.rootCell = none)
    (found : store.trees root = some old)
    (young : ¬ (0 < store.cowBarrier ∧ old.generation ≤ store.cowBarrier))
    (bindings : List (Nat × ExtentTreeValue)) : Kept root store (store.put root bindings) := by
  constructor
  · exact still
  · rfl
  · exact Nat.le_succ _
  · exact fun fresh => fresh.put (by rw [found]; rfl)
  · exact fun other there => isSome_update there
  · intro other apart
    exact update_of_ne (apart.resolve_right rooted) _ _
  · intro other tree there live not_younger
    have apart : other ≠ root := by
      rintro rfl
      rw [found, Option.some.injEq] at there
      exact young ⟨live, there ▸ not_younger⟩
    exact (update_of_ne apart _ _).trans there

/-- Up to a moved root, an operation on the tree of one root. -/
def Settled (root : Nat) (store next : SpillStore) : Prop :=
  next.Moved ∨ store.rootCell = none ∧ Kept root store next

theorem Settled.handle (store : SpillStore) (root handle : Nat) :
    Settled root store { store with handle := handle } := by
  by_cases still : store.rootCell = none
  · exact .inr ⟨still, .handle still root handle⟩
  · exact .inl still

theorem Settled.trans {first second : Nat} (one : Settled first store middle)
    (two : Settled second middle next) (same : first = second ∨ first = 0) :
    Settled second store next := by
  rcases two with moved | ⟨still, later⟩
  · exact .inl moved
  · obtain ⟨before, earlier⟩ := one.resolve_left (absurd still)
    exact .inr ⟨before, earlier.trans later same⟩

/-- The handle reads the tree of a root, moved or not, with the given bindings. -/
structure Views (root : Nat) (bindings : List (Nat × ExtentTreeValue)) (store : SpillStore) :
    Prop where
  handle : store.viewRoot store.handle = store.viewRoot root
  read : store.read root = some bindings

theorem viewRoot_viewRoot (store : SpillStore) (root : Nat) :
    store.viewRoot (store.viewRoot root) = store.viewRoot root := by
  unfold viewRoot
  cases store.rootCell <;> rfl

theorem Views.reading {α : Type} (views : Views root bindings store)
    (query : List (Nat × ExtentTreeValue) → α) :
    SpillStore.reading query store = (some (query bindings), store) := by
  unfold SpillStore.reading SpillStore.read
  rw [views.handle, show (store.trees _).map _ = _ from views.read]
  rfl

theorem Views.lookupFloor (views : Views root bindings store) (key : Nat) :
    operations.lookupFloor key store = (some (floor key bindings), store) :=
  views.reading _

/-- Moved or not, a changed tree is what the handle reads from then on. -/
theorem Views.change (rooted : root ≠ 0) (views : Views root bindings store)
    (how : List (Nat × ExtentTreeValue) → List (Nat × ExtentTreeValue)) : wp (change how)
      (fun _ next => Views root (how bindings) next ∧ Settled root store next)
      never store := by
  have there := views.read
  unfold SpillStore.read at there
  obtain ⟨tree, found, rfl⟩ := Option.map_eq_some_iff.mp there
  unfold wp SpillStore.change
  rw [views.handle]
  dsimp only
  rw [found]
  dsimp only
  split_ifs with copied
  · exact ⟨⟨rfl, congrArg (·.map SpillTree.bindings) (update_self _ _ store.trees)⟩,
      .inl (Option.some_ne_none _)⟩
  · refine ⟨⟨viewRoot_viewRoot store root, congrArg (·.map SpillTree.bindings)
      (update_self _ _ store.trees)⟩, ?_⟩
    by_cases still : store.rootCell = none
    · rw [viewRoot_of_still still] at found ⊢
      exact .inr ⟨still, .put rooted still found copied _⟩
    · exact .inl still

theorem Open.views (opened : Open root bindings store) : Views root bindings store :=
  ⟨congrArg store.viewRoot opened.handle, opened.read⟩

/-- Making a tree leaves an empty one under a fresh root. -/
theorem create_spec (still : store.rootCell = none) (fresh : store.Fresh) :
    wp operations.create
      (fun root next => root ≠ 0 ∧ store.trees root = none ∧ Kept root store next ∧
        next.trees root = some ⟨0, []⟩)
      never store := by
  have unused := fresh.unused store.allocations le_rfl
  refine ⟨unused.1, unused.2, ?_, update_self _ _ _⟩
  constructor
  · exact still
  · rfl
  · exact le_rfl
  · intro fresh
    refine ⟨fresh.injective, fun index later => ?_⟩
    have later' : store.allocations + 1 ≤ index := later
    have apart : store.allocator index ≠ store.allocator store.allocations := by
      intro same
      have index_eq := fresh.injective same
      omega
    have unused_later := fresh.unused index (by omega)
    exact ⟨unused_later.1, (update_of_ne apart _ _).trans unused_later.2⟩
  · exact fun other there => isSome_update there
  · intro other apart
    exact update_of_ne (apart.resolve_right unused.1) _ _
  · intro other tree there live old
    have apart : other ≠ store.allocator store.allocations := by
      rintro rfl
      rw [unused.2] at there
      cases there
    exact (update_of_ne apart _ _).trans there

/-- A command leaves the barrier alone, whether it returns or fails. -/
def KeepsBarrier {α : Type} (command : Run SpillStore α) : Prop :=
  ∀ store, (command store).2.cowBarrier = store.cowBarrier

theorem change_barrier (how : List (Nat × ExtentTreeValue) → List (Nat × ExtentTreeValue)) :
    KeepsBarrier (change how) := by
  intro store
  unfold change
  dsimp only
  cases store.trees (store.viewRoot store.handle) with
  | none => rfl
  | some tree =>
    dsimp only
    split_ifs <;> rfl

theorem removeWithAlloc_barrier (key : Nat) : KeepsBarrier (operations.removeWithAlloc key) := by
  intro store
  show ((reading _ >>= _ : Run SpillStore Bool) store).2.cowBarrier = _
  rw [bind_apply, reading]
  cases store.read store.handle with
  | none => rfl
  | some bindings =>
    have changed := change_barrier (erase key) store
    show ((change _ >>= _ : Run SpillStore Bool) store).2.cowBarrier = _
    rw [bind_apply]
    cases outcome : change (erase key) store with
    | mk result next =>
      rw [outcome] at changed
      cases result <;> exact changed

/-- What changes of a tree, fresh roots, handles and stamps keep, all operations keep. -/
theorem preserves_of {kept : SpillStore → Prop}
    (create : ∀ store, kept store → kept (operations.create store).2)
    (handle : ∀ root store, kept store → kept { store with handle := root })
    (stamp : ∀ store, kept store → kept { store with nodeGen := store.nodeGen + 1 })
    (changes : ∀ how, Keeps kept (change how)) : operations.Preserves kept := by
  have reads : ∀ {α : Type} (query : List (Nat × ExtentTreeValue) → α),
      Keeps kept (reading query) := by
    intro α query store start
    unfold wp reading
    cases store.read store.handle with
    | none => trivial
    | some bindings => exact start
  constructor
  · exact create
  · exact handle
  · exact fun key => reads _
  · exact fun key value => changes _
  · exact fun key => (reads _).bind fun bound => (changes _).bind keeps_pure
  · exact reads _
  · exact stamp

/-- No operation unmoves a root. -/
theorem preserves_moved : operations.Preserves Moved := by
  refine preserves_of (fun _ moved => moved) (fun _ _ moved => moved) (fun _ moved => moved) ?_
  intro how store moved
  unfold wp change
  dsimp only
  cases store.trees (store.viewRoot store.handle) with
  | none => trivial
  | some tree =>
    dsimp only
    split_ifs
    · exact Option.some_ne_none _
    · exact moved

/-- No snapshot is live and no root is moved. -/
def Calm (store : SpillStore) : Prop := store.cowBarrier = 0 ∧ store.rootCell = none

/-- Without a live snapshot no operation moves a root. -/
theorem preserves_calm : operations.Preserves Calm := by
  refine preserves_of (fun _ calm => calm) (fun _ _ calm => calm) (fun _ calm => calm) ?_
  intro how store calm
  unfold wp change
  dsimp only
  cases store.trees (store.viewRoot store.handle) with
  | none => trivial
  | some tree =>
    dsimp only
    rw [if_neg (by rw [calm.1]; omega)]
    exact calm

end SpillStore

/-- What adding and redirecting extents keeps of an inode and the trees. -/
structure Reshaped (inode : Inode) (store : SpillStore) (inode' : Inode) (next : SpillStore) :
    Prop where
  /-- The inode is still a mapping. -/
  sound : inode'.Sound next
  /-- Only its own tree changed. -/
  kept : SpillStore.Kept inode'.spillExtentRoot store next
  /-- It has the tree it had, or got one. -/
  root : inode'.spillExtentRoot = inode.spillExtentRoot ∨
    inode.spillExtentRoot = 0 ∧ store.trees inode'.spillExtentRoot = none
  /-- The other fields. -/
  fields : inode'.ino = inode.ino ∧ inode'.size = inode.size ∧
    inode'.compressionAlgo = inode.compressionAlgo

theorem Reshaped.trans {first second third : Inode} (one : Reshaped first store second middle)
    (two : Reshaped second middle third next) : Reshaped first store third next := by
  constructor
  · exact two.sound
  · refine one.kept.trans two.kept ?_
    rcases two.root with same | ⟨rootless, -⟩
    · exact .inl same.symm
    · exact .inr rootless
  · rcases two.root with same | ⟨rootless, made⟩
    · rw [same]
      exact one.root
    · have none_before : store.trees third.spillExtentRoot = none := by
        by_contra there
        have grown := one.kept.grown _ (Option.isSome_iff_ne_none.mpr there)
        rw [made] at grown
        cases grown
      rcases one.root with same | ⟨first_rootless, -⟩
      · exact .inr ⟨same ▸ rootless, none_before⟩
      · exact .inr ⟨first_rootless, none_before⟩
  · obtain ⟨ino, size, algo⟩ := two.fields
    rw [ino, size, algo]
    exact one.fields

variable {added : Extent} {extents : List Extent}

theorem mergeInline_spec {merged : List Extent} (merges : mergeInline added extents = some merged) :
    ∃ extent joined rest, extents.Perm (extent :: rest) ∧ merged.Perm (joined :: rest) ∧
      (∀ lba pba, joined.Sends lba pba ↔
        extent.Sends lba pba ∨ added.Sends lba pba) ∧
      joined.length = extent.length + added.length ∧
      (joined.physicalStart = extent.physicalStart ∨
        joined.physicalStart = added.physicalStart) := by
  induction extents generalizing merged with
  | nil => cases merges
  | cons extent rest ih =>
    unfold mergeInline at merges
    split_ifs at merges with after before
    · rw [Option.some.injEq] at merges
      subst merges
      exact ⟨extent, extent.join added, rest, .refl _, .refl _, after.sends, rfl, .inl rfl⟩
    · rw [Option.some.injEq] at merges
      subst merges
      refine ⟨extent, added.join extent, rest, .refl _, .refl _, fun lba pba => ?_,
        Nat.add_comm _ _, .inr rfl⟩
      rw [before.sends, or_comm]
    · rw [Option.map_eq_some_iff] at merges
      obtain ⟨tail, merged_tail, rfl⟩ := merges
      obtain ⟨other, joined, others, perm, merged_perm, facts⟩ := ih merged_tail
      exact ⟨other, joined, extent :: others, (perm.cons _).trans (.swap _ _ _),
        (merged_perm.cons _).trans (.swap _ _ _), facts⟩

/-- Extents are a mapping that adds an extent to that of others. -/
structure Adds (added : Extent) (extents adding : List Extent) : Prop where
  tidy : Tidy adding
  mapsTo : ∀ logical physical, MapsTo adding logical physical ↔
    MapsTo extents logical physical ∨ added.Sends logical physical

/-- An extent covers none of the blocks that some extents map. -/
def Extent.Unmapped (extent : Extent) (extents : List Extent) : Prop :=
  ∀ logical physical, extent.Covers logical → ¬ MapsTo extents logical physical

theorem adds_of_perm {adding : List Extent} (perm : adding.Perm (added :: extents))
    (tidy : Tidy extents) (pos : 0 < added.length) (nonzero : 0 < added.physicalStart)
    (unmapped : added.Unmapped extents) : Adds added extents adding := by
  refine ⟨(tidy.cons pos nonzero unmapped).perm perm.symm, fun lba pba => ?_⟩
  rw [mapsTo_perm perm, mapsTo_cons, or_comm]

variable {extent : Extent}

theorem adds_of_join {joined : Extent} {adding rest : List Extent}
    (old_perm : extents.Perm (extent :: rest)) (new_perm : adding.Perm (joined :: rest))
    (tidy : Tidy extents) (unmapped : added.Unmapped extents)
    (sends : ∀ lba pba, joined.Sends lba pba ↔ extent.Sends lba pba ∨ added.Sends lba pba)
    (length : joined.length = extent.length + added.length)
    (start : joined.physicalStart = extent.physicalStart ∨
      joined.physicalStart = added.physicalStart) (nonzero : 0 < added.physicalStart) :
    Adds added extents adding := by
  have old_tidy := tidy.perm old_perm
  have pos : 0 < joined.length := by
    have extent_pos := old_tidy.positive extent mem_cons_self
    omega
  have joined_nonzero : 0 < joined.physicalStart := by
    have extent_nonzero := old_tidy.nonzero extent mem_cons_self
    omega
  have kept := old_tidy.sublist (sublist_cons_self _ _)
  refine ⟨(kept.cons pos joined_nonzero fun lba pba covers maps => ?_).perm new_perm.symm,
    fun lba pba => ?_⟩
  · rcases (sends lba _).mp ⟨covers, rfl⟩ with old | new
    · exact old_tidy.head_unmapped old.1 pba maps
    · exact unmapped lba pba new.1 ((mapsTo_perm old_perm).mpr (mapsTo_cons.mpr (.inr maps)))
  · rw [mapsTo_perm new_perm, mapsTo_perm old_perm, mapsTo_cons, mapsTo_cons, sends, or_right_comm]

/-- The key of an extent apart from the spilled ones is not bound. -/
theorem unbound_of_tidy (tidy : Tidy (extent :: bindings.map spilledExtent)) :
    find extent.logicalStart bindings = none := by
  by_contra bound
  obtain ⟨value, found⟩ := Option.ne_none_iff_exists'.mp bound
  have mem : spilledExtent (extent.logicalStart, value) ∈ bindings.map spilledExtent :=
    mem_map_of_mem (mem_of_find found)
  have own : extent.Covers extent.logicalStart := by
    have pos := tidy.positive extent mem_cons_self
    unfold Extent.Covers Extent.logicalEnd
    omega
  have other : (spilledExtent (extent.logicalStart, value)).Covers extent.logicalStart := by
    have pos := tidy.positive _ (mem_cons_of_mem _ mem)
    exact ⟨le_rfl, Nat.lt_add_of_pos_right pos⟩
  exact tidy.head_unmapped own _ (mapsTo_of_covers mem other)

/-- The bindings of a tree after `ExtentTree::insert`. -/
def withSpilled (extent : Extent) (bindings : List (Nat × ExtentTreeValue)) :
    List (Nat × ExtentTreeValue) :=
  insert extent.logicalStart ⟨extent.physicalStart, extent.length⟩ bindings

section
variable (ordered : Assoc.Ordered bindings)
include ordered

theorem withSpilled_perm (extent : Extent) :
    ((withSpilled extent bindings).map spilledExtent).Perm
      (extent :: (erase extent.logicalStart bindings).map spilledExtent) :=
  (insert_perm ordered extent.logicalStart ⟨extent.physicalStart, extent.length⟩).map spilledExtent

/-- The spilled extents after an insertion under a key that was not bound. -/
theorem withSpilled_fresh (tidy : Tidy (extent :: bindings.map spilledExtent)) :
    ((withSpilled extent bindings).map spilledExtent).Perm
      (extent :: bindings.map spilledExtent) := by
  have perm := withSpilled_perm ordered extent
  rwa [erase_eq_self (unbound_of_tidy tidy)] at perm

theorem erase_spilled_perm {binding : Nat × ExtentTreeValue} (mem : binding ∈ bindings) :
    (bindings.map spilledExtent).Perm
      (spilledExtent binding :: (erase binding.1 bindings).map spilledExtent) :=
  (erase_perm (find_of_mem ordered.nodup mem)).map spilledExtent

/-- What `add_extent` inserts into the tree adds the new extent to the mapping. -/
theorem mergeFloor_adds {inline : List Extent} (tidy : Tidy (inline ++ bindings.map spilledExtent))
    (pos : 0 < added.length) (nonzero : 0 < added.physicalStart)
    (unmapped : added.Unmapped (inline ++ bindings.map spilledExtent)) :
    Adds added (inline ++ bindings.map spilledExtent) (inline ++
      (withSpilled (mergeFloor added (floor added.logicalStart bindings)) bindings).map
        spilledExtent) := by
  have alone : Adds added (inline ++ bindings.map spilledExtent)
      (inline ++ (withSpilled added bindings).map spilledExtent) := by
    have spilled_tidy := tidy.sublist (sublist_append_right _ _)
    have beside : Tidy (added :: bindings.map spilledExtent) :=
      spilled_tidy.cons pos nonzero fun lba pba covers maps =>
        unmapped lba pba covers (mapsTo_append.mpr (.inr maps))
    exact adds_of_perm (((withSpilled_fresh ordered beside).append_left inline).trans
      perm_middle) tidy pos nonzero unmapped
  unfold mergeFloor
  cases found : floor added.logicalStart bindings with
  | none => exact alone
  | some binding =>
    dsimp only
    split_ifs with adjoins
    · have old_perm := ((erase_spilled_perm ordered (mem_of_floor found).1).append_left
        inline).trans perm_middle
      have new_perm := ((withSpilled_perm ordered ((spilledExtent binding).join added)).append_left
        inline).trans perm_middle
      exact adds_of_join old_perm new_perm tidy unmapped adjoins.sends rfl (.inl rfl) nonzero
    · exact alone

end
end LionFS.File
