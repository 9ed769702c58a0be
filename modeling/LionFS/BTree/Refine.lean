import LionFS.BTree.Update

/-!
# Handles over one root refine an ordered map

A session is a transaction with any number of handles over one root block, each
with its own caches. Whatever insertions and removals go through whichever
handles, every handle, and one built anew from the root number, looks up and
iterates the map that the same operations build.
-/
namespace LionFS.BTree
open Run List Nat Assoc
open Function (update_self update_apply update)

theorem le_roundUp (size : Nat) {align : Nat} (pos : 0 < align) : size ≤ roundUp size align := by
  unfold roundUp
  have step : size + align - 1 < (size + align - 1) / align * align + align :=
    lt_div_mul_add pos
  omega

theorem roundUp_le {size align limit : Nat} (pos : 0 < align) (multiple : align ∣ limit)
    (fits : size ≤ limit) : roundUp size align ≤ limit := by
  obtain ⟨count, rfl⟩ := multiple
  unfold roundUp
  have quotient : (size + align - 1) / align ≤ count := by
    rw [← Nat.lt_succ_iff, Nat.div_lt_iff_lt_mul pos, Nat.succ_mul, Nat.mul_comm count]
    omega
  calc (size + align - 1) / align * align ≤ count * align := mul_le_mul_right _ quotient
    _ = align * count := mul_comm _ _

/-- Where a leaf holds four pairs, an internal node holds three separators. -/
theorem Layout.internal_room (layout : Layout) (nodeType : Nat)
    (leaf_room : 4 ≤ (layout.kind nodeType).maxLeafItems) :
    3 ≤ (layout.kind nodeType).maxInternalItems := by
  have pos : 0 < layout.kvPairSize := by
    by_contra none_left
    have zero : layout.kvPairSize = 0 := by omega
    have none_held : (layout.kind nodeType).maxLeafItems = 0 := by
      rw [Layout.kind, zero, Nat.div_zero]
    omega
  have pair : layout.kvPairSize ≤ 1008 := by
    have bound := (le_div_iff_mul_le pos).mp leaf_room
    unfold payloadSize at bound
    omega
  have key : layout.keySize ≤ layout.kvPairSize := by
    have inner := le_roundUp layout.keySize (Nat.two_pow_pos layout.valueAlign)
    have outer := le_roundUp (roundUp layout.keySize (2 ^ layout.valueAlign) + layout.valueSize)
      (Nat.two_pow_pos (max layout.keyAlign layout.valueAlign))
    unfold Layout.kvPairSize
    omega
  have aligned : 2 ^ layout.keyAlign ≤ layout.kvPairSize := by
    have divides : 2 ^ max layout.keyAlign layout.valueAlign ∣ layout.kvPairSize :=
      Nat.dvd_mul_left _ _
    exact (Nat.pow_le_pow_right (by omega) (le_max_left _ _)).trans (Nat.le_of_dvd pos divides)
  have exponent : layout.keyAlign ≤ 9 := by
    by_contra larger
    have power : 2 ^ 10 ≤ 2 ^ layout.keyAlign := Nat.pow_le_pow_right (by omega) (by omega)
    omega
  have separator : layout.kPtrPairSize ≤ 1024 := by
    have rounded : roundUp layout.keySize 8 ≤ 1008 :=
      roundUp_le (by omega) (by decide) (key.trans pair)
    have divides : 2 ^ max layout.keyAlign 3 ∣ 2 ^ 10 := Nat.pow_dvd_pow 2 (by omega)
    exact roundUp_le (Nat.two_pow_pos _) divides (by omega)
  have some_separator : 0 < layout.kPtrPairSize := by
    have outer := le_roundUp (roundUp layout.keySize 8 + 8)
      (Nat.two_pow_pos (max layout.keyAlign 3))
    unfold Layout.kPtrPairSize
    omega
  show 3 ≤ (payloadSize - 8) / layout.kPtrPairSize
  rw [le_div_iff_mul_le some_separator]
  unfold payloadSize
  omega

variable {K V : Type}

/-- A transaction with handles over one root block. -/
structure Session (K V : Type) where
  /-- The transaction; its own handle is that of the last operation. -/
  state : State K V
  /-- The handles, by number. -/
  handles : Nat → Handle K

/-- An operation through a handle. -/
inductive Op (K V : Type) where
  | insert (handle : Nat) (key : K) (value : V)
  | remove (handle : Nat) (key : K)
  | removeWithAlloc (handle : Nat) (key : K)

/-- The handle an operation goes through. -/
def Op.handle : Op K V → Nat
  | .insert handle _ _ => handle
  | .remove handle _ => handle
  | .removeWithAlloc handle _ => handle

/-- The transaction as a handle sees it. -/
def State.through (state : State K V) (handle : Handle K) : State K V :=
  { state with handle := handle }

variable [LinearOrder K]

/-- The command of an operation. -/
def Op.command (kind : Kind) (fuel : Nat) : Op K V → Run (State K V) PUnit
  | .insert _ key value => BTree.insert kind fuel key value
  | .remove _ key => do
    let _ ← BTree.remove kind fuel key
    pure ⟨⟩
  | .removeWithAlloc _ key => do
    let _ ← BTree.removeWithAlloc kind fuel key
    pure ⟨⟩

/-- One operation of a session. -/
def Session.step (kind : Kind) (fuel : Nat) (op : Op K V) : Run (Session K V) PUnit :=
  fun session =>
    let outcome := op.command kind fuel (session.state.through (session.handles op.handle))
    (outcome.1, ⟨outcome.2, update session.handles op.handle outcome.2.handle⟩)

/-- A session whose handles are all new. -/
def Session.opened (root : Nat) (state : State K V) : Session K V :=
  ⟨state, fun _ => Handle.new K root⟩

/-- What an operation does to a map. -/
def Op.act (map : K → Option V) : Op K V → (K → Option V)
  | .insert _ key value => update map key (some value)
  | .remove _ key => update map key none
  | .removeWithAlloc _ key => update map key none

/-- What an operation does to the bindings of a map. -/
def Op.bind (bindings : List (K × V)) : Op K V → List (K × V)
  | .insert _ key value => Assoc.insert key value bindings
  | .remove _ key => erase key bindings
  | .removeWithAlloc _ key => erase key bindings

variable {bindings : List (K × V)}

/-- The bindings are those of the map. -/
theorem Op.find_bind (ordered : Assoc.Ordered bindings) (op : Op K V) :
    (fun key => Assoc.find key (op.bind bindings)) = op.act fun key => Assoc.find key bindings := by
  funext other
  cases op with
  | insert handle key value =>
    simp only [Op.bind, Op.act, Assoc.find_insert, update_apply]
  | remove handle key =>
    simp only [Op.bind, Op.act, find_erase ordered, update_apply]
  | removeWithAlloc handle key =>
    simp only [Op.bind, Op.act, find_erase ordered, update_apply]

variable {kind : Kind} {root : Nat} {blocks : List Nat} {state : State K V}

theorem Represents.ordered {effort : Nat}
    (tree : Represents kind root state bindings blocks effort) : Assoc.Ordered bindings := by
  obtain ⟨height, leaves, own, rep, rfl, -⟩ := tree.tree
  exact rep.ordered

/-- The operations on the map are those on its bindings. -/
theorem foldl_act (ordered : Assoc.Ordered bindings) (ops : List (Op K V)) :
    ops.foldl Op.act (fun key => find key bindings) =
      fun key => Assoc.find key (ops.foldl Op.bind bindings) := by
  induction ops generalizing bindings with
  | nil => rfl
  | cons op ops ih =>
    have next_ordered : Assoc.Ordered (op.bind bindings) := by
      cases op with
      | insert handle key value => exact ordered.insert key value
      | remove handle key => exact ordered.erase key
      | removeWithAlloc handle key => exact ordered.erase key
    rw [foldl_cons, foldl_cons, ← Op.find_bind ordered]
    exact ih next_ordered

/-- Every handle of a session fits the tree. -/
structure Session.Sound (kind : Kind) (root : Nat) (session : Session K V)
    (bindings : List (K × V)) (blocks : List Nat) (effort : Nat) : Prop where
  tree : Represents kind root session.state bindings blocks effort
  valid : ∀ index, (session.handles index).Valid root session.state.epoch blocks

variable {effort fuel : Nat}

/-- The command of an operation changes the bindings as the operation does. -/
theorem Op.command_spec (leaf_room : 4 ≤ kind.maxLeafItems) (room : 2 ≤ kind.maxInternalItems)
    (op : Op K V) (tree : Represents kind root state bindings blocks effort)
    (valid : state.handle.Valid root state.epoch blocks) (enough : effort < fuel) :
    wp (op.command kind fuel)
      (fun _ => Mutated kind root state.epoch blocks (op.bind bindings) (effort + 2))
      never state := by
  cases op with
  | insert handle key value => exact insert_spec tree valid leaf_room room enough
  | remove handle key =>
    unfold Op.command
    exact wp_seq (removeInner_spec tree valid enough) (fun _ _ done => done.2)
  | removeWithAlloc handle key =>
    unfold Op.command
    exact wp_seq (removeInner_spec tree valid enough) (fun _ _ done => done.2)

section
variable {session : Session K V} (sound : session.Sound kind root bindings blocks effort)
  (leaf_room : 4 ≤ kind.maxLeafItems) (room : 2 ≤ kind.maxInternalItems)
include sound leaf_room room

/-- One operation of a session succeeds and keeps every handle fitting. -/
theorem Session.Sound.step (op : Op K V) (enough : effort < fuel) :
    ∃ next blocks', Session.step kind fuel op session = (some ⟨⟩, next) ∧
      next.Sound kind root (op.bind bindings) blocks' (effort + 2) := by
  have tree : Represents kind root (session.state.through (session.handles op.handle)) bindings
      blocks effort := sound.tree.of_eq rfl rfl le_rfl rfl rfl
  obtain ⟨_, next, ran, blocks', tree', valid', reshaped⟩ := returns_of_wp
    (op.command_spec leaf_room room tree (sound.valid op.handle) enough)
  refine ⟨⟨next, update session.handles op.handle next.handle⟩, blocks', ?_, tree', ?_⟩
  · rw [Session.step, ran]
  · intro index
    by_cases used : index = op.handle
    · subst used
      simpa using valid'
    · simpa [used] using (sound.valid index).reshaped reshaped

/-- A whole session succeeds, with effort growing by two for each operation. -/
theorem Session.Sound.run (ops : List (Op K V)) (enough : effort + 2 * ops.length < fuel) :
    ∃ final blocks', Run.each ops (Session.step kind fuel) session = (some ⟨⟩, final) ∧
      final.Sound kind root (ops.foldl Op.bind bindings) blocks' (effort + 2 * ops.length) := by
  induction ops generalizing session bindings blocks effort with
  | nil => exact ⟨session, blocks, rfl, sound⟩
  | cons op ops ih =>
    rw [length_cons] at enough
    obtain ⟨next, blocks', stepped, sound'⟩ := sound.step leaf_room room op
      (show effort < fuel by omega)
    obtain ⟨final, blocks'', ran, sound''⟩ := ih sound' (by omega)
    refine ⟨final, blocks'', ?_, ?_⟩
    · rw [Run.each, bind_some stepped]
      exact ran
    · rw [length_cons, show effort + 2 * (ops.length + 1) = effort + 2 + 2 * ops.length by omega]
      exact sound''

end

theorem Represents.viewRoot {epoch : Nat} {handle : Handle K}
    (tree : Represents kind root state bindings blocks effort)
    (valid : handle.Valid root epoch blocks) : (state.through handle).viewRoot kind = root := by
  have live : (state.through handle).handle.frozenView = false := valid.live
  have base : (state.through handle).handle.rootBlock = root := valid.rootBlock
  rw [State.viewRoot, live, base]
  exact tree.live

/-- A handle reads a map: `lookup` finds its values, and `iter_all` returns its bindings in
ascending key order. -/
structure Reads (kind : Kind) (fuel : Nat) (state : State K V) (handle : Handle K)
    (map : K → Option V) : Prop where
  lookup : ∀ key, lookup kind fuel key (state.through handle) =
    (some (map key), state.through handle)
  iterAll : ∃ out, iterAll kind fuel (state.through handle) = (some out, state.through handle) ∧
    (out.Pairwise fun first second => first.1 < second.1) ∧
    ∀ key value, (key, value) ∈ out ↔ map key = some value

theorem Represents.reads {epoch : Nat} {handle : Handle K}
    (tree : Represents kind root state bindings blocks effort)
    (valid : handle.Valid root epoch blocks) (enough : effort < fuel) :
    Reads kind fuel state handle fun key => find key bindings := by
  have view := tree.viewRoot valid
  have through : Represents kind root (state.through handle) bindings blocks effort :=
    tree.of_eq rfl rfl le_rfl rfl rfl
  constructor
  · intro key
    obtain ⟨found, leafBlock, ancestors, lo, hi, before, after, outside, ran, landing⟩ :=
      through.landing key enough
    unfold BTree.lookup
    rw [bind_apply, Run.get]
    dsimp only
    rw [view, lookupFrom_eq ran, ← landing.bindings,
      landing.place.find_entries landing.low landing.high]
  · obtain ⟨height, leaves, own, rep, rfl, -, room, -⟩ := through.tree
    refine ⟨entries leaves, ?_, tree.ordered, fun key value => ⟨fun mem => ?_, fun found => ?_⟩⟩
    · unfold BTree.iterAll
      rw [bind_apply, Run.get]
      dsimp only
      rw [view]
      exact collectPairs_eq rep (by omega)
    · exact find_of_mem tree.ordered.nodup mem
    · exact mem_of_find found

section Opened
variable {layout : Layout} {nodeType : Nat} (leaf_room : 4 ≤ (layout.kind nodeType).maxLeafItems)
include leaf_room

/-- `init_empty` gives the empty tree, for an allocator that returns neither its root, nor block
zero, nor a block twice. -/
theorem represents_empty (state : State K V) (no_barrier : state.cowBarrier = 0)
    (live : state.effectiveRoot (layout.kind nodeType) root = root) (root_ne : root ≠ 0)
    (injective : Function.Injective state.allocator)
    (apart : ∀ index, state.allocator index ≠ 0 ∧ state.allocator index ≠ root) :
    Represents (layout.kind nodeType) root (initEmpty root state).2 [] [root] 0 := by
  refine ⟨⟨0, [(root, [])], {root}, ⟨[], ?_, rfl, rfl, List.Pairwise.nil, ?_, zero_le _⟩, rfl,
    rfl, ?_, ⟨injective, fun index => (apart index).1, fun index _ => ?_, ?_⟩⟩, no_barrier, live⟩
  · show (update state.nodes root (some (Node.new (.leaf []))) root).map Node.body = _
    rw [update_self]
    rfl
  · intro item mem
    cases mem
  · simp only [fullLeaves, map_cons, map_nil, countP_cons, countP_nil, length_nil,
      decide_eq_true_eq]
    rw [if_neg (by omega)]
  · rw [Finset.mem_singleton]
    exact (apart index).2
  · rw [Finset.mem_singleton]
    exact root_ne.symm

/-- A session from any tree succeeds, and old and new handles fit what it leaves. -/
theorem Session.run_opened
    (tree : Represents (layout.kind nodeType) root state bindings blocks effort)
    (ops : List (Op K V)) (enough : effort + 2 * ops.length < fuel) :
    ∃ final blocks', Run.each ops (Session.step (layout.kind nodeType) fuel)
        (Session.opened root state) = (some ⟨⟩, final) ∧
      Represents (layout.kind nodeType) root final.state (ops.foldl Op.bind bindings) blocks'
        (effort + 2 * ops.length) ∧
      ∀ handle, handle = Handle.new K root ∨ (∃ index, handle = final.handles index) →
        handle.Valid root final.state.epoch blocks' := by
  have room := layout.internal_room nodeType leaf_room
  have opened : (Session.opened root state).Sound (layout.kind nodeType) root bindings blocks
      effort := ⟨tree, fun _ => Handle.Valid.new root state.epoch blocks⟩
  obtain ⟨final, blocks', ran, sound⟩ := opened.run leaf_room (by omega) ops enough
  refine ⟨final, blocks', ran, sound.tree, fun handle which => ?_⟩
  rcases which with rfl | ⟨index, rfl⟩
  · exact Handle.Valid.new root final.state.epoch blocks'
  · exact sound.valid index

end Opened

/-- A transaction with one empty block after another to allocate. -/
def freshState : State Nat Nat :=
  { nodes := fun _ => none, nodeGen := 0, epoch := 0, cowBarrier := 0, rootCell := none
    rootMirror := 0, allocator := fun index => index + 2, allocations := 0
    handle := Handle.new Nat 1 }

/-- The layout of eight-byte keys and values. -/
def wordLayout : Layout := ⟨8, 3, 8, 3⟩

end LionFS.BTree
