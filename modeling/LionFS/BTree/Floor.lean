import LionFS.BTree.Frozen

/-!
# Floor lookups

`lookup_floor` descends to the leaf whose separators are around the key and takes
the greatest key there that is not above it. Separators stay when pairs are
removed, so the leaf may have lost all such pairs while a leaf to its left has
one: the lookup is exact when no separator lies between the key and the greatest
bound key at or below it, or no key at or below it is bound.
-/
namespace LionFS.BTree
open Run Assoc
variable {K V : Type} [LinearOrder K]

/-- `BTree::lookup_floor`. It descends as `insert` does. -/
def lookupFloor (kind : Kind) (fuel : Nat) (key : K) : Run (State K V) (Option (K × V)) := do
  let state ← Run.get
  let found ← findLeaf kind key fuel (state.viewRoot kind) [] true
  pure (floor key found.items)

/-- The result is the binding with the greatest key that is not above a key, or none if there is
no such key. -/
def IsFloor (bindings : List (K × V)) (key : K) : Option (K × V) → Prop
  | some binding => binding ∈ bindings ∧ binding.1 ≤ key ∧
      ∀ other ∈ bindings, other.1 ≤ key → other.1 ≤ binding.1
  | none => ∀ other ∈ bindings, key < other.1

/-- The floor in a part of the bindings is the floor of all if the part has one, or there is
none: the other bindings lie below the part or above the key. -/
theorem isFloor_floor_iff {bindings items : List (K × V)} {key : K}
    (part : ∀ item ∈ items, item ∈ bindings) (ordered : Assoc.Ordered items)
    (around : ∀ other ∈ bindings, other.1 ≤ key → other ∈ items ∨
      ∀ item ∈ items, other.1 < item.1) :
    IsFloor bindings key (floor key items) ↔
      (∃ item ∈ items, item.1 ≤ key) ∨ ∀ other ∈ bindings, key < other.1 := by
  cases found : floor key items with
  | none =>
    have none_below : ¬ ∃ item ∈ items, item.1 ≤ key := by
      rintro ⟨item, mem, below⟩
      obtain ⟨binding, same, -⟩ := le_floor ordered mem below
      rw [found] at same
      cases same
    exact ⟨.inr, fun either => either.resolve_left none_below⟩
  | some binding =>
    obtain ⟨mem, below⟩ := mem_of_floor found
    refine ⟨fun _ => .inl ⟨binding, mem, below⟩, fun _ => ⟨part _ mem, below, ?_⟩⟩
    intro other inside under
    rcases around other inside under with here | before
    · obtain ⟨greatest, same, above⟩ := le_floor ordered here under
      rw [found] at same
      cases same
      exact above
    · exact (before binding mem).le

/-- The separators in the nodes of a tree of at most some height. -/
def separators (bodies : Nat → Option (Body K V)) : (height block : Nat) → List K
  | 0, _ => []
  | height + 1, block =>
    match bodies block with
    | some (.internal _ leftmost items) =>
      items.map Prod.fst ++ (childPtrs leftmost items).flatMap (separators bodies height)
    | _ => []

section Separators
open List
variable {bodies : Nat → Option (Body K V)} {kind : Kind} {level block root : Nat} {lo hi : Bound K}

omit [LinearOrder K] in
/-- A separator of an internal node is its own or one below a child. -/
theorem mem_separators {height leftmost : Nat} {items : List (K × Nat)}
    (held : bodies block = some (.internal level leftmost items)) {key : K} :
    key ∈ separators bodies (height + 1) block ↔ key ∈ items.map Prod.fst ∨
      ∃ child ∈ childPtrs leftmost items, key ∈ separators bodies height child := by
  rw [separators, held]
  dsimp only
  rw [mem_append, mem_flatMap]

omit [LinearOrder K] in
/-- The children of a node are those of its segments. -/
theorem mem_segments (lo : Bound K) {leftmost child : Nat} {items : List (K × Nat)} :
    child ∈ childPtrs leftmost items ↔ ∃ start, (start, child) ∈ segments lo leftmost items := by
  unfold childPtrs segments
  constructor
  · intro mem
    rcases mem_cons.mp mem with rfl | later
    · exact ⟨lo, mem_cons_self⟩
    · obtain ⟨item, inside, rfl⟩ := mem_map.mp later
      exact ⟨bound item.1, mem_cons_of_mem _ (mem_map.mpr ⟨item, inside, rfl⟩)⟩
  · rintro ⟨start, mem⟩
    rcases mem_cons.mp mem with same | later
    · exact (Prod.mk.inj same).2 ▸ mem_cons_self
    · obtain ⟨item, inside, same⟩ := mem_map.mp later
      exact mem_cons_of_mem _ (mem_map.mpr ⟨item, inside, (Prod.mk.inj same).2⟩)

/-- The separators of a subtree lie between its places. -/
theorem Rep.separators_within {leaves : List (Leaf K V)} {own : Finset Nat}
    (rep : Rep bodies kind level lo hi block leaves own) (height : Nat) :
    ∀ key ∈ separators bodies height block, lo ≤ bound key ∧ bound key < hi := by
  induction height generalizing level lo hi block leaves own with
  | zero => exact forall_mem_nil _
  | succ height ih =>
    cases level with
    | zero =>
      obtain ⟨items, held, -⟩ := rep
      unfold separators
      rw [held]
      exact forall_mem_nil _
    | succ level =>
      obtain ⟨leftmost, items, below, held, -, -, -, chain⟩ := rep
      intro key mem
      rcases (mem_separators held).mp mem with own | ⟨child, among, deeper⟩
      · obtain ⟨item, inside, rfl⟩ := mem_map.mp own
        exact chain.le_of_mem (bound item.1, item.2)
          (mem_cons_of_mem _ (mem_map.mpr ⟨item, inside, rfl⟩))
      · obtain ⟨start, part⟩ := (mem_segments lo).mp among
        obtain ⟨top, here, mine, ends, -, rep⟩ := chain.forall_mem _ part
        obtain ⟨low, high⟩ := ih rep key deeper
        exact ⟨(chain.le_of_mem _ part).1.trans low, high.trans_le ends⟩

/-- Around a subtree in its place: its lower place is the end of the tree or a separator, its own
separators are separators of the tree, and the others lie at or below it or above it. -/
theorem Hole.separators {path : List Nat} {before after : List (Leaf K V)} {outside : Finset Nat}
    (hole : Hole bodies kind root path level block lo hi before after outside) (height : Nat) :
    (lo = ⊥ ∨ ∃ key ∈ separators bodies (height + path.length) root, lo = bound key) ∧
      ∀ key, (key ∈ separators bodies height block →
          key ∈ separators bodies (height + path.length) root) ∧
        (key ∈ separators bodies (height + path.length) root →
          bound key ≤ lo ∨ hi ≤ bound key ∨ key ∈ separators bodies height block) := by
  induction hole generalizing height with
  | root level => exact ⟨.inl rfl, fun key => ⟨fun mem => mem, fun mem => .inr (.inr mem)⟩⟩
  | @child path level parent leftmost block lo hi start before after left right outside leftOwn
      rightOwn items front back outer held room cut prior later lt apart parent_apart outer_apart
      ih =>
    obtain ⟨lower, around⟩ := ih (height + 1)
    rw [show height + (parent :: path).length = height + 1 + path.length by
      rw [length_cons]; omega]
    have here : (start, block) ∈ segments lo leftmost items := by
      rw [cut]
      exact mem_append_right _ mem_cons_self
    have low := lo_le_of_cut cut prior
    refine ⟨?_, fun key => ⟨fun mem => ?_, fun mem => ?_⟩⟩
    · rcases mem_cons.mp here with same | later
      · rw [(Prod.mk.inj same).1]
        exact lower
      · obtain ⟨item, inside, same⟩ := mem_map.mp later
        refine .inr ⟨item.1, (around item.1).1 ?_, (Prod.mk.inj same).1.symm⟩
        exact (mem_separators held).mpr (.inl (mem_map_of_mem inside))
    · have among := (mem_segments lo).mpr ⟨_, here⟩
      exact (around key).1 ((mem_separators held).mpr (.inr ⟨block, among, mem⟩))
    · rcases (around key).2 mem with below | above | inside
      · exact .inl (below.trans low)
      · exact .inr (.inl (later.headOr_le.trans above))
      · rcases (mem_separators held).mp inside with own | ⟨child, among, deeper⟩
        · obtain ⟨item, mine, rfl⟩ := mem_map.mp own
          have part : (bound item.1, item.2) ∈ segments lo leftmost items :=
            mem_cons_of_mem _ (mem_map.mpr ⟨item, mine, rfl⟩)
          rw [cut] at part
          rcases mem_append.mp part with first | rest
          · exact .inl (prior.le_of_mem _ first).2.le
          · rcases mem_cons.mp rest with same | last
            · exact .inl (Prod.mk.inj same).1.le
            · exact .inr (.inl (later.le_of_mem _ last).1)
        · obtain ⟨place, part⟩ := (mem_segments lo).mp among
          rw [cut] at part
          rcases mem_append.mp part with first | rest
          · obtain ⟨top, _, _, ends, -, rep⟩ := prior.forall_mem _ first
            exact .inl ((rep.separators_within height key deeper).2.le.trans ends)
          · rcases mem_cons.mp rest with same | last
            · exact .inr (.inr ((Prod.mk.inj same).2 ▸ deeper))
            · obtain ⟨top, _, _, -, -, rep⟩ := later.forall_mem _ last
              exact .inr (.inl ((later.le_of_mem _ last).1.trans
                (rep.separators_within height key deeper).1))

end Separators

variable {kind : Kind} {root : Nat} {state : State K V} {bindings : List (K × V)}
  {blocks : List Nat} {effort fuel : Nat}

/-- A bound key at or below a key, with no separator between the two. -/
def Beside (bindings : List (K × V)) (separators : List K) (key : K) : Prop :=
  ∃ binding ∈ bindings, binding.1 ≤ key ∧ ∀ other ∈ separators, other ≤ key → other ≤ binding.1

/-- The leaf a descent ends in has a pair at or below the key exactly if there is one beside the
key. -/
theorem Landing.beside_iff {key : K} {found : Found K V} {leafBlock : Nat} {ancestors : List Nat}
    {lo hi : Bound K} {before after : List (Leaf K V)} {outside : Finset Nat}
    (landing : Landing kind root state key bindings blocks effort found leafBlock ancestors lo hi
      before after outside) (enough : effort < fuel) :
    (∃ item ∈ found.items, item.1 ≤ key) ↔
      Beside bindings (separators state.bodies fuel root) key := by
  have length := landing.effort
  obtain ⟨height, rfl⟩ : ∃ height, fuel = height + ancestors.length :=
    ⟨fuel - ancestors.length, by omega⟩
  obtain ⟨lower, around⟩ := landing.place.hole.separators height
  obtain ⟨below, above⟩ := landing.place.hole.around
  obtain ⟨-, within, -⟩ := landing.place.contents
  have leaf : separators state.bodies height leafBlock = [] := by
    obtain ⟨items, held, -⟩ := landing.place.leaf
    cases height with
    | zero => rfl
    | succ height => rw [separators, held]
  have all := landing.bindings
  rw [entries_append, entries_cons] at all
  constructor
  · rintro ⟨item, mem, under⟩
    refine ⟨item, all ▸ List.mem_append_right _ (List.mem_append_left _ mem), under, ?_⟩
    intro other separator beneath
    rcases (around other).2 separator with low | high | inside
    · exact bound_le_bound.mp (low.trans (within item mem).1)
    · exact absurd (landing.high.trans_le high) (not_lt.mpr (bound_le_bound.mpr beneath))
    · rw [leaf] at inside
      cases inside
  · rintro ⟨binding, mem, under, beside⟩
    rw [← all] at mem
    rcases List.mem_append.mp mem with left | rest
    · have before := below binding left
      rcases lower with bottom | ⟨separator, inside, same⟩
      · rw [bottom] at before
        exact absurd before not_lt_bot
      · rw [same] at before
        have low := landing.low
        rw [same] at low
        exact absurd (beside separator inside (bound_le_bound.mp low))
          (not_le.mpr (bound_lt_bound.mp before))
    · rcases List.mem_append.mp rest with here | right
      · exact ⟨binding, here, under⟩
      · have high := landing.high.trans_le (above binding right)
        exact absurd under (not_le.mpr (bound_lt_bound.mp high))

/-- What `lookup_floor` makes of the leaf its descent ends in. -/
theorem Represents.lookupFloor_iff {epoch : Nat} {handle : Handle K}
    (tree : Represents kind root state bindings blocks effort)
    (valid : handle.Valid root epoch blocks) (enough : effort < fuel) (key : K) :
    ∃ result, lookupFloor kind fuel key (state.through handle) =
        (some result, state.through handle) ∧
      (IsFloor bindings key result ↔ Beside bindings (separators state.bodies fuel root) key ∨
        ∀ other ∈ bindings, key < other.1) := by
  have through : Represents kind root (state.through handle) bindings blocks effort :=
    tree.of_eq rfl rfl le_rfl rfl rfl
  obtain ⟨found, leafBlock, ancestors, lo, hi, before, after, outside, ran, landing⟩ :=
    through.landing key enough
  have beside : _ ↔ Beside bindings (separators state.bodies fuel root) key :=
    landing.beside_iff enough
  refine ⟨floor key found.items, ?_, ?_⟩
  · unfold lookupFloor
    rw [bind_apply, Run.get]
    dsimp only
    rw [tree.viewRoot valid, bind_some ran]
    rfl
  · obtain ⟨below, above⟩ := landing.place.hole.around
    obtain ⟨-, each⟩ := landing.place.leaf.leaves_ordered
    obtain ⟨within, ordered⟩ := each _ (List.mem_singleton_self _)
    have all := landing.bindings
    rw [entries_append, entries_cons] at all
    rw [← beside]
    refine isFloor_floor_iff (fun item mem => ?_) ordered fun other mem under => ?_
    · rw [← all]
      exact List.mem_append_right _ (List.mem_append_left _ mem)
    · rw [← all] at mem
      rcases List.mem_append.mp mem with left | rest
      · refine .inr fun item here => bound_lt_bound.mp ?_
        exact (below other left).trans_le (within item here).1
      · rcases List.mem_append.mp rest with here | right
        · exact .inl here
        · have high := landing.high.trans_le (above other right)
          exact absurd under (not_le.mpr (bound_lt_bound.mp high))

/-- After any insertions and removals from an empty tree, a floor lookup through any handle returns
the greatest binding that is not above the key, or none if there is none, exactly when some bound
key at or below the key has no separator of the tree between itself and the key, or no key at or
below it is bound. -/
theorem lookup_floor_exact_iff (layout : Layout) (nodeType root : Nat)
    (leaf_room : 4 ≤ (layout.kind nodeType).maxLeafItems) (state : State K V)
    (no_barrier : state.cowBarrier = 0)
    (live : state.effectiveRoot (layout.kind nodeType) root = root) (root_ne : root ≠ 0)
    (injective : Function.Injective state.allocator)
    (apart : ∀ index, state.allocator index ≠ 0 ∧ state.allocator index ≠ root)
    (ops : List (Op K V)) (fuel : Nat) (enough : 2 * ops.length < fuel) :
    ∃ final, Run.each ops (Session.step (layout.kind nodeType) fuel)
        (Session.opened root (initEmpty root state).2) = (some ⟨⟩, final) ∧
      ∀ handle, handle = Handle.new K root ∨ (∃ index, handle = final.handles index) → ∀ key,
        ∃ result, lookupFloor (layout.kind nodeType) fuel key (final.state.through handle) =
            (some result, final.state.through handle) ∧
          (IsFloor (ops.foldl Op.bind []) key result ↔
            Beside (ops.foldl Op.bind []) (separators final.state.bodies fuel root) key ∨
              ∀ other ∈ ops.foldl Op.bind [], key < other.1) := by
  have tree := represents_empty leaf_room state no_barrier live root_ne injective apart
  obtain ⟨final, blocks, ran, last, valid⟩ := Session.run_opened leaf_room tree ops
    (show 0 + 2 * ops.length < fuel by omega)
  exact ⟨final, ran, fun handle which key =>
    last.lookupFloor_iff (valid handle which) (by omega) key⟩

/-- Four insertions, of which the last splits the leaf between one and two. -/
def fourKeys : List (Op Nat Nat) := [.insert 0 1 10, .insert 0 2 20, .insert 0 3 30, .insert 0 4 40]

/-- A lookup of key five after the four insertions gives the fourth. -/
theorem lookup_floor_four_keys :
    ∃ final result, Run.each fourKeys (Session.step (wideLayout.kind 5) 9)
        (Session.opened 1 (initEmpty 1 freshState).2) = (some ⟨⟩, final) ∧
      (lookupFloor (wideLayout.kind 5) 9 5 (final.state.through (Handle.new Nat 1))).1 =
        some result ∧ IsFloor (fourKeys.foldl Op.bind []) 5 result := by
  obtain ⟨final, ran, exact_iff⟩ := lookup_floor_exact_iff wideLayout 5 1 (by decide) freshState
    rfl rfl (by decide) (fun _ _ same => Nat.add_right_cancel same)
    (fun index => ⟨by simp [freshState], by simp [freshState]⟩) fourKeys 9 (by decide)
  have last : _ = final := congrArg Prod.snd ran
  have cuts : separators final.state.bodies 9 1 = [2] := by
    rw [← last]
    decide +kernel
  obtain ⟨result, looked, exact_iff⟩ := exact_iff (Handle.new Nat 1) (.inl rfl) 5
  refine ⟨final, result, ran, congrArg Prod.fst looked, exact_iff.mpr (.inl ?_)⟩
  rw [cuts]
  exact ⟨(4, 40), by decide⟩

/-- Once key two is removed its floor is one, in the leaf to the left; the lookup finds none. -/
theorem lookup_floor_misses_left :
    (lookupFloor (wideLayout.kind 5) 11 2 ((Run.each (fourKeys ++ [Op.remove 0 2])
      (Session.step (wideLayout.kind 5) 11)
        (Session.opened 1 (initEmpty 1 freshState).2)).2.state.through (Handle.new Nat 1))).1 =
      some none ∧
    ¬ IsFloor ((fourKeys ++ [Op.remove 0 2]).foldl Op.bind []) 2 none :=
  ⟨by decide +kernel, fun none_below => absurd (none_below (1, 10) (by decide)) (by decide)⟩

end LionFS.BTree
