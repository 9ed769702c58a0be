import LionFS.BTree.Tree
import LionFS.Data.Chain
import Mathlib.Order.WithBot

/-!
# What a tree represents

`Rep` reads a subtree out of the node blocks: its leaves in order, each with its
block and its pairs, and the set of blocks it takes up. The children of an
internal node form a chain whose bounds are the separators. Only payloads
matter: stamps, parent pointers and sibling pointers do not.

`Hole` is a tree with one subtree left out, along the path from the root. Filling
the hole gives a tree again, so a change below one node is checked there and
carried to the root by `Hole.fill`.
-/
namespace LionFS.BTree
open List
variable {K V : Type}

/-- A leaf of a tree: its block and its pairs. -/
abbrev Leaf (K V : Type) := Nat × List (K × V)

/-- The pairs of a list of leaves. -/
def entries (leaves : List (Leaf K V)) : List (K × V) := leaves.flatMap Prod.snd

@[simp] theorem entries_append (first second : List (Leaf K V)) :
    entries (first ++ second) = entries first ++ entries second :=
  flatMap_append

@[simp] theorem entries_cons (leaf : Leaf K V) (rest : List (Leaf K V)) :
    entries (leaf :: rest) = leaf.2 ++ entries rest :=
  flatMap_cons

@[simp] theorem entries_nil : entries ([] : List (Leaf K V)) = [] := rfl

/-- A place between keys: a key, or one of the two ends. -/
abbrev Bound (K : Type) := WithBot (WithTop K)

/-- The place of a key. -/
def bound (key : K) : Bound K := ((key : WithTop K) : WithBot (WithTop K))

variable [LinearOrder K]

@[simp] theorem bound_le_bound {first second : K} :
    bound first ≤ bound second ↔ first ≤ second := by
  simp [bound]

@[simp] theorem bound_lt_bound {first second : K} :
    bound first < bound second ↔ first < second := by
  simp [bound]

@[simp] theorem bound_lt_top (key : K) : bound key < ⊤ :=
  WithBot.coe_lt_coe.mpr (WithTop.coe_lt_top key)

@[simp] theorem bot_lt_bound (key : K) : ⊥ < bound key := WithBot.bot_lt_coe _

/-- The pairs of a leaf lie between two places. -/
def Within (lo hi : Bound K) (leaf : Leaf K V) : Prop :=
  ∀ item ∈ leaf.2, lo ≤ bound item.1 ∧ bound item.1 < hi

variable {lo hi : Bound K}

/-- Pairs stay between places further apart. -/
theorem Within.widen {lo' hi' : Bound K} {leaf : Leaf K V} (inside : Within lo' hi' leaf)
    (below : lo ≤ lo') (above : hi' ≤ hi) : Within lo hi leaf := fun item mem =>
  ⟨below.trans (inside item mem).1, (inside item mem).2.trans_le above⟩

/-- All pairs of the first leaf come before those of the second. -/
def Precedes (first second : Leaf K V) : Prop :=
  ∀ one ∈ first.2, ∀ other ∈ second.2, one.1 < other.1

/-- The children of an internal node with the places where they start. -/
def segments (lo : Bound K) (leftmost : Nat) (items : List (K × Nat)) : List (Bound K × Nat) :=
  (lo, leftmost) :: items.map fun item => (bound item.1, item.2)

section Representation
variable (bodies : Nat → Option (Body K V)) (kind : Kind)

/-- A subtree of a level, between two places, at a block: its leaves and its blocks. -/
def Rep : (level : Nat) → (lo hi : Bound K) → (block : Nat) → (leaves : List (Leaf K V)) →
    (own : Finset Nat) → Prop
  | 0, lo, hi, block, leaves, own => ∃ items, bodies block = some (.leaf items) ∧
      leaves = [(block, items)] ∧ own = {block} ∧ Assoc.Ordered items ∧
      Within lo hi (block, items) ∧ items.length ≤ kind.maxLeafItems - 1
  | level + 1, lo, hi, block, leaves, own => ∃ leftmost items below,
      bodies block = some (.internal level leftmost items) ∧ own = {block} ∪ below ∧
      block ∉ below ∧ items.length ≤ kind.maxInternalItems - 1 ∧
      Chain (Rep level) (segments lo leftmost items) hi leaves below

end Representation

variable {bodies bodies' : Nat → Option (Body K V)} {kind : Kind} {leaves : List (Leaf K V)}
  {own : Finset Nat} {level : Nat} {block : Nat}
section
variable (rep : Rep bodies kind level lo hi block leaves own)
include rep

theorem Rep.mem_own : block ∈ own := by
  cases level with
  | zero =>
    obtain ⟨items, -, -, rfl, -⟩ := rep
    exact Finset.mem_singleton_self block
  | succ level =>
    obtain ⟨leftmost, items, below, -, rfl, -⟩ := rep
    exact Finset.mem_union_left below (Finset.mem_singleton_self block)

/-- The node of a subtree can be read, and has the subtree's level. -/
theorem Rep.readable :
    ∃ body, bodies block = some body ∧ kind.admits body = true ∧ body.level = level := by
  cases level with
  | zero =>
    obtain ⟨items, held, -, -, -, -, room⟩ := rep
    refine ⟨_, held, ?_, rfl⟩
    simp only [Kind.admits, decide_eq_true_eq]
    omega
  | succ level =>
    obtain ⟨leftmost, items, below, held, -, -, room, -⟩ := rep
    refine ⟨_, held, ?_, rfl⟩
    simp only [Kind.admits, decide_eq_true_eq]
    omega

/-- A subtree depends on the payloads of its own blocks only. -/
theorem Rep.frame (same : ∀ other ∈ own, bodies' other = bodies other) :
    Rep bodies' kind level lo hi block leaves own := by
  induction level generalizing lo hi block leaves own with
  | zero =>
    obtain ⟨items, held, rfl, rfl, rest⟩ := rep
    exact ⟨items, (same block (Finset.mem_singleton_self block)).trans held, rfl, rfl, rest⟩
  | succ level ih =>
    obtain ⟨leftmost, items, below, held, rfl, apart, room, chain⟩ := rep
    refine ⟨leftmost, items, below, (same block (by simp)).trans held, rfl, apart, room, ?_⟩
    refine chain.imp fun lo top place here mine inside child => ih child fun other mem => ?_
    exact same other (Finset.mem_union_right _ (inside mem))

end

/-- The children of a node depend on the payloads of their own blocks only. -/
theorem chain_frame {parts : List (Bound K × Nat)}
    (chain : Chain (Rep bodies kind level) parts hi leaves own)
    (same : ∀ other ∈ own, bodies' other = bodies other) :
    Chain (Rep bodies' kind level) parts hi leaves own :=
  chain.imp fun _ _ _ _ _ inside child => child.frame fun other mem =>
    same other (inside mem)

section
variable (rep : Rep bodies kind level lo hi block leaves own)
include rep

/-- The leaves of a subtree lie between its places, one after the other, each in order. -/
theorem Rep.leaves_ordered :
    leaves.Pairwise Precedes ∧ ∀ leaf ∈ leaves, Within lo hi leaf ∧ Assoc.Ordered leaf.2 := by
  induction level generalizing lo hi block leaves own with
  | zero =>
    obtain ⟨items, -, rfl, -, ordered, inside, -⟩ := rep
    refine ⟨pairwise_singleton _ _, fun leaf mem => ?_⟩
    rw [mem_singleton] at mem
    subst mem
    exact ⟨inside, ordered⟩
  | succ level ih =>
    obtain ⟨leftmost, items, below, -, -, -, -, chain⟩ := rep
    constructor
    · refine chain.sorted Within Precedes
        (fun lo lo' top top' item low high inside => inside.widen low high) ?_ ?_
      · intro lo middle top first second one two a mem_a b mem_b
        exact bound_lt_bound.mp ((one a mem_a).2.trans_le (two b mem_b).1)
      · intro lo top place here mine child
        exact ⟨(ih child).1, fun item mem => ((ih child).2 item mem).1⟩
    · refine chain.bounded (fun lo hi leaf => Within lo hi leaf ∧ Assoc.Ordered leaf.2) ?_ ?_
      · intro lo lo' top top' item low high inside
        exact ⟨inside.1.widen low high, inside.2⟩
      · intro lo top place here mine child
        exact (ih child).2

/-- The pairs of a subtree are in key order. -/
theorem Rep.ordered : Assoc.Ordered (entries leaves) := by
  obtain ⟨separate, each⟩ := rep.leaves_ordered
  unfold Assoc.Ordered entries
  rw [pairwise_flatMap]
  exact ⟨fun leaf mem => (each leaf mem).2, separate⟩

theorem Rep.leaf_mem_own : ∀ leaf ∈ leaves, leaf.1 ∈ own := by
  induction level generalizing lo hi block leaves own with
  | zero =>
    obtain ⟨items, -, rfl, rfl, -⟩ := rep
    simp
  | succ level ih =>
    obtain ⟨leftmost, items, below, -, rfl, -, -, chain⟩ := rep
    intro leaf mem
    obtain ⟨_, _, _, _, _, here, _, leftOwn, mine, rightOwn, -, -, rfl, -, -, -, child, -, -,
      inside⟩ := chain.exists_of_mem mem
    simp [ih child leaf inside]

theorem Rep.leaves_ne_nil : leaves ≠ [] := by
  induction level generalizing lo hi block leaves own with
  | zero =>
    obtain ⟨items, -, rfl, -⟩ := rep
    exact cons_ne_nil _ _
  | succ level ih =>
    obtain ⟨leftmost, items, below, -, -, -, -, chain⟩ := rep
    obtain ⟨here, later, mine, others, rfl, -, -, -, first, -⟩ := chain.uncons
    exact append_ne_nil_of_left_ne_nil (ih first) later

end

theorem segments_eq_nil {parts : List (Bound K × Nat)}
    (chain : Chain (Rep bodies kind level) parts hi [] own) : parts = [] := by
  cases parts with
  | nil => rfl
  | cons part parts =>
    obtain ⟨here, later, mine, others, none_left, -, -, -, first, -⟩ := chain.uncons
    exact absurd (append_eq_nil_iff.mp none_left.symm).1 first.leaves_ne_nil

/-- A subtree may be moved to a block it does not use. -/
theorem Rep.moved {target : Nat} (rep : Rep bodies kind level lo hi block leaves own)
    (unused : target ∉ own) (copied : bodies' target = bodies block)
    (same : ∀ other ∈ own, other ≠ block → bodies' other = bodies other) :
    ∃ leaves', leaves'.map Prod.snd = leaves.map Prod.snd ∧
      Rep bodies' kind level lo hi target leaves' ({target} ∪ own.erase block) := by
  cases level with
  | zero =>
    obtain ⟨items, held, rfl, rfl, ordered, inside, room⟩ := rep
    exact ⟨[(target, items)], rfl, items, copied.trans held, rfl, by simp, ordered, inside, room⟩
  | succ level =>
    obtain ⟨leftmost, items, below, held, rfl, apart, room, chain⟩ := rep
    have keeps : ({block} ∪ below).erase block = below := by
      rw [← Finset.insert_eq, Finset.erase_insert apart]
    rw [keeps]
    refine ⟨leaves, rfl, leftmost, items, below, copied.trans held, rfl, ?_, room, ?_⟩
    · intro mem
      exact unused (Finset.mem_union_right _ mem)
    · refine chain_frame chain fun other mem => same other (Finset.mem_union_right _ mem) ?_
      rintro rfl
      exact apart mem

/-- A tree with one subtree left out: the path to it, the nearest ancestor first, its level,
block and places, the leaves before and after it, and the blocks outside it. -/
inductive Hole (bodies : Nat → Option (Body K V)) (kind : Kind) (root : Nat) :
    (path : List Nat) → (level block : Nat) → (lo hi : Bound K) →
    (before after : List (Leaf K V)) → (outside : Finset Nat) → Prop where
  | root (level : Nat) : Hole bodies kind root [] level root ⊥ ⊤ [] [] ∅
  | child {path : List Nat} {level parent leftmost block : Nat} {lo hi start : Bound K}
      {before after left right : List (Leaf K V)} {outside leftOwn rightOwn : Finset Nat}
      {items : List (K × Nat)} {front back : List (Bound K × Nat)}
      (outer : Hole bodies kind root path (level + 1) parent lo hi before after outside)
      (held : bodies parent = some (.internal level leftmost items))
      (room : items.length ≤ kind.maxInternalItems - 1)
      (cut : segments lo leftmost items = front ++ (start, block) :: back)
      (prior : Chain (Rep bodies kind level) front start left leftOwn)
      (later : Chain (Rep bodies kind level) back hi right rightOwn)
      (increasing : start < headOr hi back) (apart : Disjoint leftOwn rightOwn)
      (parent_apart : parent ∉ leftOwn ∪ rightOwn)
      (outer_apart : Disjoint ({parent} ∪ (leftOwn ∪ rightOwn)) outside) :
      Hole bodies kind root (parent :: path) level block start (headOr hi back) (before ++ left)
        (right ++ after) ({parent} ∪ (leftOwn ∪ rightOwn) ∪ outside)

variable {before after : List (Leaf K V)} {path : List Nat} {outside : Finset Nat} {root : Nat}

theorem Hole.frame (hole : Hole bodies kind root path level block lo hi before after outside)
    (same : ∀ other ∈ outside, bodies' other = bodies other) :
    Hole bodies' kind root path level block lo hi before after outside := by
  induction hole with
  | root level => exact .root level
  | child outer held room cut prior later lt apart parent_apart outer_apart ih =>
    refine .child (ih fun other mem => same other (Finset.mem_union_right _ mem)) ?_ room cut
      (chain_frame prior fun other mem => same other ?_)
      (chain_frame later fun other mem => same other ?_) lt apart parent_apart
      outer_apart
    · rw [same _ (by simp), held]
    · simp [mem]
    · simp [mem]

variable {front back : List (Bound K × Nat)} {items : List (K × Nat)} {leftmost : Nat}
  {start : Bound K}
section
variable {parent : Nat} {left right : List (Leaf K V)} {leftOwn mine rightOwn : Finset Nat}
  (held : bodies parent = some (.internal level leftmost items))
  (room : items.length ≤ kind.maxInternalItems - 1)
  (cut : segments lo leftmost items = front ++ (start, block) :: back)
  (prior : Chain (Rep bodies kind level) front start left leftOwn)
  (later : Chain (Rep bodies kind level) back hi right rightOwn) (lt : start < headOr hi back)
  (apart : Disjoint leftOwn (mine ∪ rightOwn)) (apart_right : Disjoint mine rightOwn)
  (fresh : parent ∉ leftOwn ∪ (mine ∪ rightOwn))
include held room cut prior later lt apart apart_right fresh

/-- An internal node over children put together again. -/
theorem Rep.node {here : List (Leaf K V)}
    (child : Rep bodies kind level start (headOr hi back) block here mine) :
    Rep bodies kind (level + 1) lo hi parent (left ++ (here ++ right))
      ({parent} ∪ (leftOwn ∪ (mine ∪ rightOwn))) := by
  refine ⟨leftmost, items, leftOwn ∪ (mine ∪ rightOwn), held, rfl, fresh, room, ?_⟩
  rw [cut]
  exact prior.append (.cons start block back hi here right mine rightOwn child lt
    apart_right later) apart

/-- One step down from a subtree to one of its children: the hole of the child. -/
theorem Hole.descend
    (outer : Hole bodies kind root path (level + 1) parent lo hi before after outside)
    (outer_apart : Disjoint ({parent} ∪ (leftOwn ∪ (mine ∪ rightOwn))) outside) :
    ∃ outside', Hole bodies kind root (parent :: path) level block start (headOr hi back)
        (before ++ left) (right ++ after) outside' ∧ Disjoint mine outside' ∧
      mine ∪ outside' = {parent} ∪ (leftOwn ∪ (mine ∪ rightOwn)) ∪ outside := by
  simp only [Finset.disjoint_union_right, Finset.disjoint_union_left,
    Finset.disjoint_singleton_left, Finset.mem_union, not_or] at apart outer_apart fresh
  refine ⟨_, .child outer held room cut prior later lt apart.2 ?_ ?_, ?_, ?_⟩
  · simp [fresh]
  · simp only [Finset.disjoint_union_left, Finset.disjoint_singleton_left]
    exact ⟨outer_apart.1, outer_apart.2.1, outer_apart.2.2.2⟩
  · simp only [Finset.disjoint_union_right, Finset.disjoint_singleton_right]
    exact ⟨⟨fresh.2.1, apart.1.symm, apart_right⟩, outer_apart.2.2.1⟩
  · ext other
    simp only [Finset.mem_union, Finset.mem_singleton]
    grind

end

section
variable (hole : Hole bodies kind root path level block lo hi before after outside)
include hole

theorem Hole.fill {here : List (Leaf K V)} (rep : Rep bodies kind level lo hi block here own)
    (apart : Disjoint own outside) :
    Rep bodies kind (level + path.length) ⊥ ⊤ root (before ++ (here ++ after)) (own ∪ outside) := by
  induction hole generalizing here own with
  | root level => simpa using rep
  | @child path level parent leftmost block lo hi start before after left right outside leftOwn
      rightOwn items front back outer held room cut prior later lt separate parent_apart
      outer_apart ih =>
    simp only [Finset.disjoint_union_right, Finset.disjoint_union_left,
      Finset.disjoint_singleton_right, Finset.disjoint_singleton_left, Finset.mem_union,
      not_or] at apart outer_apart parent_apart
    have whole := Rep.node held room cut prior later lt
      (Finset.disjoint_union_right.mpr ⟨apart.1.2.1.symm, separate⟩) apart.1.2.2
      (by simp [apart.1.1, parent_apart]) rep
    have filled := ih whole (by
      simp only [Finset.disjoint_union_left, Finset.disjoint_singleton_left]
      exact ⟨outer_apart.1, outer_apart.2.1, apart.2, outer_apart.2.2⟩)
    have blocks : {parent} ∪ (leftOwn ∪ (own ∪ rightOwn)) ∪ outside =
        own ∪ ({parent} ∪ (leftOwn ∪ rightOwn) ∪ outside) := by
      ext other
      simp only [Finset.mem_union, Finset.mem_singleton]
      grind
    have height : level + 1 + path.length = level + (parent :: path).length := by
      simp only [length_cons]
      omega
    rw [blocks, height] at filled
    simpa only [append_assoc] using filled

theorem Hole.leaf_mem_outside : ∀ leaf ∈ after, leaf.1 ∈ outside := by
  induction hole with
  | root level => simp
  | child outer held room cut prior later lt apart parent_apart outer_apart ih =>
    intro leaf mem
    rcases mem_append.mp mem with first | second
    · obtain ⟨_, _, _, _, _, here, _, leftOwn, mine, rightOwn, -, -, rfl, -, -, -, child, -, -,
        inside⟩ := later.exists_of_mem first
      simp [child.leaf_mem_own leaf inside]
    · simp [ih leaf second]

/-- A hole with no leaves after it reaches up to the end. -/
theorem Hole.hi_eq_top (last : after = []) : hi = ⊤ := by
  induction hole with
  | root level => rfl
  | child outer held room cut prior later lt apart parent_apart outer_apart ih =>
    obtain ⟨rfl, rfl⟩ := append_eq_nil_iff.mp last
    have none_back := segments_eq_nil later
    subst none_back
    exact ih rfl

end

/-- A leaf in its place in the tree. -/
structure LeafAt (bodies : Nat → Option (Body K V)) (kind : Kind) (root : Nat) (path : List Nat)
    (block : Nat) (items : List (K × V)) (lo hi : Bound K) (before after : List (Leaf K V))
    (outside : Finset Nat) : Prop where
  hole : Hole bodies kind root path 0 block lo hi before after outside
  leaf : Rep bodies kind 0 lo hi block [(block, items)] {block}
  /-- Its block is not used elsewhere in the tree. -/
  apart : block ∉ outside

/-- The pairs of a leaf in its place are ordered, in bounds, and not too many. -/
theorem LeafAt.contents {items : List (K × V)}
    (place : LeafAt bodies kind root path block items lo hi before after outside) :
    Assoc.Ordered items ∧ Within lo hi (block, items) ∧ items.length ≤ kind.maxLeafItems - 1 := by
  obtain ⟨stored, -, only, -, rest⟩ := place.leaf
  obtain rfl : items = stored := by simpa using only
  exact rest

/-- Every leaf of a tree has its place in it. -/
theorem Rep.leafAt_of_mem (rep : Rep bodies kind level lo hi block leaves own)
    (hole : Hole bodies kind root path level block lo hi before after outside)
    (apart : Disjoint own outside) {leaf : Leaf K V} (mem : leaf ∈ leaves) :
    ∃ path' lo' hi' before' after' outside',
      LeafAt bodies kind root path' leaf.1 leaf.2 lo' hi' before' after' outside' ∧
      before' ++ (leaf :: after') = before ++ (leaves ++ after) ∧
      {leaf.1} ∪ outside' = own ∪ outside ∧ path'.length = path.length + level := by
  induction level generalizing path block lo hi before leaves after own outside with
  | zero =>
    obtain ⟨items, held, rfl, rfl, rest⟩ := rep
    rw [mem_singleton] at mem
    subst mem
    exact ⟨path, lo, hi, before, after, outside,
      ⟨hole, ⟨items, held, rfl, rfl, rest⟩, Finset.disjoint_singleton_left.mp apart⟩, rfl, rfl, rfl⟩
  | succ level ih =>
    obtain ⟨leftmost, items, below, held, rfl, fresh, room, chain⟩ := rep
    obtain ⟨front, start, child, back, left, here, right, leftOwn, mine, rightOwn, cut, rfl, rfl,
      separate, separate_right, prior, related, lt, later, inside⟩ :=
      chain.exists_of_mem mem
    obtain ⟨outside', lower, lower_apart, blocks⟩ := hole.descend held room cut prior later
      lt separate separate_right fresh apart
    obtain ⟨path', lo', hi', before', after', outer, place, order, blocks', height⟩ :=
      ih related lower lower_apart inside
    refine ⟨path', lo', hi', before', after', outer, place, ?_, blocks'.trans blocks, ?_⟩
    · simpa only [append_assoc] using order
    · simp only [length_cons] at height
      omega

/-- The child for a key is the one whose places are around the key. -/
theorem childFor_segment (key : K) (leftmost : Nat) (items : List (K × Nat))
    (above : lo ≤ bound key) (below : bound key < hi) :
    ∃ front start back,
      segments lo leftmost items = front ++ (start, childFor key leftmost items) :: back ∧
      start ≤ bound key ∧ bound key < headOr hi back := by
  induction items generalizing lo leftmost with
  | nil => exact ⟨[], lo, [], rfl, above, below⟩
  | cons item rest ih =>
    by_cases right : item.1 ≤ key
    · obtain ⟨front, start, back, cut, low, high⟩ := ih item.2 (bound_le_bound.mpr right)
      refine ⟨(lo, leftmost) :: front, start, back, ?_, low, high⟩
      simp only [childFor, right, ↓reduceIte, cons_append, ← cut]
      rfl
    · refine ⟨[], lo, segments (bound item.1) item.2 rest, ?_, above, ?_⟩
      · simp only [childFor, right, ↓reduceIte, nil_append]
        rfl
      · exact bound_lt_bound.mpr (not_le.mp right)

/-- A new separator goes right after the child that was split. -/
theorem segments_insertSeparator {key : K} {left right : Nat}
    (cut : segments lo leftmost items = front ++ (start, left) :: back)
    (ascending : (segments lo leftmost items).Pairwise fun first second => first.1 < second.1)
    (above : start < bound key) (below : bound key < headOr hi back) :
    segments lo leftmost (insertSeparator key right items) =
      front ++ (start, left) :: (bound key, right) :: back := by
  induction items generalizing lo leftmost front with
  | nil =>
    cases front with
    | nil =>
      simp only [segments, map_nil, nil_append, cons.injEq] at cut
      obtain ⟨first, rfl⟩ := cut
      simp [segments, insertSeparator, first]
    | cons first front => simp [segments] at cut
  | cons item rest ih =>
    cases front with
    | nil =>
      simp only [segments, map_cons, nil_append, cons.injEq] at cut
      obtain ⟨first, rfl⟩ := cut
      have before : key < item.1 := bound_lt_bound.mp below
      simp [segments, insertSeparator, before, first]
    | cons first front =>
      simp only [cons_append] at cut
      obtain ⟨head, tail⟩ := cons.inj cut
      have rest_cut : segments (bound item.1) item.2 rest = front ++ (start, left) :: back := tail
      have rest_ascending := (pairwise_cons.mp ascending).2
      have not_after : ¬key < item.1 := by
        have low : bound item.1 ≤ start := by
          cases front with
          | nil =>
            simp only [segments, nil_append, cons.injEq, Prod.mk.injEq] at rest_cut
            exact rest_cut.1.1.le
          | cons second others =>
            have order := pairwise_cons.mp rest_ascending
            refine (order.1 (start, left) ?_).le
            simp only [segments, cons_append, cons.injEq] at rest_cut
            rw [rest_cut.2]
            simp
        exact (bound_lt_bound.mp (low.trans_lt above)).not_gt
      rw [insertSeparator, if_neg not_after]
      have inserted := ih rest_cut rest_ascending
      simp only [cons_append, ← inserted, ← head]
      rfl

end LionFS.BTree
