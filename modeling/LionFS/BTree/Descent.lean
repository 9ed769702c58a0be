import LionFS.BTree.Represent

/-!
# Reading a represented tree

On a tree that represents a list of leaves, `lookup` finds what the list of pairs
binds, `iter_all` returns the pairs, and the descent of a mutation ends in the
leaf whose places are around the key, with the path that leads to it. None of
them changes the state, and the fuel they need is the height of the tree.
-/
namespace LionFS.BTree
open Run List Assoc
variable {K V : Type}

/-- The payloads of the node blocks. -/
def State.bodies (state : State K V) (block : Nat) : Option (Body K V) :=
  (state.nodes block).map Node.body

variable {state : State K V} {block : Nat}

theorem readNode_eq {kind : Kind} {body : Body K V} (held : state.bodies block = some body)
    (fits : kind.admits body = true) :
    ∃ node, node.body = body ∧ readNode kind block state = (some node, state) := by
  unfold State.bodies at held
  obtain ⟨node, stored, rfl⟩ := Option.map_eq_some_iff.mp held
  refine ⟨node, rfl, ?_⟩
  simp only [readNode, stored, fits, ↓reduceIte]

variable [LinearOrder K] {bodies : Nat → Option (Body K V)} {kind : Kind} {leaves : List (Leaf K V)}
  {own : Finset Nat} {level : Nat}

theorem Rep.read {lo hi : Bound K} (rep : Rep state.bodies kind level lo hi block leaves own) :
    ∀ body, state.bodies block = some body →
      ∃ node, node.body = body ∧ readNode kind block state = (some node, state) := by
  intro body held
  obtain ⟨own_body, own_held, fits, -⟩ := rep.readable
  rw [held, Option.some_inj] at own_held
  exact readNode_eq held (own_held ▸ fits)

/-- The pairs below a run of children lie between the places of the run. -/
theorem chain_within {parts : List (Bound K × Nat)} {hi : Bound K}
    (chain : Chain (Rep bodies kind level) parts hi leaves own) :
    ∀ item ∈ entries leaves, headOr hi parts ≤ bound item.1 ∧ bound item.1 < hi := by
  intro item mem
  obtain ⟨leaf, leaf_mem, inside⟩ := mem_flatMap.mp mem
  have bounded := chain.bounded Within (fun _ _ _ _ _ low high within => within.widen low high)
    (fun _ _ _ _ _ child leaf leaf_mem => (child.leaves_ordered.2 leaf leaf_mem).1)
  exact bounded leaf leaf_mem item inside

variable {key : K} {lo hi : Bound K} {fuel : Nat}

/-- `lookup` descends as a mutation does. -/
theorem lookupFrom_eq {found : Found K V} {path : List Nat} {rightmost : Bool} {next : State K V}
    (ran : findLeaf kind key fuel block path rightmost state = (some found, next)) :
    lookupFrom kind key fuel block state = (some (find key found.items), next) := by
  induction fuel generalizing block path rightmost state with
  | zero => cases ran
  | succ fuel ih =>
    rw [findLeaf, bind_apply] at ran
    rw [lookupFrom, bind_apply]
    split at ran
    · next node middle _ =>
      cases body : node.body with
      | leaf items =>
        rw [body] at ran
        cases ran
        rfl
      | internal level leftmost items =>
        rw [body] at ran
        exact ih ran
    · cases ran

/-- `collect_pairs` over the children right of the leftmost one. -/
theorem collectPairs_fold
    (each : ∀ lo top block leaves own, Rep state.bodies kind level lo top block leaves own →
      collectPairs kind fuel block state = (some (entries leaves), state))
    (items : List (K × Nat)) (out : List (K × V)) (chain : Chain (Rep state.bodies kind level)
      (items.map fun item => (bound item.1, item.2)) hi leaves own) :
    (items.foldlM (fun out item => do
      let more ← collectPairs kind fuel item.2
      pure (out ++ more)) out : Run (State K V) (List (K × V))) state =
      (some (out ++ entries leaves), state) := by
  induction items generalizing out leaves own with
  | nil =>
    cases chain
    simp [entries]
  | cons item rest ih =>
    obtain ⟨here, later, mine, others, rfl, -, -, -, child, tail⟩ := chain.uncons
    rw [foldlM_cons, bind_apply, bind_some (each _ _ _ _ _ child)]
    simp only [Run.pure_apply]
    rw [ih (out ++ entries here) tail, entries_append, append_assoc]

/-- `collect_pairs` returns the pairs below a block, in key order. -/
theorem collectPairs_eq (rep : Rep state.bodies kind level lo hi block leaves own)
    (enough : level < fuel) :
    collectPairs kind fuel block state = (some (entries leaves), state) := by
  induction level generalizing lo hi block leaves own fuel with
  | zero =>
    obtain ⟨fuel, rfl⟩ := Nat.exists_eq_add_of_lt enough
    have reads := rep.read
    obtain ⟨items, held, rfl, -⟩ := rep
    obtain ⟨node, node_body, read⟩ := reads _ held
    rw [collectPairs, bind_some read, node_body]
    simp
  | succ level ih =>
    obtain ⟨fuel, rfl⟩ : ∃ more, fuel = more + 1 := ⟨fuel - 1, by omega⟩
    have reads := rep.read
    obtain ⟨leftmost, items, below, held, rfl, -, -, chain⟩ := rep
    obtain ⟨node, node_body, read⟩ := reads _ held
    obtain ⟨here, later, mine, others, rfl, -, -, -, child, tail⟩ := chain.uncons
    have each : ∀ lo top block leaves own, Rep state.bodies kind level lo top block leaves own →
        collectPairs kind fuel block state = (some (entries leaves), state) :=
      fun lo top block leaves own child => ih child (by omega)
    rw [collectPairs, bind_some read, node_body]
    dsimp only
    rw [bind_some (each _ _ _ _ _ child), collectPairs_fold each items _ tail, entries_append]

/-- A key past the last separator lies right of all children but the one for it. -/
theorem back_eq_nil {start : Bound K} {leftmost : Nat} {items : List (K × Nat)}
    {front back : List (Bound K × Nat)}
    (cut : segments lo leftmost items = front ++ (start, block) :: back)
    (ascending : (segments lo leftmost items).Pairwise fun first second => first.1 < second.1)
    (below : bound key < headOr hi back) (past : pastLast key items = true) : back = [] := by
  cases back with
  | nil => rfl
  | cons next others =>
    rw [cut] at ascending
    have order := (pairwise_append.mp ascending).2.1
    have from_next := (pairwise_cons.mp (pairwise_cons.mp order).2).1
    obtain ⟨last, last_eq⟩ : ∃ last, (next :: others).getLast? = some last :=
      ⟨_, getLast?_eq_some_getLast (cons_ne_nil _ _)⟩
    have above : next.1 ≤ last.1 := by
      rcases mem_cons.mp (mem_of_getLast? last_eq) with rfl | mem
      · exact le_rfl
      · exact (from_next last mem).le
    have same : (segments lo leftmost items).getLast? = some last := by
      rw [cut, getLast?_append, getLast?_cons_cons, last_eq, Option.some_or]
    cases found : items.getLast? with
    | none =>
      rw [getLast?_eq_none_iff] at found
      subst found
      have short := congrArg length cut
      simp [segments] at short
      omega
    | some item =>
      have is_last : (bound item.1, item.2) = last := by
        rw [segments, getLast?_cons, getLast?_map, found] at same
        simpa using same
      rw [pastLast, found, Bool.not_eq_true', decide_eq_false_iff_not] at past
      refine absurd (bound_lt_bound.mp ?_) past
      rw [← is_last] at above
      exact below.trans_le above

variable {path : List Nat} {root : Nat}

/-- The descent of a mutation ends in the leaf for the key. -/
theorem findLeaf_eq {before after : List (Leaf K V)} {outside : Finset Nat}
    (rep : Rep state.bodies kind level lo hi block leaves own)
    (hole : Hole state.bodies kind root path level block lo hi before after outside)
    (apart : Disjoint own outside) (low : lo ≤ bound key) (high : bound key < hi)
    (enough : level < fuel) {rightmost : Bool} (last : rightmost = true → after = []) :
    ∃ found leafBlock ancestors lo' hi' before' after' outside',
      findLeaf kind key fuel block path rightmost state = (some found, state) ∧
      found.path = leafBlock :: ancestors ∧ found.node.body = .leaf found.items ∧
      LeafAt state.bodies kind root ancestors leafBlock found.items lo' hi' before' after'
        outside' ∧
      lo' ≤ bound key ∧ bound key < hi' ∧ (found.rightmost = true → after' = []) ∧
      before' ++ ((leafBlock, found.items) :: after') = before ++ (leaves ++ after) ∧
      {leafBlock} ∪ outside' = own ∪ outside ∧ ancestors.length = path.length + level := by
  induction level generalizing path lo hi block before leaves after own outside fuel rightmost with
  | zero =>
    obtain ⟨fuel, rfl⟩ := Nat.exists_eq_add_of_lt enough
    have reads := rep.read
    obtain ⟨items, leaf_held, rfl, rfl, rest⟩ := rep
    obtain ⟨node, node_body, read⟩ := reads _ leaf_held
    refine ⟨⟨node, items, block :: path, rightmost⟩, block, path, lo, hi, before, after, outside,
      ?_, rfl, node_body, ⟨hole, ⟨items, leaf_held, rfl, rfl, rest⟩,
        Finset.disjoint_singleton_left.mp apart⟩, low, high, last, rfl, rfl, rfl⟩
    rw [findLeaf, bind_some read, node_body]
    rfl
  | succ level ih =>
    obtain ⟨fuel, rfl⟩ : ∃ more, fuel = more + 1 := ⟨fuel - 1, by omega⟩
    have reads := rep.read
    obtain ⟨leftmost, items, below, node_held, rfl, fresh, room, chain⟩ := rep
    obtain ⟨node, node_body, read⟩ := reads _ node_held
    have ascending := chain.ascending
    -- The children cut at the child for the key.
    obtain ⟨front, start, back, cut, above, beneath⟩ :=
      childFor_segment key leftmost items low high
    rw [cut] at chain
    obtain ⟨left, rest, leftOwn, restOwn, rfl, rfl, separate, prior, remaining⟩ := chain.split
    obtain ⟨here, right, mine, rightOwn, rfl, rfl, separate_right, lt, child, later⟩ :=
      remaining.uncons
    obtain ⟨outside', lower, lower_apart, blocks⟩ := hole.descend node_held room cut prior later
      lt separate separate_right fresh apart
    have lower_last : (rightmost && pastLast key items) = true → right ++ after = [] := by
      intro both
      rw [Bool.and_eq_true] at both
      have none_back := back_eq_nil cut ascending beneath both.2
      subst none_back
      cases later
      exact last both.1
    obtain ⟨found, leafBlock, ancestors, lo', hi', before', after', outer, ran, path_eq, body_eq,
      place, low', high', last', order, blocks', height⟩ :=
      ih child lower lower_apart above beneath (show level < fuel by omega) lower_last
    refine ⟨found, leafBlock, ancestors, lo', hi', before', after', outer, ?_, path_eq, body_eq,
      place, low', high', last', ?_, blocks'.trans blocks, ?_⟩
    · rw [findLeaf, bind_some read, node_body]
      exact ran
    · simpa only [append_assoc] using order
    · simp only [length_cons] at height
      omega

variable {before after : List (Leaf K V)} {outside : Finset Nat}

/-- A child starts at or above the place where its parent starts. -/
theorem lo_le_of_cut {leftmost child : Nat} {items : List (K × Nat)} {start : Bound K}
    {front back : List (Bound K × Nat)} {left : List (Leaf K V)} {leftOwn : Finset Nat}
    (cut : segments lo leftmost items = front ++ (start, child) :: back)
    (prior : Chain (Rep bodies kind level) front start left leftOwn) : lo ≤ start := by
  cases front with
  | nil =>
    simp only [segments, nil_append, cons.injEq, Prod.mk.injEq] at cut
    exact cut.1.1.le
  | cons first front =>
    simp only [segments, cons_append, cons.injEq] at cut
    have below := prior.headOr_le
    rw [← cut.1] at below
    exact below

/-- The pairs before a hole lie below it, those after it lie above it. -/
theorem Hole.around (hole : Hole bodies kind root path level block lo hi before after outside) :
    (∀ item ∈ entries before, bound item.1 < lo) ∧ ∀ item ∈ entries after, hi ≤ bound item.1 := by
  induction hole with
  | root level => simp [entries]
  | @child _ _ _ _ _ lo hi start _ _ _ _ _ _ _ _ front _ outer held room cut prior later lt
      apart parent_apart outer_apart ih =>
    have low := lo_le_of_cut cut prior
    constructor
    · intro item mem
      rw [entries_append, mem_append] at mem
      rcases mem with first | second
      · exact (ih.1 item first).trans_le low
      · exact (chain_within prior item second).2
    · intro item mem
      rw [entries_append, mem_append] at mem
      rcases mem with first | second
      · exact (chain_within later item first).1
      · exact later.headOr_le.trans (ih.2 item second)

theorem LeafAt.find_entries {items items' : List (K × V)}
    (place : LeafAt bodies kind root path block items lo hi before after outside)
    (low : lo ≤ bound key) (high : bound key < hi) :
    find key (entries (before ++ (block, items') :: after)) = find key items' := by
  obtain ⟨below, above⟩ := place.hole.around
  have not_before : find key (entries before) = none := by
    rw [find_eq_none]
    rintro item mem rfl
    exact absurd ((below item mem).trans_le low) (lt_irrefl _)
  have not_after : find key (entries after) = none := by
    rw [find_eq_none]
    rintro item mem rfl
    exact absurd (high.trans_le (above item mem)) (lt_irrefl _)
  rw [entries_append, entries_cons, find_append, find_append, not_before, not_after]
  simp

/-- The leaf's pairs decide the tree's: what changes for one key in the leaf changes for this
key in the tree. -/
theorem LeafAt.find_put {items items' : List (K × V)} {result : Option V}
    (place : LeafAt bodies kind root path block items lo hi before after outside)
    (low : lo ≤ bound key) (high : bound key < hi) (changed : ∀ other, find other items' =
      if other = key then result else find other items) (other : K) :
    find other (entries (before ++ (block, items') :: after)) =
      if other = key then result
      else find other (entries (before ++ (block, items) :: after)) := by
  by_cases same : other = key
  · subst same
    rw [place.find_entries low high, changed]
    simp
  · simp only [entries_append, entries_cons, find_append, changed, same, ↓reduceIte]

end LionFS.BTree
