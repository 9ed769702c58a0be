import LionFS.Cluster.Engine.Namespace
import LionFS.Data.Table
import Mathlib.Data.Finset.Card

/-!
# Merging heads

Two heads of a file are merged into the later one of them, or into a new version
with both as its parents if neither is later. Which one is later is decided by
the vector clocks, and by a walk along the parents only where the clocks are
concurrent. Versions of one writer have comparable clocks even if neither was
made from the other: then one of them is dropped, and with equal clocks it is the
one that comes first in the call.
-/
namespace LionFS.Cluster.Crdt
open List
section Clocks
open Assoc

/-- `VectorClock`: counters in the order of the node ids, machine words in the source. -/
structure VectorClock where
  counters : List (Nat × Nat)
  ordered : Ordered counters

namespace VectorClock
variable (clock : VectorClock)

/-- The counter of a node, zero if there is none. -/
def count (node : Nat) : Nat := (find node clock.counters).getD 0

/-- Set the counter of a node. -/
def set (node value : Nat) : VectorClock where
  counters := insert node value clock.counters
  ordered := clock.ordered.insert node value

/-- `VectorClock::increment`; the addition wraps around. -/
def increment (node : Nat) : VectorClock :=
  clock.set node ((clock.count node + 1) % UInt64.size)

/-- `VectorClock::merge`. -/
def merge (clock other : VectorClock) : VectorClock :=
  other.counters.foldl
    (fun merged entry => merged.set entry.1 (max (merged.count entry.1) entry.2)) clock

/-- `VectorClock::happens_before_or_equal`. -/
def happensBeforeOrEqual (clock other : VectorClock) : Bool :=
  clock.counters.all fun entry =>
    match find entry.1 other.counters with
    | none => decide (entry.2 = 0)
    | some count => decide (entry.2 ≤ count)

/-- `VectorClock::total`; the sum wraps around. -/
def total : Nat := (clock.counters.map Prod.snd).sum % UInt64.size

/-- A merged counter is the larger of both. -/
theorem find_merge (clock other : VectorClock) (node : Nat) :
    find node (clock.merge other).counters =
      match find node other.counters with
      | none => find node clock.counters
      | some value => some (max (clock.count node) value) := by
  have keys := other.ordered.nodup
  unfold merge
  generalize other.counters = entries at keys
  induction entries generalizing clock with
  | nil => rfl
  | cons entry rest ih =>
    rw [map_cons, nodup_cons] at keys
    rw [foldl_cons, ih _ keys.2]
    by_cases here : entry.1 = node
    · have later : find node rest = none :=
        find_eq_none.mpr fun binding mem same =>
          keys.1 (here.trans same.symm ▸ mem_map_of_mem mem)
      simp only [later, find, here, if_true, set, find_insert]
    · have apart : ¬ node = entry.1 := fun same => here same.symm
      simp only [find, here, if_false, count, set, find_insert, apart]

theorem merge_comm (clock other : VectorClock) : clock.merge other = other.merge clock := by
  have same : (clock.merge other).counters = (other.merge clock).counters := by
    refine (clock.merge other).ordered.ext (other.merge clock).ordered fun node => ?_
    rw [find_merge, find_merge, count, count]
    cases find node clock.counters <;> cases find node other.counters <;> simp [Nat.max_comm]
  revert same
  cases clock.merge other
  cases other.merge clock
  rintro rfl
  rfl

theorem happensBeforeOrEqual_iff {clock other : VectorClock} :
    clock.happensBeforeOrEqual other = true ↔ ∀ node, clock.count node ≤ other.count node := by
  unfold happensBeforeOrEqual count
  rw [all_eq_true]
  constructor
  · intro below node
    cases found : find node clock.counters with
    | none => exact Nat.zero_le _
    | some value =>
      have here := below (node, value) (mem_of_find found)
      revert here
      cases find node other.counters <;> simp
  · intro below entry mem
    have here := below entry.1
    rw [find_of_mem clock.ordered.nodup mem] at here
    revert here
    cases find entry.1 other.counters <;> simp

/-- The clock that a merge at a node makes is strictly above the first of both, if the counter of
the node does not wrap around. -/
theorem below_merged {clock other : VectorClock} {node : Nat}
    (room : clock.count node + 1 < UInt64.size) (space : other.count node + 1 < UInt64.size) :
    clock.happensBeforeOrEqual ((clock.merge other).increment node) = true ∧
      ((clock.merge other).increment node).happensBeforeOrEqual clock = false := by
  have counted : ∀ key,
      (clock.merge other).count key = max (clock.count key) (other.count key) := by
    intro key
    rw [count.eq_1 (clock.merge other), find_merge, count.eq_1 other]
    cases find key other.counters <;> simp [count]
  have merged : ∀ key, clock.count key ≤ (clock.merge other).count key :=
    fun key => counted key ▸ Nat.le_max_left _ _
  have counts : ∀ key, ((clock.merge other).increment node).count key =
      (clock.merge other).count key + if key = node then 1 else 0 := by
    intro key
    rw [increment, set, count, find_insert]
    split_ifs with here
    · rw [here, Option.getD_some, counted, Nat.mod_eq_of_lt (by omega)]
    · rfl
  rw [Bool.eq_false_iff, Ne, happensBeforeOrEqual_iff, happensBeforeOrEqual_iff]
  constructor
  · intro key
    rw [counts]
    exact (merged key).trans (Nat.le_add_right _ _)
  · intro below
    have here := below node
    rw [counts, if_pos rfl] at here
    exact absurd (merged node) (by omega)

end VectorClock
end Clocks

open Table

/-- `FileMetadata`. -/
structure FileMetadata where
  owner : Nat
  group : Nat
  permissions : Nat
  xattrs : List (String × List UInt8)

variable (Hash : Type)

/-- `VersionNodeBody`: what the hash of a version is taken of. -/
structure VersionNodeBody where
  contentHash : Hash
  parents : List Hash
  vclock : VectorClock
  /-- `timestamp_ns`. -/
  timestamp : Nat
  kind : NodeKind
  /-- `meta`. -/
  metadata : FileMetadata

/-- `VersionNode`. -/
structure VersionNode extends VersionNodeBody Hash where
  selfHash : Hash

/-- `CrdtError`. -/
inductive CrdtError where
  | missingNode (hash : Hash)
  | directoryConflict

/-- `MergePolicy`. -/
inductive MergePolicy where
  | lastWriterWins
  | manual
  | chunkMerge

/-- `Ancestry`. -/
inductive Ancestry where
  | aFirst
  | bFirst
  | concurrent

/-- `MergeOutcome`. -/
structure MergeOutcome where
  head : Hash
  conflicted : Bool
  note : String

/-- A `NodeStore`: versions by their hashes. -/
abbrev NodeStore := List (Hash × VersionNode Hash)

variable {Hash : Type} [LinearOrder Hash] (store : NodeStore Hash)

/-- `NodeStore::get`, with the error of a node that is missing. -/
def get (hash : Hash) : Except (CrdtError Hash) (VersionNode Hash) :=
  match find hash store with
  | none => .error (.missingNode hash)
  | some node => .ok node

theorem mem_hashes {store : NodeStore Hash} {hash : Hash} {node : VersionNode Hash}
    (found : find hash store = some node) : hash ∈ (store.map Prod.fst).toFinset := by
  induction store with
  | nil => cases found
  | cons binding rest ih =>
    unfold find at found
    split_ifs at found with here
    · simp [here]
    · have later := ih found
      simp only [mem_toFinset, map_cons, mem_cons] at later ⊢
      exact .inr later

/-- The loop of `reaches`, with the top of the stack first. -/
def reachesFrom (store : NodeStore Hash) (target : Hash) (seen : Finset Hash)
    (stack : List Hash) : Except (CrdtError Hash) Bool :=
  match stack with
  | [] => .ok false
  | cur :: stack =>
    if cur = target then .ok true
    else if _known : cur ∈ seen then reachesFrom store target seen stack
    else
      match _found : find cur store with
      | none => .error (.missingNode cur)
      | some node =>
        reachesFrom store target (Insert.insert cur seen) (node.parents.reverse ++ stack)
termination_by (((store.map Prod.fst).toFinset \ seen).card, stack.length)
decreasing_by
  · exact .right _ (Nat.lt_succ_self _)
  · refine .left _ _ ?_
    rw [Finset.sdiff_insert]
    exact Finset.card_erase_lt_of_mem (Finset.mem_sdiff.mpr ⟨mem_hashes _found, _known⟩)

/-- `reaches`. -/
def reaches (source target : Hash) : Except (CrdtError Hash) Bool :=
  reachesFrom store target ∅ [source]

/-- The end of `ancestry`, for heads with concurrent clocks. -/
def walk (a b : Hash) : Except (CrdtError Hash) Ancestry := do
  if ← reaches store b a then pure .aFirst
  else if ← reaches store a b then pure .bFirst
  else pure .concurrent

/-- `ancestry`. -/
def ancestry (a b : Hash) : Except (CrdtError Hash) Ancestry :=
  if a = b then .ok .aFirst
  else do
    let nodeA ← get store a
    let nodeB ← get store b
    if nodeA.vclock.happensBeforeOrEqual nodeB.vclock &&
        nodeB.vclock.happensBeforeOrEqual nodeA.vclock then pure .aFirst
    else if nodeA.vclock.happensBeforeOrEqual nodeB.vclock then pure .aFirst
    else if nodeB.vclock.happensBeforeOrEqual nodeA.vclock then pure .bFirst
    else walk store a b

/-- The content that a policy chooses, and the note of the outcome. -/
def resolveConflict (policy : MergePolicy) (nodeA nodeB : VersionNode Hash) : Hash × String :=
  match policy with
  | .lastWriterWins =>
    (if nodeA.vclock.total < nodeB.vclock.total ∨
        nodeB.vclock.total = nodeA.vclock.total ∧ nodeB.selfHash < nodeA.selfHash then
      nodeB.contentHash
    else nodeA.contentHash, "last-writer-wins by vector clock")
  | .manual => (nodeA.contentHash, "conflict recorded; manual resolution required")
  | .chunkMerge => (nodeA.contentHash, "chunk-level three-way merge")

/-- The version that merges two heads; its parents are sorted. -/
def mergeBody (policy : MergePolicy) (a b : Hash) (nodeA nodeB : VersionNode Hash)
    (now localNode : Nat) : VersionNodeBody Hash where
  contentHash := (resolveConflict policy nodeA nodeB).1
  parents := [min a b, max a b]
  vclock := (nodeA.vclock.merge nodeB.vclock).increment localNode
  timestamp := now
  kind := nodeA.kind
  metadata := nodeA.metadata

/-- `merge_heads`; `hash` is `VersionNode::compute_hash`. -/
def mergeHeads (hash : VersionNodeBody Hash → Hash) (store : NodeStore Hash) (a b : Hash)
    (policy : MergePolicy) (now localNode : Nat) :
    Except (CrdtError Hash) (MergeOutcome Hash × NodeStore Hash) := do
  match ← ancestry store a b with
  | .aFirst => pure (⟨b, false, "b dominates a"⟩, store)
  | .bFirst => pure (⟨a, false, "a dominates b"⟩, store)
  | .concurrent =>
    let nodeA ← get store a
    let nodeB ← get store b
    if nodeA.kind = .directory ∨ nodeB.kind = .directory then .error .directoryConflict
    else
      let body := mergeBody policy a b nodeA nodeB now localNode
      pure (⟨hash body, true, (resolveConflict policy nodeA nodeB).2⟩,
        insert (hash body) { body with selfHash := hash body } store)

/-- The second version is a parent of the first. -/
def HasParent (child parent : Hash) : Prop :=
  ∃ node, find child store = some node ∧ parent ∈ node.parents

/-- A version is reached from another one along parents. -/
abbrev Descends : Hash → Hash → Prop :=
  Relation.ReflTransGen (HasParent store)

/-- Every parent of a version is there, and its clock is strictly below. -/
def Causal : Prop :=
  ∀ child node, find child store = some node → ∀ parent ∈ node.parents,
    ∃ older, find parent store = some older ∧
      older.vclock.happensBeforeOrEqual node.vclock = true ∧
      node.vclock.happensBeforeOrEqual older.vclock = false

/-- What the parents say about the heads agrees with a result of `ancestry`. -/
def Justified (a b : Hash) : Ancestry → Prop
  | .aFirst => a = b ∨ Descends store b a
  | .bFirst => Descends store a b
  | .concurrent => ¬ Descends store b a ∧ ¬ Descends store a b

section Walks
variable {store : NodeStore Hash} {target : Hash}

theorem descends_of_reachesFrom {seen : Finset Hash} {stack : List Hash}
    (reached : reachesFrom store target seen stack = .ok true) :
    ∃ source ∈ stack, Descends store source target := by
  fun_induction reachesFrom store target seen stack with
  | case1 => cases reached
  | case2 seen stack => exact ⟨target, mem_cons_self, .refl⟩
  | case3 seen cur stack other known ih =>
    obtain ⟨source, mem, descends⟩ := ih reached
    exact ⟨source, mem_cons_of_mem _ mem, descends⟩
  | case4 => cases reached
  | case5 seen cur stack other known node found ih =>
    obtain ⟨source, mem, descends⟩ := ih reached
    rcases mem_append.mp mem with parent | waiting
    · have link : HasParent store cur source := ⟨node, found, mem_reverse.mp parent⟩
      exact ⟨cur, mem_cons_self, descends.head link⟩
    · exact ⟨source, mem_cons_of_mem _ waiting, descends⟩

/-- The walk meets no missing version. -/
theorem reachesFrom_returns (causal : Causal store) {seen : Finset Hash} {stack : List Hash}
    (there : ∀ hash ∈ stack, (find hash store).isSome) :
    ∃ answer, reachesFrom store target seen stack = .ok answer := by
  fun_induction reachesFrom store target seen stack with
  | case1 => exact ⟨_, rfl⟩
  | case2 => exact ⟨_, rfl⟩
  | case3 seen cur stack other known ih => exact ih (forall_mem_cons.mp there).2
  | case4 seen cur stack other known missing =>
    have present := there cur mem_cons_self
    rw [missing] at present
    cases present
  | case5 seen cur stack other known node found ih =>
    refine ih (forall_mem_append.mpr ⟨fun hash parent => ?_, (forall_mem_cons.mp there).2⟩)
    obtain ⟨older, present, -⟩ := causal cur node found hash (mem_reverse.mp parent)
    rw [present]
    rfl

/-- Clocks do not shrink along the parents. -/
theorem Causal.clock_le (causal : Causal store) {source : Hash}
    (descends : Descends store source target) {node : VersionNode Hash}
    (found : find source store = some node) :
    ∃ older, find target store = some older ∧
      older.vclock.happensBeforeOrEqual node.vclock = true := by
  induction descends using Relation.ReflTransGen.head_induction_on generalizing node with
  | refl => exact ⟨node, found, VectorClock.happensBeforeOrEqual_iff.mpr fun _ => le_rfl⟩
  | head link _ ih =>
    obtain ⟨child, here, mem⟩ := link
    rw [found] at here
    cases here
    obtain ⟨parent, present, below, -⟩ := causal _ _ found _ mem
    obtain ⟨older, last, least⟩ := ih present
    rw [VectorClock.happensBeforeOrEqual_iff] at below least
    refine ⟨older, last, VectorClock.happensBeforeOrEqual_iff.mpr fun node => ?_⟩
    exact (least node).trans (below node)

end Walks

variable {store : NodeStore Hash} {a b : Hash} {nodeA nodeB : VersionNode Hash}

/-- What `ancestry` does with two versions of the store. -/
theorem ancestry_eq (ne : a ≠ b) (foundA : find a store = some nodeA)
    (foundB : find b store = some nodeB) :
    ancestry store a b =
      if nodeA.vclock.happensBeforeOrEqual nodeB.vclock then .ok .aFirst
      else if nodeB.vclock.happensBeforeOrEqual nodeA.vclock then .ok .bFirst
      else walk store a b := by
  unfold ancestry get
  rw [if_neg ne, foundA, foundB]
  dsimp only [bind, Except.bind]
  cases nodeA.vclock.happensBeforeOrEqual nodeB.vclock <;>
    cases nodeB.vclock.happensBeforeOrEqual nodeA.vclock <;> rfl

/-- Where clocks are concurrent, the walk finds out. -/
theorem walk_justified (causal : Causal store) (foundA : find a store = some nodeA)
    (foundB : find b store = some nodeB)
    (notBefore : nodeA.vclock.happensBeforeOrEqual nodeB.vclock = false)
    (notAfter : nodeB.vclock.happensBeforeOrEqual nodeA.vclock = false) :
    ∃ result, walk store a b = .ok result ∧ Justified store a b result := by
  have returns : ∀ {source node} target, find source store = some node →
      ∃ answer, reaches store source target = .ok answer := by
    intro source node target found
    refine reachesFrom_returns causal fun hash mem => ?_
    rw [mem_singleton.mp mem, found]
    rfl
  have sound : ∀ {source target}, reaches store source target = .ok true →
      Descends store source target := by
    intro source target reached
    obtain ⟨from_stack, mem, descends⟩ := descends_of_reachesFrom reached
    rwa [mem_singleton.mp mem] at descends
  obtain ⟨first, walkB⟩ := returns a foundB
  obtain ⟨second, walkA⟩ := returns b foundA
  unfold walk
  rw [walkB]
  cases first with
  | true => exact ⟨.aFirst, rfl, .inr (sound walkB)⟩
  | false =>
    rw [walkA]
    cases second with
    | true => exact ⟨.bFirst, rfl, sound walkA⟩
    | false =>
      refine ⟨.concurrent, rfl, fun descends => ?_, fun descends => ?_⟩
      · obtain ⟨older, found, below⟩ := causal.clock_le descends foundB
        rw [foundA] at found
        cases found
        exact absurd below (by simp [notBefore])
      · obtain ⟨older, found, below⟩ := causal.clock_le descends foundA
        rw [foundB] at found
        cases found
        exact absurd below (by simp [notAfter])

/-- Comparable clocks mean that one of the versions was made from the other. -/
def ClocksTell (store : NodeStore Hash) (a b : Hash) (nodeA nodeB : VersionNode Hash) : Prop :=
  (nodeA.vclock.happensBeforeOrEqual nodeB.vclock = true → Descends store b a) ∧
  (nodeB.vclock.happensBeforeOrEqual nodeA.vclock = true →
    nodeA.vclock.happensBeforeOrEqual nodeB.vclock = false → Descends store a b)

/-- `ancestry` answers for two versions of the store. -/
theorem ancestry_spec (causal : Causal store) (foundA : find a store = some nodeA)
    (foundB : find b store = some nodeB) :
    ∃ result, ancestry store a b = .ok result ∧
      (Justified store a b result ↔ ClocksTell store a b nodeA nodeB) := by
  unfold ClocksTell
  by_cases same : a = b
  · subst same
    exact ⟨.aFirst, if_pos rfl, fun _ => ⟨fun _ => .refl, fun _ _ => .refl⟩, fun _ => .inl rfl⟩
  · rw [ancestry_eq same foundA foundB]
    cases before : nodeA.vclock.happensBeforeOrEqual nodeB.vclock with
    | true => exact ⟨.aFirst, rfl, by simp [Justified, same]⟩
    | false =>
      cases after : nodeB.vclock.happensBeforeOrEqual nodeA.vclock with
      | true => exact ⟨.bFirst, rfl, by simp [Justified]⟩
      | false =>
        obtain ⟨result, walked, justified⟩ := walk_justified causal foundA foundB before after
        exact ⟨result, walked, by simp [justified]⟩

/-- With parents that are there and have smaller clocks, `ancestry` answers for any two versions of
the store, and its answers agree with the parents exactly when comparable clocks mean that one of
the versions was made from the other. -/
theorem ancestry_justified_iff (store : NodeStore Hash) (causal : Causal store) (a b : Hash) :
    ((find a store).isSome → (find b store).isSome →
      ∃ result, ancestry store a b = .ok result) ∧
    ((∀ result, ancestry store a b = .ok result → Justified store a b result) ↔
      ∀ nodeA nodeB, find a store = some nodeA → find b store = some nodeB →
        ClocksTell store a b nodeA nodeB) := by
  constructor
  · intro someA someB
    obtain ⟨nodeA, foundA⟩ := Option.isSome_iff_exists.mp someA
    obtain ⟨nodeB, foundB⟩ := Option.isSome_iff_exists.mp someB
    obtain ⟨result, answered, -⟩ := ancestry_spec causal foundA foundB
    exact ⟨result, answered⟩
  · constructor
    · intro justified nodeA nodeB foundA foundB
      obtain ⟨result, answered, tells⟩ := ancestry_spec causal foundA foundB
      exact tells.mp (justified result answered)
    · intro tells result answered
      by_cases same : a = b
      · unfold ancestry at answered
        rw [if_pos same] at answered
        cases answered
        exact .inl same
      · cases foundA : find a store with
        | none => simp [ancestry, get, same, foundA, bind, Except.bind] at answered
        | some nodeA =>
          cases foundB : find b store with
          | none => simp [ancestry, get, same, foundA, foundB, bind, Except.bind] at answered
          | some nodeB =>
            obtain ⟨other, returned, exactly⟩ := ancestry_spec causal foundA foundB
            rw [returned] at answered
            cases answered
            exact exactly.mpr (tells nodeA nodeB foundA foundB)

/-- A file of one writer. -/
def version (content ticks : Nat) (parents : List Nat) : VersionNode Nat where
  contentHash := content
  parents := parents
  vclock := ⟨[(1, ticks)], pairwise_singleton _ _⟩
  timestamp := 0
  kind := .file
  metadata := ⟨0, 0, 0, []⟩
  selfHash := content

/-- One writer makes version two from one, restores one and makes version three from it. -/
def forked : NodeStore Nat := [(1, version 1 1 []), (2, version 2 2 [1]), (3, version 3 2 [1])]

theorem causal_forked : Causal forked := by
  intro child node found parent mem
  simp only [forked, find] at found
  split_ifs at found <;> cases found
  · cases mem
  · cases mem_singleton.mp mem
    exact ⟨_, rfl, rfl, rfl⟩
  · cases mem_singleton.mp mem
    exact ⟨_, rfl, rfl, rfl⟩

/-- A version and the one it was made from: there is an answer, and the parents agree. -/
theorem ancestry_answers_fork :
    ∃ result, ancestry forked 1 3 = .ok result ∧ Justified forked 1 3 result := by
  obtain ⟨answers, agree⟩ := ancestry_justified_iff forked causal_forked 1 3
  obtain ⟨result, answered⟩ := answers rfl rfl
  refine ⟨result, answered, agree.mpr (fun nodeA nodeB foundA foundB => ?_) result answered⟩
  cases foundA
  cases foundB
  exact ⟨fun _ => .single ⟨_, rfl, mem_singleton_self _⟩, nofun⟩

/-- The clocks of both branches of the fork are equal, and none was made from the other. -/
theorem ancestry_drops_branch : Causal forked ∧ ancestry forked 2 3 = .ok .aFirst ∧
    ¬ Justified forked 2 3 .aFirst := by
  refine ⟨causal_forked, rfl, ?_⟩
  have parents : ∀ child parent, HasParent forked child parent → parent = 1 ∧ child ≠ 1 := by
    rintro child parent ⟨node, found, mem⟩
    simp only [forked, find] at found
    split_ifs at found with one two three <;> cases found
    · cases mem
    · exact ⟨mem_singleton.mp mem, fun same => one same.symm⟩
    · exact ⟨mem_singleton.mp mem, fun same => one same.symm⟩
  rintro (same | descends)
  · cases same
  · rcases descends.cases_tail with same | ⟨child, -, link⟩
    · cases same
    · cases (parents _ _ link).1

/-- Writing a version again under its hash hides no other. -/
theorem find_insert_known {hash other : Hash} {node older : VersionNode Hash}
    (known : ∀ old, find hash store = some old → old = node)
    (there : find other store = some older) : find other (insert hash node store) = some older := by
  by_cases here : other = hash
  · subst here
    rw [find_insert_self, known older there]
  · rw [find_insert_of_ne here, there]

/-- A version that is made from versions with smaller clocks keeps a history causal. -/
theorem Causal.insert {hash : Hash} {node : VersionNode Hash} (causal : Causal store)
    (known : ∀ old, find hash store = some old → old = node) (made : ∀ parent ∈ node.parents,
      ∃ older, find parent store = some older ∧
        older.vclock.happensBeforeOrEqual node.vclock = true ∧
        node.vclock.happensBeforeOrEqual older.vclock = false) :
    Causal (insert hash node store) := by
  intro child version found parent mem
  by_cases new : child = hash
  · rw [new, find_insert_self] at found
    cases found
    obtain ⟨older, there, clocks⟩ := made parent mem
    exact ⟨older, find_insert_known known there, clocks⟩
  · rw [find_insert_of_ne new] at found
    obtain ⟨older, there, clocks⟩ := causal child version found parent mem
    exact ⟨older, find_insert_known known there, clocks⟩

/-- A merge keeps every version and leaves a causal history, in which a new head has both heads as
its parents. -/
theorem mergeHeads_causal {hash : VersionNodeBody Hash → Hash} {policy : MergePolicy}
    {now localNode : Nat} {outcome : MergeOutcome Hash} {next : NodeStore Hash}
    (causal : Causal store) (no_collision : ∀ nodeA nodeB old,
      find (hash (mergeBody policy a b nodeA nodeB now localNode)) store = some old →
        old = { mergeBody policy a b nodeA nodeB now localNode with
          selfHash := hash (mergeBody policy a b nodeA nodeB now localNode) })
    (room : ∀ head node, head = a ∨ head = b → find head store = some node →
      node.vclock.count localNode + 1 < UInt64.size)
    (merged : mergeHeads hash store a b policy now localNode = .ok (outcome, next)) :
    Causal next ∧ (∀ version node, find version store = some node →
      find version next = some node) ∧ (outcome.conflicted = true →
        HasParent next outcome.head a ∧ HasParent next outcome.head b) := by
  unfold mergeHeads at merged
  cases answered : ancestry store a b with
  | error => cases answered ▸ merged
  | ok result =>
    rw [answered] at merged
    cases result with
    | aFirst =>
      cases merged
      exact ⟨causal, fun _ _ found => found, nofun⟩
    | bFirst =>
      cases merged
      exact ⟨causal, fun _ _ found => found, nofun⟩
    | concurrent =>
      cases foundA : find a store with
      | none => simp [get, foundA, bind, Except.bind] at merged
      | some nodeA =>
        cases foundB : find b store with
        | none => simp [get, foundA, foundB, bind, Except.bind] at merged
        | some nodeB =>
          simp only [get, foundA, foundB, bind, Except.bind, pure, Except.pure] at merged
          split_ifs at merged
          cases merged
          have known := no_collision nodeA nodeB
          have roomA := room a nodeA (.inl rfl) foundA
          have roomB := room b nodeB (.inr rfl) foundB
          refine ⟨causal.insert known fun parent mem => ?_,
            fun _ _ found => find_insert_known known found, fun _ => ?_⟩
          · have either : parent = a ∨ parent = b := by
              simp only [mergeBody, mem_cons, not_mem_nil, or_false] at mem
              grind
            rcases either with rfl | rfl
            · exact ⟨nodeA, foundA, VectorClock.below_merged roomA roomB⟩
            · have above := VectorClock.below_merged roomB roomA
              rw [VectorClock.merge_comm] at above
              exact ⟨nodeB, foundB, above⟩
          · have parents : a ∈ [min a b, max a b] ∧ b ∈ [min a b, max a b] := by
              simp only [mem_cons, not_mem_nil, or_false]
              grind
            exact ⟨⟨_, find_insert_self _ _ _, parents.1⟩, _, find_insert_self _ _ _, parents.2⟩

/-- Versions of two writers. -/
def beside : NodeStore Nat :=
  [(1, version 1 1 []), (2, { version 2 1 [] with vclock := ⟨[(2, 1)], pairwise_singleton _ _⟩ })]

/-- The merge of two writers' versions has both as its parents. -/
theorem mergeHeads_causal_beside : ∃ outcome next,
    mergeHeads VersionNodeBody.timestamp beside 1 2 .lastWriterWins 9 7 = .ok (outcome, next) ∧
      Causal next ∧ HasParent next outcome.head 1 ∧ HasParent next outcome.head 2 := by
  have roots : ∀ hash node, find hash beside = some node →
      node.parents = [] ∧ node.vclock.count 7 = 0 := by
    intro hash node found
    simp only [beside, find] at found
    split_ifs at found <;> cases found <;> exact ⟨rfl, rfl⟩
  have apart : ancestry beside 1 2 = .ok .concurrent := by
    rw [ancestry_eq (by decide) rfl rfl, if_neg (by decide), if_neg (by decide)]
    simp [walk, reaches, reachesFrom, beside, find, version, bind, Except.bind, pure, Except.pure]
  obtain ⟨outcome, next, merged, conflicted⟩ : ∃ outcome next,
      mergeHeads VersionNodeBody.timestamp beside 1 2 .lastWriterWins 9 7 = .ok (outcome, next) ∧
        outcome.conflicted = true := by
    unfold mergeHeads
    rw [apart]
    exact ⟨_, _, rfl, rfl⟩
  obtain ⟨causal, -, parents⟩ := mergeHeads_causal
    (fun child node found parent mem => by rw [(roots child node found).1] at mem; cases mem)
    (fun _ _ old found => by cases found)
    (fun head node _ found => by rw [(roots head node found).2]; decide) merged
  exact ⟨outcome, next, merged, causal, parents conflicted⟩

/-- Two results of a merge agree: the same head and flag, or no head. -/
def Agree : Except (CrdtError Hash) (MergeOutcome Hash × NodeStore Hash) →
    Except (CrdtError Hash) (MergeOutcome Hash × NodeStore Hash) → Prop
  | .ok first, .ok second =>
    first.1.head = second.1.head ∧ first.1.conflicted = second.1.conflicted
  | .error _, .error _ => True
  | _, _ => False

/-- Versions of which a merge takes the same, whichever comes first. -/
structure Alike (nodeA nodeB : VersionNode Hash) : Prop where
  kind : nodeA.kind = nodeB.kind
  metadata : nodeA.metadata = nodeB.metadata
  content : nodeA.vclock.total = nodeB.vclock.total → nodeA.selfHash = nodeB.selfHash →
    nodeA.contentHash = nodeB.contentHash

/-- The merge nodes of both orders are the same for alike versions only. -/
theorem mergeBody_comm_iff (a b : Hash) (nodeA nodeB : VersionNode Hash) (now localNode : Nat) :
    mergeBody .lastWriterWins a b nodeA nodeB now localNode =
      mergeBody .lastWriterWins b a nodeB nodeA now localNode ↔ Alike nodeA nodeB := by
  unfold mergeBody resolveConflict
  rw [VersionNodeBody.mk.injEq, VectorClock.merge_comm, min_comm, max_comm]
  constructor
  · rintro ⟨content, -, -, -, kind, metadata⟩
    refine ⟨kind, metadata, fun total hash => ?_⟩
    simpa [total, hash] using content
  · rintro ⟨kind, metadata, content⟩
    refine ⟨?_, rfl, rfl, rfl, kind, metadata⟩
    dsimp only
    rcases lt_trichotomy nodeA.vclock.total nodeB.vclock.total with less | same | more
    · simp [less, less.ne, less.ne', less.not_gt]
    · rcases lt_trichotomy nodeA.selfHash nodeB.selfHash with below | equal | above
      · simp [same, below, below.not_gt]
      · simp [same, equal, content same equal]
      · simp [same, above, above.not_gt]
    · simp [more, more.ne, more.ne', more.not_gt]

/-- Merging two files by the last writer does not depend on the order of the heads exactly when
the clocks say which one is later, or they are concurrent and the walks do not contradict each
other and, where neither head is reached from the other, the versions are alike. -/
theorem merge_commutes_iff (hash : VersionNodeBody Hash → Hash) (store : NodeStore Hash)
    (a b : Hash) (nodeA nodeB : VersionNode Hash) (foundA : find a store = some nodeA)
    (foundB : find b store = some nodeB) (fileA : nodeA.kind ≠ .directory)
    (fileB : nodeB.kind ≠ .directory) (now localNode : Nat)
    (no_collision : hash (mergeBody .lastWriterWins a b nodeA nodeB now localNode) =
        hash (mergeBody .lastWriterWins b a nodeB nodeA now localNode) →
      mergeBody .lastWriterWins a b nodeA nodeB now localNode =
        mergeBody .lastWriterWins b a nodeB nodeA now localNode) :
    Agree (mergeHeads hash store a b .lastWriterWins now localNode)
        (mergeHeads hash store b a .lastWriterWins now localNode) ↔
      a = b ∨
      nodeA.vclock.happensBeforeOrEqual nodeB.vclock ≠
        nodeB.vclock.happensBeforeOrEqual nodeA.vclock ∨
      nodeA.vclock.happensBeforeOrEqual nodeB.vclock = false ∧
        (reaches store b a = .ok true → reaches store a b = .ok false) ∧
        (reaches store a b = .ok true → reaches store b a = .ok false) ∧
        (reaches store b a = .ok false → reaches store a b = .ok false → Alike nodeA nodeB) := by
  by_cases same : a = b
  · subst same
    rw [foundA] at foundB
    cases foundB
    simp only [true_or, iff_true]
    cases mergeHeads hash store a a .lastWriterWins now localNode with
    | error error => trivial
    | ok outcome => exact ⟨rfl, rfl⟩
  · have different : ¬ b = a := fun equal => same equal.symm
    unfold mergeHeads
    rw [ancestry_eq same foundA foundB, ancestry_eq different foundB foundA]
    cases nodeA.vclock.happensBeforeOrEqual nodeB.vclock <;>
      cases nodeB.vclock.happensBeforeOrEqual nodeA.vclock
    · have merged : hash (mergeBody .lastWriterWins a b nodeA nodeB now localNode) =
          hash (mergeBody .lastWriterWins b a nodeB nodeA now localNode) ↔ Alike nodeA nodeB := by
        rw [← mergeBody_comm_iff a b nodeA nodeB now localNode]
        exact ⟨no_collision, congrArg hash⟩
      rcases first : reaches store b a with _ | _ | _ <;>
        rcases second : reaches store a b with _ | _ | _ <;>
        simp [walk, first, second, get, foundA, foundB, fileA, fileB, Agree, same, different,
          merged, bind, Except.bind, pure, Except.pure]
    · simp [Agree, same, bind, Except.bind, pure, Except.pure]
    · simp [Agree, same, bind, Except.bind, pure, Except.pure]
    · simp [Agree, same, different, bind, Except.bind, pure, Except.pure]

/-- The merge of a version with the one it was made from. -/
theorem merge_commutes_fork :
    Agree (mergeHeads VersionNodeBody.contentHash forked 1 3 .lastWriterWins 9 7)
      (mergeHeads VersionNodeBody.contentHash forked 3 1 .lastWriterWins 9 7) :=
  (merge_commutes_iff _ forked 1 3 _ _ rfl rfl (by decide) (by decide) 9 7
    fun _ => (mergeBody_comm_iff _ _ _ _ _ _).mpr ⟨rfl, rfl, by decide⟩).mpr
      (.inr (.inl (by decide)))

/-- Of two branches with equal clocks the second one wins. -/
theorem merge_takes_second :
    ¬ Agree (mergeHeads VersionNodeBody.contentHash forked 2 3 .lastWriterWins 9 7)
      (mergeHeads VersionNodeBody.contentHash forked 3 2 .lastWriterWins 9 7) := by
  rintro ⟨same, -⟩
  cases same

end LionFS.Cluster.Crdt
