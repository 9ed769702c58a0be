import LionFS.Cluster.Engine.Namespace
import LionFS.Data.Table

/-!
# What updating a path does to the tree

Nodes and child maps are kept under hashes that determine them, so a namespace
only grows and what resolved under a root once resolves there ever after. Setting
a path gives a new root under which the files are those of the old root, but for
the path itself; a path that resolves can always be set.
-/
namespace LionFS.Cluster

open Run List Option Assoc
open Function (update_self update_of_ne)

open LionFS Extents

namespace Namespace

variable {Hash Name : Type}

/-- Nodes and child maps that were there are there. -/
structure Grows (names next : Namespace Hash Name) : Prop where
  repo : ∀ hash node, names.repo hash = some node → next.repo hash = some node
  dirs : ∀ content children, names.dirs content = some children →
    next.dirs content = some children

variable (names : Namespace Hash Name)

theorem Grows.refl : names.Grows names :=
  ⟨fun _ _ found => found, fun _ _ found => found⟩

variable {middle : Namespace Hash Name}

theorem Grows.trans {names next : Namespace Hash Name} (first : names.Grows middle)
    (second : middle.Grows next) : names.Grows next :=
  ⟨fun hash node found => second.repo hash node (first.repo hash node found),
    fun content children found => second.dirs content children (first.dirs content children found)⟩

variable (outside : Outside Hash Name)

/-- Hashes determine what is kept under them, and everything a directory refers to is there. -/
structure Formed (names : Namespace Hash Name) : Prop where
  keyed : ∀ hash node, names.repo hash = some node → hash = outside.nodeHash node
  mapped : ∀ content children, names.dirs content = some children →
    content = outside.dirHash children
  /-- The child map of a directory and the nodes of its children are there. -/
  closed : ∀ hash node, names.repo hash = some node → node.kind = .directory →
    ∃ children, names.dirs node.contentHash = some children ∧
      ∀ entry ∈ children, ∃ child, names.repo entry.2 = some child
  linear : ∀ hash node, names.repo hash = some node → node.parents.length ≤ 1
  /-- The content of a file is the hash of a chunk list. -/
  filed : ∀ hash node, names.repo hash = some node → node.kind = .file →
    ∃ hashes, node.contentHash = outside.of (outside.pack hashes)
  /-- Nodes and child maps made since the last drain are there. -/
  made : ∀ made ∈ names.created, names.repo (outside.nodeHash made.1) = some made.1 ∧
    ∀ children ∈ made.2, names.dirs made.1.contentHash = some children

/-- Hashes determine what is kept under them, and what a directory refers to is there. -/
structure Intact (names : Namespace Hash Name) : Prop where
  keyed : ∀ hash node, names.repo hash = some node → hash = outside.nodeHash node
  mapped : ∀ content children, names.dirs content = some children →
    content = outside.dirHash children
  closed : ∀ hash node, names.repo hash = some node → node.kind = .directory →
    ∃ children, names.dirs node.contentHash = some children ∧
      ∀ entry ∈ children, ∃ child, names.repo entry.2 = some child

theorem Formed.intact {outside : Outside Hash Name} {names : Namespace Hash Name}
    (formed : Formed outside names) : Intact outside names := { formed with }

/-- A hash is that of a directory. -/
def IsDir (hash : Hash) : Prop :=
  ∃ node, names.repo hash = some node ∧ node.kind = .directory

theorem Grows.isDir {names next : Namespace Hash Name} (grows : names.Grows next) {hash : Hash}
    (directory : names.IsDir hash) : next.IsDir hash := by
  obtain ⟨node, found, kind⟩ := directory
  exact ⟨node, grows.repo hash node found, kind⟩

theorem IsDir.present {names : Namespace Hash Name} {hash : Hash} (directory : names.IsDir hash) :
    ∃ node, names.repo hash = some node := by
  obtain ⟨node, found, -⟩ := directory
  exact ⟨node, found⟩

/-- The roots of a namespace are directories, and the chain ends in the root. -/
structure Rooted : Prop where
  root : names.IsDir names.rootHead
  chain : ∃ timestamp, names.rootChain.getLast? = some (timestamp, names.rootHead)
  /-- The roots of the snapshots are directories. -/
  snapshots : ∀ name root, names.snapshots name = some root → names.IsDir root

/-- A namespace with more nodes and child maps and the same roots. -/
structure Extends (names next : Namespace Hash Name) : Prop where
  formed : Formed outside next
  grows : names.Grows next
  rootHead : next.rootHead = names.rootHead
  rootChain : next.rootChain = names.rootChain
  snapshots : next.snapshots = names.snapshots

variable {outside : Outside Hash Name} {names next : Namespace Hash Name}

theorem Formed.extends_self (formed : Formed outside names) : names.Extends outside names :=
  ⟨formed, .refl names, rfl, rfl, rfl⟩

theorem Extends.trans (first : names.Extends outside middle)
    (second : middle.Extends outside next) :
    names.Extends outside next where
  formed := second.formed
  grows := first.grows.trans second.grows
  rootHead := second.rootHead.trans first.rootHead
  rootChain := second.rootChain.trans first.rootChain
  snapshots := second.snapshots.trans first.snapshots

theorem Extends.rooted (more : names.Extends outside next) (rooted : names.Rooted) :
    next.Rooted where
  root := by
    rw [more.rootHead]
    exact more.grows.isDir rooted.root
  chain := by
    rw [more.rootHead, more.rootChain]
    exact rooted.chain
  snapshots := by
    intro name root taken
    rw [more.snapshots] at taken
    exact more.grows.isDir (rooted.snapshots name root taken)

variable {rest : List Name} {part : Name} {hashes : List Hash}

section Resolve

variable {dir : Hash} {node : VersionNode Hash}

theorem childrenOf_directory (found : names.repo dir = some node)
    (kind : node.kind = .directory) : names.childrenOf dir = names.dirs node.contentHash := by
  unfold childrenOf
  rw [found]
  exact if_pos kind

theorem childrenOf_other (found : names.repo dir = some node) (kind : node.kind ≠ .directory) :
    names.childrenOf dir = none := by
  unfold childrenOf
  rw [found]
  exact if_neg kind

theorem Intact.childrenOf_grows (intact : Intact outside names) (grows : names.Grows next)
    (found : names.repo dir = some node) : next.childrenOf dir = names.childrenOf dir := by
  have later := grows.repo dir node found
  by_cases kind : node.kind = .directory
  · obtain ⟨children, here, -⟩ := intact.closed dir node found kind
    rw [childrenOf_directory found kind, childrenOf_directory later kind, here]
    exact grows.dirs _ children here
  · rw [childrenOf_other found kind, childrenOf_other later kind]

theorem Intact.child (intact : Intact outside names) {children : ChildMap Hash Name}
    (listed : names.childrenOf dir = some children) :
    ∀ entry ∈ children, ∃ child, names.repo entry.2 = some child := by
  intro entry mem
  unfold childrenOf at listed
  split at listed
  · cases listed
  · next node found =>
    split_ifs at listed with kind
    obtain ⟨there, here, present⟩ := intact.closed dir node found kind
    rw [here] at listed
    have same := some.inj listed
    rw [← same] at mem
    exact present entry mem

variable [LinearOrder Name] {children : ChildMap Hash Name}

theorem resolveUnder_cons (listed : names.childrenOf dir = some children) :
    names.resolveUnder dir (part :: rest) =
      (find part children).bind fun child => names.resolveUnder child rest := by
  rw [resolveUnder, listed]
  dsimp only
  cases find part children <;> rfl

/-- Without children nothing resolves below. -/
theorem resolveUnder_childless (childless : names.childrenOf dir = none) :
    names.resolveUnder dir (part :: rest) = none := by
  rw [resolveUnder, childless]

theorem resolveUnder_congr (repo : next.repo = names.repo) (dirs : next.dirs = names.dirs)
    (path : List Name) : next.resolveUnder dir path = names.resolveUnder dir path := by
  have same : ∀ dir, next.childrenOf dir = names.childrenOf dir := by
    intro dir
    unfold childrenOf
    rw [repo, dirs]
  induction path generalizing dir with
  | nil => rfl
  | cons part rest ih =>
    cases listed : names.childrenOf dir with
    | none =>
      rw [resolveUnder_childless listed, resolveUnder_childless ((same dir).trans listed)]
    | some children =>
      rw [resolveUnder_cons listed, resolveUnder_cons ((same dir).trans listed)]
      exact congrArg _ (funext fun child => ih)

variable {path : List Name}

theorem Formed.resolveUnder_present (formed : Formed outside names) {found : Hash}
    (present : ∃ node, names.repo dir = some node)
    (resolves : names.resolveUnder dir path = some found) :
    ∃ node, names.repo found = some node := by
  induction path generalizing dir with
  | nil =>
    have same : dir = found := some.inj resolves
    rwa [← same]
  | cons part rest ih =>
    cases listed : names.childrenOf dir with
    | none =>
      rw [resolveUnder_childless listed] at resolves
      cases resolves
    | some children =>
      rw [resolveUnder_cons listed, bind_eq_some_iff] at resolves
      obtain ⟨child, here, below⟩ := resolves
      exact ih (formed.intact.child listed _ (mem_of_find here)) below

/-- What resolves was there, if it is there in a namespace that has more. -/
theorem Formed.present_before (formed : Formed outside names) (grows : names.Grows next)
    {found : Hash} (present : ∃ node, names.repo dir = some node)
    (resolves : names.resolveUnder dir path = some found)
    (there : next.repo found = some node) : names.repo found = some node := by
  obtain ⟨own, before⟩ := formed.resolveUnder_present present resolves
  rw [before, ← there, grows.repo _ _ before]

theorem Intact.resolveUnder_grows (intact : Intact outside names) (grows : names.Grows next)
    (path : List Name) (present : ∃ node, names.repo dir = some node) :
    next.resolveUnder dir path = names.resolveUnder dir path := by
  induction path generalizing dir with
  | nil => rfl
  | cons part rest ih =>
    obtain ⟨node, found⟩ := present
    have same := intact.childrenOf_grows grows found
    cases listed : names.childrenOf dir with
    | none => rw [resolveUnder_childless listed, resolveUnder_childless (same.trans listed)]
    | some children =>
      rw [resolveUnder_cons listed, resolveUnder_cons (same.trans listed)]
      cases here : find part children with
      | none => rfl
      | some child => exact ih (intact.child listed _ (mem_of_find here))

/-- A path leads to a file with a list of chunks. -/
def FileAt (outside : Outside Hash Name) (names : Namespace Hash Name) (root : Hash)
    (path : List Name) (hashes : List Hash) : Prop :=
  ∃ head node, names.resolveUnder root path = some head ∧ names.repo head = some node ∧
    node.kind = .file ∧ node.contentHash = outside.of (outside.pack hashes)

theorem FileAt.congr {root : Hash} (file : next.FileAt outside root path hashes)
    (repo : next.repo = names.repo) (dirs : next.dirs = names.dirs) :
    names.FileAt outside root path hashes := by
  obtain ⟨head, node, resolves, found, rest⟩ := file
  refine ⟨head, node, ?_, ?_, rest⟩
  · rw [← resolveUnder_congr repo dirs]
    exact resolves
  · rw [← repo]
    exact found

theorem Formed.resolveNewest_eq (formed : Formed outside names) (rooted : names.Rooted)
    (path : List Name) : names.resolveNewest path = names.resolve path := by
  obtain ⟨node, found, -⟩ := rooted.root
  obtain ⟨time, newest⟩ := rooted.chain
  unfold resolveNewest resolve
  rw [newest]
  dsimp only
  rw [found]
  exact if_neg (Nat.not_lt.mpr (formed.linear _ node found))

end Resolve

section Update

variable [DecidableEq Hash]

theorem putNode_repo (node : VersionNode Hash) :
    (names.putNode outside node).repo (outside.nodeHash node) = some node :=
  update_self _ _ _

theorem Intact.registerDir (lawful : outside.Lawful) (intact : Intact outside names)
    (children : ChildMap Hash Name) :
    Intact outside (names.registerDir (outside.dirHash children) children) ∧
      names.Grows (names.registerDir (outside.dirHash children) children) := by
  have grows : names.Grows (names.registerDir (outside.dirHash children) children) := by
    refine ⟨fun _ _ found => found, fun content others found => ?_⟩
    by_cases same : content = outside.dirHash children
    · have equal : others = children :=
        lawful.dirHash_injective ((intact.mapped content others found).symm.trans same)
      rw [same, equal]
      exact update_self _ _ _
    · exact (update_of_ne same _ _).trans found
  refine ⟨⟨intact.keyed, fun content others found => ?_, fun hash node found kind => ?_⟩, grows⟩
  · rcases Table.update_eq_some found with ⟨same, equal⟩ | before
    · rw [same, equal]
    · exact intact.mapped content others before.2
  · obtain ⟨others, here, present⟩ := intact.closed hash node found kind
    exact ⟨others, grows.dirs _ _ here, present⟩

/-- A node whose references are there may be put. Putting it loses none. -/
theorem Intact.putNode (lawful : outside.Lawful) (intact : Intact outside names)
    {node : VersionNode Hash}
    (closed : node.kind = .directory → ∃ children, names.dirs node.contentHash = some children ∧
      ∀ entry ∈ children, ∃ child, names.repo entry.2 = some child) :
    Intact outside (names.putNode outside node) ∧ names.Grows (names.putNode outside node) := by
  have grows : names.Grows (names.putNode outside node) := by
    refine ⟨fun hash other found => ?_, fun _ _ found => found⟩
    by_cases same : hash = outside.nodeHash node
    · have equal : other = node :=
        lawful.nodeHash_injective ((intact.keyed hash other found).symm.trans same)
      rw [same, equal]
      exact putNode_repo node
    · exact (update_of_ne same _ _).trans found
  refine ⟨⟨fun hash other found => ?_, intact.mapped, fun hash other found kind => ?_⟩, grows⟩
  · rcases Table.update_eq_some found with ⟨same, equal⟩ | before
    · rw [same, equal]
    · exact intact.keyed hash other before.2
  · have here : ∃ children, names.dirs other.contentHash = some children ∧
        ∀ entry ∈ children, ∃ child, names.repo entry.2 = some child := by
      rcases Table.update_eq_some found with ⟨-, equal⟩ | before
      · rw [equal] at kind ⊢
        exact closed kind
      · exact intact.closed hash other before.2 kind
    obtain ⟨children, listed, present⟩ := here
    refine ⟨children, listed, fun entry mem => ?_⟩
    obtain ⟨child, there⟩ := present entry mem
    exact ⟨child, grows.repo _ _ there⟩

variable (lawful : outside.Lawful) (formed : Formed outside names)

include lawful formed

theorem Formed.putNode {node : VersionNode Hash} (linear : node.parents.length ≤ 1)
    (closed : node.kind = .directory → ∃ children, names.dirs node.contentHash = some children ∧
      ∀ entry ∈ children, ∃ child, names.repo entry.2 = some child)
    (filed : node.kind = .file → ∃ hashes, node.contentHash = outside.of (outside.pack hashes)) :
    names.Extends outside (names.putNode outside node) := by
  obtain ⟨intact, grows⟩ := formed.intact.putNode lawful closed
  refine ⟨{ intact with linear := ?_, filed := ?_, made := ?_ }, grows, rfl, rfl, rfl⟩
  · intro hash other found
    rcases Table.update_eq_some found with ⟨-, equal⟩ | before
    · rw [equal]
      exact linear
    · exact formed.linear hash other before.2
  · intro hash other found kind
    rcases Table.update_eq_some found with ⟨-, equal⟩ | before
    · rw [equal] at kind ⊢
      exact filed kind
    · exact formed.filed hash other before.2 kind
  · intro made mem
    exact ⟨grows.repo _ _ (formed.made made mem).1, (formed.made made mem).2⟩

theorem Formed.registerDir (children : ChildMap Hash Name) :
    names.Extends outside (names.registerDir (outside.dirHash children) children) := by
  obtain ⟨intact, grows⟩ := formed.intact.registerDir lawful children
  refine ⟨{ intact with linear := formed.linear, filed := formed.filed, made := ?_ }, grows, rfl,
    rfl, rfl⟩
  intro made mem
  exact ⟨(formed.made made mem).1,
    fun others listed => grows.dirs _ _ ((formed.made made mem).2 others listed)⟩

theorem newDirNode_spec {children : ChildMap Hash Name}
    (present : ∀ entry ∈ children, ∃ child, names.repo entry.2 = some child) (parent : Hash)
    (time : Nat) :
    wp (newDirNode outside children parent time)
      (fun root next => names.Extends outside next ∧ next.childrenOf root = some children ∧
        next.IsDir root)
      never names := by
  have registered := formed.registerDir lawful children
  have listed : (names.registerDir (outside.dirHash children) children).dirs
      (outside.dirHash children) = some children := update_self _ _ _
  have put := registered.trans
    (registered.formed.putNode lawful
      (show (names.dirNode outside children parent time).parents.length ≤ 1 from le_refl 1)
      (fun _ => ⟨children, listed, present⟩) nofun)
  have here : ((names.registerDir (outside.dirHash children) children).putNode outside
      (names.dirNode outside children parent time)).repo
        (outside.nodeHash (names.dirNode outside children parent time)) =
      some (names.dirNode outside children parent time) := putNode_repo _
  refine ⟨⟨{ put.formed with made := ?_ }, ⟨put.grows.repo, put.grows.dirs⟩, rfl, rfl, rfl⟩, ?_,
    _, here, rfl⟩
  · intro made mem
    rcases mem_append.mp mem with before | new
    · exact put.formed.made made before
    · rw [mem_singleton.mp new]
      refine ⟨here, fun others equal => ?_⟩
      rw [← mem_some_iff.mp equal]
      exact listed
  · exact (childrenOf_directory here rfl).trans listed

end Update

section Path

variable [LinearOrder Name]

/-- The new root of a path that was set: the files below it are those below the old one, but for
the path itself. -/
structure Updated (outside : Outside Hash Name) (names next : Namespace Hash Name) (dir : Hash)
    (parts : List Name) (head root : Hash) : Prop where
  more : names.Extends outside next
  directory : next.IsDir root
  /-- What is no directory is the head at its path, or is where it was. -/
  leaves : ∀ path found node, next.resolveUnder root path = some found →
    next.repo found = some node → node.kind ≠ .directory →
    path = parts ∧ found = head ∨ path ≠ parts ∧ names.resolveUnder dir path = some found

/-- What setting a path does to the whole namespace. -/
structure Swapped (outside : Outside Hash Name) (names next : Namespace Hash Name)
    (path : List Name) (head root : Hash) : Prop where
  formed : Formed outside next
  rooted : next.Rooted
  grows : names.Grows next
  snapshots : next.snapshots = names.snapshots
  rootHead : next.rootHead = root
  /-- What is no directory is the head at its path, or is where it was. -/
  leaves : ∀ other found node, next.resolve other = some found → next.repo found = some node →
    node.kind ≠ .directory →
    other = path ∧ found = head ∨ other ≠ path ∧ names.resolve other = some found

variable {children : ChildMap Hash Name} {head root : Hash} {path : List Name}

variable (formed : Formed outside names)

include formed

theorem Extends.resolve (more : names.Extends outside next) (rooted : names.Rooted)
    (path : List Name) : next.resolve path = names.resolve path := by
  unfold Namespace.resolve
  rw [more.rootHead]
  exact formed.intact.resolveUnder_grows more.grows path rooted.root.present

/-- A swap after an extension, with the created nodes drained. -/
theorem Swapped.settle (more : names.Extends outside middle) (rooted : names.Rooted)
    (swapped : Swapped outside middle next path head root) :
    Swapped outside names { next with created := [] } path head root where
  formed := { swapped.formed with made := forall_mem_nil _ }
  rooted := { swapped.rooted with }
  grows := { more.grows.trans swapped.grows with }
  snapshots := swapped.snapshots.trans more.snapshots
  rootHead := swapped.rootHead
  leaves := by
    intro other found node resolves present kind
    have before : next.resolve other = some found := by
      rw [← resolves]
      apply resolveUnder_congr <;> rfl
    rw [← more.resolve formed rooted]
    exact swapped.leaves other found node before present kind

theorem Swapped.file {other : List Name} (swapped : Swapped outside names next path head root)
    (rooted : names.Rooted) (file : next.FileAt outside next.rootHead other hashes) :
    (other = path ∧ ∃ node, next.repo head = some node ∧ node.kind = .file ∧
        node.contentHash = outside.of (outside.pack hashes)) ∨
      other ≠ path ∧ names.FileAt outside names.rootHead other hashes := by
  obtain ⟨found, node, resolves, present, kind, content⟩ := file
  have leaf : node.kind ≠ .directory := by
    rw [kind]
    decide
  rcases swapped.leaves other found node resolves present leaf with ⟨same, own⟩ | ⟨ne, old⟩
  · rw [own] at present
    exact .inl ⟨same, node, present, kind, content⟩
  · have there := formed.present_before swapped.grows rooted.root.present old present
    exact .inr ⟨ne, found, node, old, there, kind, content⟩

theorem updated_of_rebuilt {dir below : Hash} (listed : names.childrenOf dir = some children)
    (more : names.Extends outside next)
    (rebuilt : next.childrenOf root = some (insert part below children))
    (directory : next.IsDir root)
    (mem : ∀ path found node, next.resolveUnder below path = some found →
      next.repo found = some node → node.kind ≠ .directory →
      path = rest ∧ found = head ∨
        path ≠ rest ∧ names.resolveUnder dir (part :: path) = some found) :
    Updated outside names next dir (part :: rest) head root where
  more := more
  directory := directory
  leaves := by
    intro path found node resolves present kind
    cases path with
    | nil =>
      obtain ⟨own, here, same⟩ := directory
      have equal : root = found := some.inj resolves
      rw [← equal, here] at present
      exact absurd (some.inj present ▸ same) kind
    | cons step path =>
      rw [resolveUnder_cons rebuilt, find_insert] at resolves
      by_cases same : step = part
      · rw [if_pos same] at resolves
        rw [same]
        rcases mem path found node resolves present kind with ⟨equal, own⟩ | ⟨other, before⟩
        · exact .inl ⟨by rw [equal], own⟩
        · exact .inr ⟨fun equal => other (cons.inj equal).2, before⟩
      · rw [if_neg same] at resolves
        refine .inr ⟨fun equal => same (cons.inj equal).1, ?_⟩
        obtain ⟨child, listing, below⟩ := bind_eq_some_iff.mp resolves
        have stays := formed.intact.resolveUnder_grows more.grows path
          (formed.intact.child listed _ (mem_of_find listing))
        rw [resolveUnder_cons listed, listing]
        exact stays.symm.trans below

/-- The children of a directory rebuilt over a child are there. -/
theorem insert_present {dir below : Hash} (part : Name)
    (listed : names.childrenOf dir = some children) (grows : names.Grows middle)
    (present : ∃ node, middle.repo below = some node) :
    ∀ entry ∈ insert part below children, ∃ child, middle.repo entry.2 = some child := by
  intro entry mem
  rcases mem_insert mem with same | before
  · rw [same]
    exact present
  · obtain ⟨child, found⟩ := formed.intact.child listed entry before
    exact ⟨child, grows.repo _ _ found⟩

variable [DecidableEq Hash] {leaf : VersionNode Hash} (lawful : outside.Lawful)

include lawful

theorem rebuild_leaf {dir : Hash} (listed : names.childrenOf dir = some children)
    (there : names.repo head = some leaf) (kind : leaf.kind ≠ .directory) (part : Name) (time : Nat)
    :
    wp (newDirNode outside (insert part head children) dir time)
      (fun root next => Updated outside names next dir [part] head root) never
      names := by
  have made := newDirNode_spec lawful formed
    (insert_present formed part listed (.refl names) ⟨leaf, there⟩) dir time
  refine wp_imp made fun root next built => ?_
  obtain ⟨more, rebuilt, directory⟩ := built
  refine updated_of_rebuilt formed listed more rebuilt directory ?_
  intro path found node resolves _ _
  cases path with
  | nil => exact .inl ⟨rfl, (some.inj resolves).symm⟩
  | cons step path =>
    have childless := childrenOf_other (more.grows.repo _ _ there) kind
    rw [resolveUnder_childless childless] at resolves
    cases resolves

theorem Updated.rebuild {dir child below : Hash} {lower : Namespace Hash Name}
    (listed : names.childrenOf dir = some children) (more : names.Extends outside middle)
    (part : Name) (time : Nat) (updated : Updated outside middle lower child rest head below)
    (inherited : ∀ path found node, middle.resolveUnder child path = some found →
      lower.repo found = some node → node.kind ≠ .directory →
      names.resolveUnder dir (part :: path) = some found) :
    wp (newDirNode outside (insert part below children) dir time)
      (fun root next => Updated outside names next dir (part :: rest) head root) never
      lower := by
  obtain ⟨own, mem, -⟩ := updated.directory
  have whole := more.trans updated.more
  have made := newDirNode_spec lawful updated.more.formed
    (insert_present formed part listed whole.grows ⟨own, mem⟩) dir time
  refine wp_imp made fun root next built => ?_
  obtain ⟨again, rebuilt, directory⟩ := built
  refine updated_of_rebuilt formed listed (whole.trans again) rebuilt directory ?_
  intro path found node resolves present kind
  have stays := updated.more.formed.intact.resolveUnder_grows again.grows path ⟨own, mem⟩
  rw [stays] at resolves
  have before := updated.more.formed.present_before again.grows ⟨own, mem⟩ resolves present
  rcases updated.leaves path found node resolves before kind with fine | ⟨other, old⟩
  · exact .inl fine
  · exact .inr ⟨other, inherited path found node old before kind⟩

/-- Setting a path below a directory. It fails only if the path does not resolve. -/
theorem setPathRecursive_spec (kind : leaf.kind ≠ .directory) (time : Nat) (parts : List Name)
    {dir : Hash} (there : names.repo head = some leaf) :
    wp (setPathRecursive outside head time parts dir)
      (fun root next => Updated outside names next dir parts head root)
      (fun next => names.Extends outside next ∧
        (parts ≠ [] → names.resolveUnder dir parts = none)) names := by
  induction parts generalizing names dir with
  | nil => exact ⟨formed.extends_self, fun nonempty => absurd rfl nonempty⟩
  | cons part rest ih =>
    cases listed : names.childrenOf dir with
    | none =>
      have nothing : names.resolveUnder dir (part :: rest) = none := resolveUnder_childless listed
      cases rest with
      | nil | cons =>
        unfold setPathRecursive
        rw [wp_bind, wp_get, listed]
        exact ⟨formed.extends_self, fun _ => nothing⟩
    | some children =>
      cases rest with
      | nil =>
        have rebuilt := rebuild_leaf formed lawful listed there kind part time
        unfold setPathRecursive
        rw [wp_bind, wp_get, listed]
        dsimp only
        cases found : find part children with
        | none =>
          exact wp_total rebuilt fun _ _ updated => updated
        | some child =>
          obtain ⟨node, here⟩ := formed.intact.child listed _ (mem_of_find found)
          dsimp only at here ⊢
          rw [here]
          exact wp_total rebuilt fun _ _ updated => updated
      | cons next rest =>
        unfold setPathRecursive
        rw [wp_bind, wp_get, listed]
        dsimp only
        cases found : find part children with
        | none =>
          have missing : names.resolveUnder dir (part :: next :: rest) = none := by
            rw [resolveUnder_cons listed, found]
            rfl
          have made := newDirNode_spec lawful formed (forall_mem_nil _) dir time
          dsimp only
          rw [wp_bind]
          refine wp_total made fun made middle built => ?_
          obtain ⟨more, empty, own, here, directory⟩ := built
          rw [wp_bind]
          refine wp_mono (ih more.formed (more.grows.repo _ _ there))
            (fun below lower updated => ?_)
            fun lower failed => ⟨more.trans failed.1, fun _ => missing⟩
          refine wp_total (updated.rebuild formed lawful listed more part time ?_)
            fun _ _ done => done
          intro path target node resolves present kind
          cases path with
          | nil =>
            have same : made = target := some.inj resolves
            rw [← same, updated.more.grows.repo _ _ here] at present
            exact absurd (some.inj present ▸ directory) kind
          | cons step path =>
            rw [resolveUnder_cons empty] at resolves
            cases resolves
        | some child =>
          obtain ⟨node, here⟩ := formed.intact.child listed _ (mem_of_find found)
          have through : ∀ path, names.resolveUnder dir (part :: path) =
              names.resolveUnder child path := by
            intro path
            rw [resolveUnder_cons listed, found]
            rfl
          dsimp only at here ⊢
          rw [here]
          dsimp only
          split_ifs with directory
          · rw [wp_bind]
            refine wp_mono (ih formed there) (fun below lower updated => ?_)
              fun lower failed => ⟨failed.1, fun _ => ?_⟩
            · refine wp_total
                (updated.rebuild formed lawful listed formed.extends_self part time ?_)
                fun _ _ done => done
              intro path target node resolves _ _
              rw [through path]
              exact resolves
            · rw [through]
              exact failed.2 (cons_ne_nil _ _)
          · refine ⟨formed.extends_self, fun _ => ?_⟩
            rw [through]
            exact resolveUnder_childless (childrenOf_other here directory)

/-- Setting a path. It fails only if the path does not resolve. -/
theorem setPathAt_spec (kind : leaf.kind ≠ .directory) (time : Nat) (path : List Name)
    (rooted : names.Rooted) (there : names.repo head = some leaf) :
    wp (setPathAt outside path head time)
      (fun root next => Swapped outside names next path head root)
      (fun next => names.Extends outside next ∧ (path ≠ [] → names.resolve path = none))
      names := by
  unfold setPathAt
  split_ifs with empty
  · exact ⟨formed.extends_self, fun nonempty => absurd empty nonempty⟩
  · rw [wp_bind, wp_get]
    refine wp_seq (setPathRecursive_spec formed lawful kind time path there)
      (fun root next updated => ?_)
    have stays := updated.more.rooted rooted
    rw [wp_bind, wp_modify, wp_pure]
    exact
      { formed := { updated.more.formed with }
        rooted :=
          { root := updated.directory
            chain := ⟨time, getLast?_concat⟩
            snapshots := stays.snapshots }
        grows := ⟨updated.more.grows.repo, updated.more.grows.dirs⟩
        snapshots := updated.more.snapshots
        rootHead := rfl
        leaves := by
          intro other found node resolves
          unfold resolve at resolves
          have before : next.resolveUnder root other = some found := by
            rw [← resolves]
            apply resolveUnder_congr <;> rfl
          exact updated.leaves other found node before }

end Path

section Roots

section

variable [DecidableEq Hash] (outside : Outside Hash Name) (time : Nat)

theorem fresh_repo : (fresh outside time).repo (fresh outside time).rootHead =
    some (rootNode outside time) := by
  unfold fresh
  dsimp only
  exact update_self _ _ _

theorem fresh_dirs : (fresh outside time).dirs (outside.dirHash []) = some [] := by
  unfold fresh
  dsimp only
  exact update_self _ _ _

theorem formed_fresh : Formed outside (fresh outside time) := by
  have only : ∀ hash node, (fresh outside time).repo hash = some node →
      hash = outside.nodeHash (rootNode outside time) ∧ node = rootNode outside time := by
    intro hash node found
    unfold fresh at found
    dsimp only at found
    rcases Table.update_eq_some found with same | before
    · exact same
    · cases before.2
  refine ⟨?_, ?_, ?_, ?_, ?_, ?_⟩
  · intro hash node found
    obtain ⟨same, equal⟩ := only hash node found
    rw [same, equal]
  · intro content children found
    unfold fresh at found
    dsimp only at found
    rcases Table.update_eq_some found with ⟨same, equal⟩ | before
    · rw [same, equal]
    · cases before.2
  · intro hash node found _
    rw [(only hash node found).2]
    exact ⟨[], fresh_dirs outside time, forall_mem_nil _⟩
  · intro hash node found
    rw [(only hash node found).2]
    exact Nat.zero_le 1
  · intro hash node found kind
    rw [(only hash node found).2] at kind
    cases kind
  · intro made mem
    exact absurd mem not_mem_nil

theorem rooted_fresh : (fresh outside time).Rooted where
  root := ⟨rootNode outside time, fresh_repo outside time, rfl⟩
  chain := ⟨time, rfl⟩
  snapshots := by
    intro name root taken
    cases taken

/-- A fresh namespace has no files. -/
theorem not_fileAt_fresh [LinearOrder Name] (path : List Name) (hashes : List Hash) :
    ¬ (fresh outside time).FileAt outside (fresh outside time).rootHead path hashes := by
  rintro ⟨head, node, resolves, found, kind, -⟩
  have root := fresh_repo outside time
  have empty := (childrenOf_directory root rfl).trans (fresh_dirs outside time)
  cases path with
  | nil =>
    have same : (fresh outside time).rootHead = head := some.inj resolves
    rw [← same, root] at found
    rw [← some.inj found] at kind
    cases kind
  | cons part rest =>
    rw [resolveUnder_cons empty] at resolves
    cases resolves

end

theorem Rooted.snapshot [LinearOrder Name] (rooted : names.Rooted) (name : Name) :
    (names.snapshot name).Rooted where
  root := rooted.root
  chain := rooted.chain
  snapshots := by
    intro other root taken
    unfold Namespace.snapshot at taken
    dsimp only at taken
    rcases Table.update_eq_some taken with ⟨-, equal⟩ | before
    · rw [equal]
      exact rooted.root
    · exact rooted.snapshots other root before.2

end Roots

end Namespace

end LionFS.Cluster
