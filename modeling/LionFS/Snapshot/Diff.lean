import LionFS.Data.Assoc
import Mathlib.Data.Finset.Sort
import Mathlib.Data.String.Basic

/-!
# The difference of two snapshots

`timetravel::diff` walks two frozen namespaces and compares what it meets by size
and time. The walk goes on below the entries of type 4, but directories are
stored as type 2, so only the top levels are ever compared. A path is the list of
its names.
-/
namespace LionFS.Snapshot
open Assoc List

structure DirEntry where
  ino : Nat
  name : String
  fileType : Nat

/-- What the walk reads of an inode. -/
structure Stat where
  size : Nat
  mtime : Int
deriving DecidableEq

/-- A live snapshot, as it is read through its record. -/
structure FrozenNamespace where
  /-- `SnapshotManager::read_inode_in_record`. -/
  inode : Nat → Option Stat
  /-- `DirManager::read_entries`. -/
  entries : Nat → List DirEntry
  /-- `posix::dirent_type`: 2 for a directory. -/
  types : ∀ ino, ∀ entry ∈ entries ino, entry.fileType = 1 ∨ entry.fileType = 2
  /-- A second entry of a name, which `rename` can leave behind, is not considered. -/
  names : ∀ ino, ((entries ino).map DirEntry.name).Nodup

structure WalkEntry where
  ino : Nat
  fileType : Nat
  /-- `size` and `mtime_unix`. -/
  stat : Stat

def maxWalkDepth : Nat := 64

/-- An entry that the walk skips. -/
def DirEntry.isDot (entry : DirEntry) : Bool := entry.name = "." ∨ entry.name = ".."

variable (view : FrozenNamespace)

/-- Size and time of an entry; those of a dangling one are zero. -/
def FrozenNamespace.statOf (entry : DirEntry) : Stat :=
  (view.inode entry.ino).getD ⟨0, 0⟩

/-- What the walk has met, by path. -/
abbrev WalkMap : Type := List (List String × WalkEntry)

/-- The loop body of `walk_snapshot`. -/
def visit (descend : Nat → List String → WalkMap → Option WalkMap) (path : List String)
    (out : WalkMap) (entry : DirEntry) : Option WalkMap :=
  if entry.isDot then some out
  else
    let childPath := path ++ [entry.name]
    let out := insert childPath ⟨entry.ino, entry.fileType, view.statOf entry⟩ out
    if entry.fileType = 4 then descend entry.ino childPath out else some out

/-- `walk_snapshot`, with the levels that may still be entered. -/
def walkSnapshot (view : FrozenNamespace) :
    (levels dirIno : Nat) → List String → WalkMap → Option WalkMap
  | 0, _, _, _ => none
  | levels + 1, dirIno, path, out =>
    match view.inode dirIno with
    | none => some out
    | some _ => (view.entries dirIno).foldlM (visit view (walkSnapshot view levels) path) out

inductive DiffKind where
  | added
  | removed
  | modified

structure PathDiff where
  path : List String
  kind : DiffKind
  sizeA : Option Nat
  sizeB : Option Nat

/-- The verdict of `diff` on one path. -/
def comparePath (path : List String) : Option WalkEntry → Option WalkEntry → Option PathDiff
  | some x, some y =>
    if x.stat.size ≠ y.stat.size ∨ x.stat.mtime ≠ y.stat.mtime then
      some ⟨path, .modified, some x.stat.size, some y.stat.size⟩
    else none
  | some x, none => some ⟨path, .removed, some x.stat.size, none⟩
  | none, some y => some ⟨path, .added, none, some y.stat.size⟩
  | none, none => none

/-- `timetravel::diff`. -/
def diff (a b : FrozenNamespace) : Option (List PathDiff) := do
  let left ← walkSnapshot a (maxWalkDepth + 1) 1 [] []
  let right ← walkSnapshot b (maxWalkDepth + 1) 1 [] []
  let paths := ((left ++ right).map Prod.fst).toFinset.sort (· ≤ ·)
  pure (paths.filterMap fun path => comparePath path (find path left) (find path right))

/-- The entry of a name in a directory. -/
def FrozenNamespace.entryOf (dirIno : Nat) (name : String) : Option DirEntry :=
  (view.inode dirIno).bind fun _ =>
    (view.entries dirIno).find? fun entry => name = entry.name ∧ entry.isDot = false

/-- Size and time of a path below a directory, if it exists. -/
def FrozenNamespace.statAt (view : FrozenNamespace) : (dirIno : Nat) → List String → Option Stat
  | _, [] => none
  | dirIno, [name] => (view.entryOf dirIno name).map view.statOf
  | dirIno, name :: rest =>
    (view.entryOf dirIno name).bind fun entry =>
      if entry.fileType = 2 then view.statAt entry.ino rest else none

/-- What is added from one side is removed from the other. -/
def PathDiff.swapped (change : PathDiff) : PathDiff :=
  { path := change.path, sizeA := change.sizeB, sizeB := change.sizeA
    kind := match change.kind with
      | .added => .removed
      | .removed => .added
      | .modified => .modified }

/-- The difference lists the paths that exist on one side only or differ in size or time, each
once, and the difference the other way is the same list with its sides swapped. -/
def FrozenNamespace.DiffExact (a b : FrozenNamespace) : Prop :=
  ∃ out, diff a b = some out ∧ diff b a = some (out.map PathDiff.swapped) ∧
    (out.map PathDiff.path).Nodup ∧ ∀ path, path.length ≤ maxWalkDepth + 1 →
      (path ∈ out.map PathDiff.path ↔ a.statAt 1 path ≠ b.statAt 1 path)

/-- Entries of which none is of type 4 are met one by one. -/
theorem foldlM_visit {view : FrozenNamespace} {entries : List DirEntry}
    (types : ∀ entry ∈ entries, entry.fileType = 1 ∨ entry.fileType = 2)
    (names : (entries.map DirEntry.name).Nodup)
    (descend : Nat → List String → WalkMap → Option WalkMap) (out : WalkMap) :
    ∃ next, entries.foldlM (visit view descend []) out = some next ∧
      ∀ path, (find path next).map WalkEntry.stat =
        ((entries.find? fun entry => path = [entry.name] ∧ entry.isDot = false).map
          view.statOf).or ((find path out).map WalkEntry.stat) := by
  induction entries generalizing out with
  | nil => exact ⟨out, rfl, fun path => rfl⟩
  | cons entry rest ih =>
    obtain ⟨apart, distinct⟩ := nodup_cons.mp names
    have later := ih (forall_mem_cons.mp types).2 distinct
    have plain := types entry mem_cons_self
    cases dot : entry.isDot with
    | true =>
      obtain ⟨next, walked, found⟩ := later out
      refine ⟨next, ?_, fun path => ?_⟩
      · simp [visit, dot, walked]
      · simp [found, dot]
    | false =>
      obtain ⟨next, walked, found⟩ :=
        later (insert [entry.name] ⟨entry.ino, entry.fileType, view.statOf entry⟩ out)
      refine ⟨next, ?_, fun path => ?_⟩
      · rw [foldlM_cons, visit, dot, if_neg Bool.false_ne_true, if_neg (by omega)]
        exact walked
      · rw [found, find_insert, find?_cons]
        by_cases own : path = [entry.name]
        · have absent : rest.find? (fun other => path = [other.name] ∧ other.isDot = false) =
              none := by
            refine find?_eq_none.mpr fun other mem same => apart (mem_map.mpr ⟨other, mem, ?_⟩)
            simp_all
          rw [absent, if_pos own]
          simp [own, dot]
        · simp [own]

/-- Only the top level is met. -/
theorem walkSnapshot_top : ∃ out, walkSnapshot view (maxWalkDepth + 1) 1 [] [] = some out ∧
      ∀ path, (find path out).map WalkEntry.stat =
        if path.length = 1 then view.statAt 1 path else none := by
  unfold walkSnapshot
  cases root : view.inode 1 with
  | none =>
    refine ⟨[], rfl, fun path => ?_⟩
    match path with
    | [] => rfl
    | [name] => simp [find, FrozenNamespace.statAt, FrozenNamespace.entryOf, root]
    | _ :: _ :: _ => rfl
  | some stat =>
    obtain ⟨out, walked, found⟩ :=
      @foldlM_visit view _ (view.types 1) (view.names 1) (walkSnapshot view maxWalkDepth) []
    refine ⟨out, walked, fun path => ?_⟩
    rw [found]
    match path with
    | [] => simp [find]
    | [name] =>
      simp [find, FrozenNamespace.statAt, FrozenNamespace.entryOf, root]
    | _ :: _ :: _ => simp [find]

theorem comparePath_swapped (path : List String) (x y : Option WalkEntry) :
    comparePath path y x = (comparePath path x y).map PathDiff.swapped := by
  cases x with
  | none => cases y <;> rfl
  | some x =>
    cases y with
    | none => rfl
    | some y =>
      by_cases same : x.stat.size = y.stat.size ∧ x.stat.mtime = y.stat.mtime
      · simp [comparePath, same]
      · simp [comparePath, PathDiff.swapped, eq_comm, not_and_or.mp same]

/-- A path is listed exactly if its sides differ. -/
theorem comparePath_path (path : List String) (x y : Option WalkEntry) :
    (comparePath path x y).map PathDiff.path =
      Option.guard (fun _ => x.map WalkEntry.stat ≠ y.map WalkEntry.stat) path := by
  cases x with
  | none => cases y <;> rfl
  | some x =>
    cases y with
    | none => rfl
    | some y =>
      obtain ⟨_, _, size, mtime⟩ := x
      obtain ⟨_, _, other, later⟩ := y
      by_cases same : size = other ∧ mtime = later
      · simp [comparePath, same]
      · simp [comparePath, same, not_and_or.mp same]

/-- The difference lists the paths of the top level that differ. -/
theorem diff_lists (a b : FrozenNamespace) :
    ∃ out, diff a b = some out ∧ diff b a = some (out.map PathDiff.swapped) ∧
      (out.map PathDiff.path).Nodup ∧ ∀ path, path ∈ out.map PathDiff.path ↔
        path.length = 1 ∧ a.statAt 1 path ≠ b.statAt 1 path := by
  obtain ⟨left, walkedA, foundA⟩ := walkSnapshot_top a
  obtain ⟨right, walkedB, foundB⟩ := walkSnapshot_top b
  have listed : (fun path => (comparePath path (find path left) (find path right)).map
      PathDiff.path) = Option.guard fun path =>
        (find path left).map WalkEntry.stat ≠ (find path right).map WalkEntry.stat :=
    funext fun path => comparePath_path path _ _
  unfold diff
  rw [walkedA, walkedB]
  refine ⟨_, rfl, ?_, ?_, fun path => ?_⟩
  · show some _ = some _
    rw [map_filterMap, map_append, map_append, toFinset_append, toFinset_append, Finset.union_comm]
    simp only [← comparePath_swapped]
  · rw [map_filterMap, listed, filterMap_eq_filter]
    exact (Finset.sort_nodup _ _).filter _
  · rw [map_filterMap, listed, filterMap_eq_filter, mem_filter, Finset.mem_sort, mem_toFinset,
      foundA, foundB]
    constructor
    · rintro ⟨-, differ⟩
      by_cases one : path.length = 1
      · simpa [one] using differ
      · simp [one] at differ
    · rintro ⟨one, differ⟩
      refine ⟨?_, by simpa [one] using differ⟩
      by_contra absent
      have none_left : find path left = none := find_eq_none.mpr (by grind)
      have none_right : find path right = none := find_eq_none.mpr (by grind)
      have in_a := foundA path
      have in_b := foundB path
      rw [none_left, if_pos one] at in_a
      rw [none_right, if_pos one] at in_b
      exact differ (in_a.symm.trans in_b)

/-- The difference is exact if and only if the namespaces agree below their top levels. -/
theorem diff_exact_iff (a b : FrozenNamespace) : a.DiffExact b ↔
    ∀ path, 2 ≤ path.length → path.length ≤ maxWalkDepth + 1 →
      a.statAt 1 path = b.statAt 1 path := by
  obtain ⟨out, forth, back, nodup, listed⟩ := diff_lists a b
  constructor
  · rintro ⟨other, same, -, -, exact⟩ path deep within
    obtain rfl := Option.some_inj.mp (forth.symm.trans same)
    by_contra differ
    have top := ((listed path).mp ((exact path within).mpr differ)).1
    omega
  · intro agree
    refine ⟨out, forth, back, nodup, fun path within => (listed path).trans ⟨And.right, ?_⟩⟩
    intro differ
    refine ⟨?_, differ⟩
    by_contra other
    refine differ ?_
    match path with
    | [] => rfl
    | [_] => exact absurd rfl other
    | _ :: _ :: _ => exact agree _ (by simp) within

/-- A directory at the root, with a file in it or empty. -/
def oneDirectory (full : Bool) : FrozenNamespace where
  inode _ := some ⟨0, 0⟩
  entries ino :=
    if ino = 1 then [⟨2, "d", 2⟩] else if ino = 2 ∧ full then [⟨3, "f", 1⟩] else []
  types ino entry mem := by
    split_ifs at mem <;> simp_all
  names ino := by
    split_ifs <;> simp

/-- A file of a directory that is on one side only is missed. -/
theorem file_in_directory_missed : ¬ ∀ a b : FrozenNamespace, a.DiffExact b := by
  intro all
  obtain ⟨out, forth, -, -, exact⟩ := all (oneDirectory true) (oneDirectory false)
  obtain ⟨other, same, -, -, listed⟩ := diff_lists (oneDirectory true) (oneDirectory false)
  obtain rfl := Option.some_inj.mp (forth.symm.trans same)
  have mem := (exact ["d", "f"] (by decide)).mpr (by decide)
  exact absurd ((listed _).mp mem).1 (by decide)

end LionFS.Snapshot
