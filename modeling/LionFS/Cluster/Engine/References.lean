import LionFS.Cluster.Engine.Instance
import LionFS.Cluster.Engine.Operations
import LionFS.Cluster.Engine.Steps
import Mathlib.Algebra.BigOperators.Group.List.Basic

/-!
# Counts of the files under the root

References are counted by the calls that put and delete files, while `restore`
swaps the root without counting. The counts cover a tree when they are at least
what its files refer to, taken together. Every operation keeps the tree under the
root covered, `restore` only if the counts cover the tree that it restores; then
the chunks of every file are there and counted, and the file is read.
-/
namespace LionFS.Cluster
open LionFS Extents Machine Relation List Option Prod
namespace Engine
variable {Hash Name : Type} [DecidableEq Hash] [LinearOrder Name] (outside : Outside Hash Name)

/-- How often some files refer to a chunk. -/
def demand (files : List (List Name × List Hash)) (hash : Hash) : Nat :=
  (files.map fun file => (references outside file.2).count hash).sum

variable (engine : Engine Hash Name)

/-- The counts are at least what the files under a root refer to, taken together. -/
def Covers (root : Hash) : Prop :=
  ∀ files : List (List Name × List Hash), (files.map fst).Nodup →
    (∀ file ∈ files, engine.names.FileAt outside root file.1 file.2) →
    ∀ hash, demand outside files hash ≤ engine.refcount hash

/-- The counts cover the tree under the root. -/
def Covered : Prop :=
  Covers outside engine engine.names.rootHead

/-- The chunks of every file under the root are there and counted. -/
def Referenced : Prop :=
  ∀ path head node, engine.names.resolve path = some head →
    engine.names.repo head = some node → node.kind = .file →
    ∃ hashes, node.contentHash = outside.of (outside.pack hashes) ∧
      ∀ hash ∈ node.contentHash :: hashes, engine.Has hash ∧ 1 ≤ engine.refcount hash

/-- Every file under the root is read, as the chunks whose hashes its version lists. -/
def Readable : Prop :=
  ∀ path head node, engine.names.resolve path = some head →
    engine.names.repo head = some node → node.kind = .file →
    ∃ chunks : List Bytes, node.contentHash = outside.of (outside.pack (chunks.map outside.of)) ∧
      engine.get outside path = some chunks.flatten

/-- An operation restores only trees that the counts cover. -/
def RestoresCovered : Op Hash Name → Prop
  | .restore name => ∀ root, engine.names.snapshots name = some root → Covers outside engine root
  | _ => True

variable {outside : Outside Hash Name} {engine next : Engine Hash Name}
section Demand

omit [LinearOrder Name] in
theorem demand_cons (file : List Name × List Hash) (files : List (List Name × List Hash))
    (hash : Hash) : demand outside (file :: files) hash =
      (references outside file.2).count hash + demand outside files hash := by
  unfold demand
  rw [map_cons, sum_cons]

theorem demand_split {files : List (List Name × List Hash)} (distinct : (files.map fst).Nodup)
    (path : List Name) :
    (∀ file ∈ files, file.1 ≠ path) ∨
      ∃ hashes others, (path, hashes) ∈ files ∧ (others.map fst).Nodup ∧
        (∀ file ∈ others, file ∈ files ∧ file.1 ≠ path) ∧
        ∀ hash, demand outside files hash =
          (references outside hashes).count hash + demand outside others hash := by
  by_cases there : ∃ file ∈ files, file.1 = path
  · obtain ⟨file, mem, same⟩ := there
    have perm := perm_cons_erase mem
    have nodup : ((file :: files.erase file).map fst).Nodup :=
      (perm.map fst).nodup_iff.mp distinct
    rw [map_cons, nodup_cons] at nodup
    refine .inr ⟨file.2, files.erase file, ?_, nodup.2, fun other among => ?_, fun hash => ?_⟩
    · rw [← same]
      exact mem
    · refine ⟨mem_of_mem_erase among, fun equal => nodup.1 ?_⟩
      rw [same, ← equal]
      exact mem_map_of_mem among
    · rw [← demand_cons]
      exact (perm.map _).sum_eq
  · push Not at there
    exact .inl there

end Demand

section Cover

/-- A tree of which nothing is added stays covered by counts that do not fall. -/
theorem Covers.mono {root other : Hash} (covers : Covers outside engine root)
    (files : ∀ path hashes, next.names.FileAt outside other path hashes →
      engine.names.FileAt outside root path hashes)
    (counts : ∀ hash, engine.refcount hash ≤ next.refcount hash) : Covers outside next other := by
  intro listed distinct found hash
  exact (covers listed distinct (fun file mem => files _ _ (found file mem)) hash).trans
    (counts hash)

variable {path : List Name}

theorem Covers.chunk {root : Hash} (covers : Covers outside engine root) (counted : engine.Counted)
    {hashes : List Hash} (file : engine.names.FileAt outside root path hashes) {hash : Hash}
    (mem : hash ∈ references outside hashes) : engine.Has hash ∧ 1 ≤ engine.refcount hash := by
  have enough := covers [(path, hashes)] (nodup_singleton _)
    (fun other among => by rw [mem_singleton.mp among]; exact file) hash
  have once := count_pos_iff.mpr mem
  rw [demand_cons] at enough
  have live : 1 ≤ engine.refcount hash := once.trans_le ((Nat.le_add_right _ _).trans enough)
  exact ⟨counted.present hash live, live⟩

theorem covered_create (outside : Outside Hash Name) (geo : Geometry) :
    Covered outside (create outside geo) := by
  intro files distinct present hash
  cases files with
  | nil => exact Nat.zero_le _
  | cons file rest =>
    exact absurd (present file mem_cons_self) (Namespace.not_fileAt_fresh outside _ _ _)

variable (lawful : outside.Lawful) (ok : Consistent outside engine)
  (covered : Covered outside engine)
include ok covered

theorem Covered.delete {head root : Hash} {marker : VersionNode Hash}
    (swapped : engine.names.Swapped outside next.names path head root)
    (found : next.names.repo head = some marker) (kind : marker.kind = .tombstone)
    (counts : (∀ hash, next.refcount hash = engine.refcount hash) ∨
      ∃ listed, engine.names.FileAt outside engine.names.rootHead path listed ∧
        ∀ hash, next.refcount hash =
          engine.refcount hash - (references outside listed).count hash) :
    Covered outside next := by
  intro files distinct present hash
  have before : ∀ file ∈ files, file.1 ≠ path ∧
      engine.names.FileAt outside engine.names.rootHead file.1 file.2 := by
    intro file mem
    rcases swapped.file ok.formed ok.rooted (present file mem) with
      ⟨-, other, here, file, -⟩ | old
    · rw [found] at here
      rw [← some.inj here, kind] at file
      cases file
    · exact old
  rcases counts with same | ⟨listed, deleted, less⟩
  · rw [same]
    exact covered files distinct (fun file mem => (before file mem).2) hash
  · have enough := covered ((path, listed) :: files) ?_ ?_ hash
    · rw [less]
      rw [demand_cons] at enough
      exact Nat.le_sub_of_add_le' enough
    · rw [map_cons, nodup_cons]
      refine ⟨fun mem => ?_, distinct⟩
      obtain ⟨file, among, same⟩ := mem_map.mp mem
      exact (before file among).1 same
    · exact forall_mem_cons.mpr ⟨deleted, fun file among => (before file among).2⟩

/-- A namespace that was extended has the files it had under its root. -/
theorem Covered.extend (more : engine.names.Extends outside next.names)
    (counts : ∀ hash, engine.refcount hash ≤ next.refcount hash) : Covered outside next := by
  refine covered.mono (fun path hashes file => ?_) counts
  have present := ok.rooted.root.present
  rw [more.rootHead] at file
  obtain ⟨head, node, resolves, found, rest⟩ := file
  rw [ok.formed.intact.resolveUnder_grows more.grows path present] at resolves
  exact ⟨head, node, resolves, ok.formed.present_before more.grows present resolves found, rest⟩

/-- In a covered tree the chunks of every file are there and counted. -/
theorem Covered.referenced : engine.Referenced outside := by
  intro path head node resolves found kind
  obtain ⟨hashes, content⟩ := ok.formed.filed head node found kind
  refine ⟨hashes, content, fun hash mem => ?_⟩
  apply covered.chunk ok.counted ⟨head, node, resolves, found, kind, content⟩
  unfold references
  rw [← content, mem_append, mem_singleton]
  exact (mem_cons.mp mem).symm

include lawful

theorem Covered.put {head root : Hash} {node : VersionNode Hash} {hashes : List Hash}
    (swapped : engine.names.Swapped outside next.names path head root)
    (found : next.names.repo head = some node)
    (content : node.contentHash = outside.of (outside.pack hashes))
    (counts : ∀ hash, next.refcount hash =
      engine.refcount hash + (references outside hashes).count hash) : Covered outside next := by
  intro files distinct present hash
  have before : ∀ file ∈ files, file.1 ≠ path →
      engine.names.FileAt outside engine.names.rootHead file.1 file.2 := by
    intro file mem ne
    rcases swapped.file ok.formed ok.rooted (present file mem) with
      ⟨same, -⟩ | ⟨-, old⟩
    · exact absurd same ne
    · exact old
  rw [counts]
  rcases demand_split distinct path with elsewhere | ⟨own, others, mem, nodup, rest, split⟩
  · have enough := covered files distinct
      (fun file mem => before file mem (elsewhere file mem)) hash
    exact enough.trans (Nat.le_add_right _ _)
  · have enough := covered others nodup
      (fun file among => before file (rest file among).1 (rest file among).2) hash
    have same : own = hashes := by
      rcases swapped.file ok.formed ok.rooted (present _ mem) with
        ⟨-, other, here, -, listed⟩ | ⟨ne, -⟩
      · rw [found] at here
        rw [← some.inj here, content] at listed
        have packed := congrArg outside.unpack (lawful.of_injective listed)
        rw [lawful.unpack_pack, lawful.unpack_pack] at packed
        exact (some.inj packed).symm
      · exact absurd rfl ne
    rw [split, same, Nat.add_comm]
    exact Nat.add_le_add_right enough _

/-- Every operation but `encode_ec_groups` keeps the tree under the root covered, if it restores
only trees that the counts cover. -/
theorem Covered.step {config : Config} {op : Op Hash Name}
    (restores : engine.RestoresCovered outside op) (plain : ∀ groups, op ≠ .encode groups)
    (taken : step outside config engine op = some next) : Covered outside next := by
  cases op with
  | put path data time =>
    cases taken
    refine Run.state_of_wp (Run.wp_mono (put_spec lawful ok path data time)
      (fun head next done => ?_) fun next failed => ?_)
    · obtain ⟨-, ⟨root, swapped⟩, ⟨node, found, -, content⟩, counts⟩ := done
      exact covered.put lawful ok swapped found content counts
    · exact covered.extend ok failed.2.1 failed.2.2
  | delete path time =>
    cases taken
    refine Run.state_of_wp (Run.wp_mono (delete_spec lawful ok path time)
      (fun head next done => ?_) fun next failed => ?_)
    · obtain ⟨-, ⟨root, swapped⟩, ⟨marker, found, kind⟩, counts⟩ := done
      exact covered.delete ok swapped found kind counts
    · obtain ⟨-, more, same | ⟨listed, file, hash, mem, absent⟩⟩ := failed
      · exact covered.extend ok more fun hash => (same hash).ge
      · exact absurd (covered.chunk ok.counted file mem).1 absent
  | snapshot name =>
    cases taken
    exact covered.mono (fun path hashes file => file.congr rfl rfl) fun _ => le_refl _
  | restore name =>
    cases taken
    rcases restore_cases ok name with ⟨root, node, there, -, same⟩ | ⟨-, same⟩
    · rw [same]
      exact (restores root there).mono (fun path hashes file => file.congr rfl rfl)
        fun _ => le_refl _
    · rw [same]
      exact covered
  | checkpoint blob =>
    cases taken
    obtain ⟨-, names, counts⟩ := (checkpoint_saves outside blob engine).keeps ok
    exact covered.mono (fun path hashes file => names ▸ file) fun hash => (congrFun counts hash).ge
  | gc picks blobs =>
    obtain ⟨⟨outcome, last⟩, ran, same⟩ := map_eq_some_iff.mp taken
    obtain ⟨-, names, counts⟩ := gc_spec lawful ok ran
    rw [← same]
    refine covered.mono (fun path hashes file => ?_) fun hash => (counts hash).ge
    dsimp only at file
    rw [names] at file
    exact file
  | encode groups => exact absurd rfl (plain groups)

end Cover

section Legible

/-- What is known of the chunk map and the store, and that everything written is a wrapped chunk
of its hash. -/
structure Legible (outside : Outside Hash Name) (engine : Engine Hash Name) : Prop where
  /-- What is known of the chunk map and the store. -/
  fit : Fit outside engine
  /-- What is written is a wrapped chunk of its hash. -/
  sealed : ∀ hash payload, engine.store.content hash = some payload →
    Sealed outside engine.store hash

omit [LinearOrder Name] in
/-- One change of the store keeps it legible. -/
theorem Legible.touch (lawful : outside.Lawful) (legible : Legible outside engine)
    (touch : Touch outside False engine next) : Legible outside next :=
  ⟨touch.fit lawful.inverts legible.fit, touch.sealed lawful legible.sealed⟩

theorem Legible.step (lawful : outside.Lawful) {config : Config} {op : Op Hash Name}
    (legible : Legible outside engine) (plain : ∀ groups, op ≠ .encode groups)
    (taken : step outside config engine op = some next) : Legible outside next := by
  by_cases collects : ∃ picks blobs, op = .gc picks blobs
  · obtain ⟨picks, blobs, same⟩ := collects
    rw [same] at taken
    obtain ⟨⟨outcome, last⟩, ran, equal⟩ := map_eq_some_iff.mp taken
    obtain ⟨saved, cleaned, saves, cleaning, ends⟩ := gc_cases lawful.inverts ran
    have before := legible.touch lawful (saves.touch False)
    have fit := cleaning.fit before.fit
    have sealed : ∀ hash payload, cleaned.store.content hash = some payload →
        Sealed outside cleaned.store hash := by
      intro hash payload known
      unfold Sealed
      rw [cleaning.content] at known ⊢
      exact before.sealed hash payload known
    rw [← equal]
    rcases ends with ⟨-, same⟩ | ⟨-, last⟩
    · rw [same]
      exact ⟨fit, sealed⟩
    · have swept : Legible outside cleaned.sweep := ⟨fit.sweep, sealed⟩
      exact swept.touch lawful (last.touch False)
  · have touches := step_touches taken fun picks blobs same => collects ⟨picks, blobs, same⟩
    have none : (∃ groups, op = .encode groups) = False :=
      eq_false fun ⟨groups, same⟩ => plain groups same
    rw [none] at touches
    clear taken none
    induction touches with
    | refl => exact legible
    | tail _ touch ih => exact ih.touch lawful touch

/-- Files whose chunks are there and counted are read, after careful calls. -/
theorem Legible.readable (lawful : outside.Lawful) (ok : Consistent outside engine)
    (legible : Legible outside engine) (referenced : engine.Referenced outside)
    (careful : engine.careful = true) : engine.Readable outside := by
  intro path head node resolves found kind
  obtain ⟨hashes, content, chunks⟩ := referenced path head node resolves found kind
  have read : ∀ hash ∈ node.contentHash :: hashes,
      ∃ plain, engine.readChunk outside hash = some plain := by
    intro hash mem
    obtain ⟨⟨chunk, entered⟩, live⟩ := chunks hash mem
    obtain ⟨extent, payload, -, -, known, -⟩ := legible.fit.placed hash chunk entered
    exact readChunk_of_sealed legible.fit careful
      (fun extent latest => (legible.fit.sound careful).1.latest hash extent latest live)
      ⟨chunk, entered⟩ (legible.sealed hash payload known)
  obtain ⟨bytes, hashed, reads⟩ := readVersion_of_file lawful found kind content read
  refine ⟨bytes, ?_, ?_⟩
  · rw [hashed]
    exact content
  · unfold get
    rw [ok.formed.resolveNewest_eq ok.rooted, resolves]
    exact reads

end Legible

section Runs
variable {config : Config} {geo : Geometry}

/-- What holds in every state of a run that restores only covered trees and makes no stripes. -/
def Kept (outside : Outside Hash Name) (geo : Geometry) (engine : Engine Hash Name) : Prop :=
  Consistent outside engine ∧ Covered outside engine ∧
    (geo.zoneSize ≤ 2 ^ 32 → Legible outside engine)

theorem Kept.step (lawful : outside.Lawful) (engine : Engine Hash Name) (op : Op Hash Name)
    (next : Engine Hash Name) (kept : Kept outside geo engine)
    (allowed : (∀ groups, op ≠ .encode groups) ∧ engine.RestoresCovered outside op)
    (taken : step outside config engine op = some next) : Kept outside geo next :=
  ⟨(kept.1.step lawful taken).1, kept.2.1.step lawful kept.1 allowed.2 allowed.1 taken,
    fun small => (kept.2.2 small).step lawful allowed.1 taken⟩

theorem kept_create (outside : Outside Hash Name) (geo : Geometry) :
    Kept outside geo (create outside geo) :=
  ⟨consistent_create outside geo, covered_create outside geo, fun small =>
    ⟨fit_create outside small, fun _ _ known => nomatch known⟩⟩

theorem Covered.restores (covered : Covered outside engine)
    (name : Name) : (engine.snapshot name).RestoresCovered outside (.restore name) := by
  intro root taken
  have same : engine.names.rootHead = root := by
    have entered : (engine.snapshot name).names.snapshots name = some engine.names.rootHead :=
      Function.update_self _ _ _
    rw [taken] at entered
    exact (some.inj entered).symm
  rw [← same]
  exact covered.mono (fun path hashes file => file.congr rfl rfl) fun _ => le_refl _

end Runs

section Examples
open Instance

/-- A file is put, a snapshot is taken, the file is deleted and the snapshot is restored. -/
def revival : List (Op Nat Nat) :=
  [.put [1] [7, 8] 5, .snapshot 9, .delete [1] 6, .restore 9]

/-- The engine after it. -/
def revived : Engine Nat Nat := reach (step numbers config) revival (create numbers geometry)

/-- A file is put, a snapshot is taken and restored at once, and garbage is collected. -/
def returning : List (Op Nat Nat) := [.put [1] [7, 8] 5, .snapshot 9, .restore 9, .gc [] ([], [])]

end Examples
end Engine
end LionFS.Cluster
