import LionFS.Cluster.Engine.Instance
import LionFS.Cluster.Engine.Operations

/-!
# Replaying the log over a checkpoint that has it

A crash after the checkpoint is durable and before the log is reset leaves both,
and the next mount replays the log over a state that already has it. Nodes, child
maps, roots and snapshots are entered again as they are. Changes of counts are
applied again, as differences, and a count that falls below zero stays zero. So a
count comes back if its changes add up to zero, or if they add up to less and it
is what the changes after the last zero add up to.
-/
namespace LionFS.Cluster
open Run
open Function (update_self update_of_ne update)
open LionFS Extents Machine
open Checkpoint (checkpointOffset checkpointAreaSize framedWith)
namespace Engine
variable {Hash Name : Type} [DecidableEq Hash]
section Counts

/-- A count after changes, none of which takes it below zero. -/
def clamped (count : Nat) (changes : List Int) : Nat :=
  changes.foldl (fun count change => (max ((count : Int) + change) 0).toNat) count

/-- The greatest sum of the last changes, not of all. -/
def peak : List Int → Int
  | [] => 0
  | _ :: rest => max rest.sum (peak rest)

/-- The changes add up to zero and their last ones never to more than a count, or they add up to
less and their last ones at best to the count. -/
def Balanced (count : Nat) (changes : List Int) : Prop :=
  changes.sum = 0 ∧ peak changes ≤ count ∨ changes.sum < 0 ∧ peak changes = count

/-- A clamped count is the plain sum or the greatest sum of last changes. -/
theorem clamped_eq (changes : List Int) (count : Nat) :
    (clamped count changes : Int) = max (count + changes.sum) (peak changes) := by
  induction changes generalizing count with
  | nil =>
    rw [List.sum_nil]
    change (count : Int) = max ((count : Int) + 0) (0 : Int)
    omega
  | cons change rest ih =>
    have next := ih (max ((count : Int) + change) 0).toNat
    change (clamped (max ((count : Int) + change) 0).toNat rest : Int) =
      max (count + (change :: rest).sum) (max rest.sum (peak rest))
    rw [next, List.sum_cons]
    omega

/-- Changes that are balanced are those that give the count back. -/
theorem clamped_self_iff (changes : List Int) (count : Nat) :
    clamped count changes = count ↔ Balanced count changes := by
  have sum := clamped_eq changes count
  unfold Balanced
  omega

/-- The changes of a chunk's count in some records. -/
def deltas (hash : Hash) (records : List (WalRecord Hash Name)) : List Int :=
  records.flatMap fun record =>
    match record with
    | .refOp other delta _ _ _ _ => if other = hash then [delta] else []
    | _ => []

/-- The changes of every chunk in the log are balanced at the counts of the store and of the dedup
index, which counts every change as one. -/
def Settled (engine : Engine Hash Name) : Prop :=
  ∀ hash, Balanced (engine.refcount hash) (deltas hash engine.wal) ∧
    Balanced (engine.dedup hash) ((deltas hash engine.wal).map Int.sign)

/-- A record of a change changes its own chunk. -/
theorem deltas_refOp (hash other : Hash) (delta : Int) (zone offset length : Nat) (stored : Hash) :
    deltas hash [(.refOp other delta zone offset length stored : WalRecord Hash Name)] =
      if other = hash then [delta] else [] := List.append_nil _

/-- The changes of a first record come first. -/
theorem deltas_cons (hash : Hash) (record : WalRecord Hash Name)
    (records : List (WalRecord Hash Name)) :
    deltas hash (record :: records) = deltas hash [record] ++ deltas hash records := by
  simp only [deltas, List.flatMap_cons, List.flatMap_nil, List.append_nil]

end Counts

variable [LinearOrder Name]

/-- Two engines with the same counts, root, snapshots and file contents. -/
structure Alike (outside : Outside Hash Name) (engine next : Engine Hash Name) : Prop where
  refcount : ∀ hash, next.refcount hash = engine.refcount hash
  dedup : ∀ hash, next.dedup hash = engine.dedup hash
  rootHead : next.names.rootHead = engine.names.rootHead
  snapshots : ∀ name, next.names.snapshots name = engine.names.snapshots name
  get : ∀ path, next.get outside path = engine.get outside path

/-- An engine with records of its own log replayed over it. -/
structure Replayed (engine : Engine Hash Name) (records : List (WalRecord Hash Name))
    (next : Engine Hash Name) : Prop where
  reads : ∀ zstd extent,
    next.store.store.readExtent zstd extent = engine.store.store.readExtent zstd extent
  chunkMap : next.chunkMap = engine.chunkMap
  repo : next.names.repo = engine.names.repo
  dirs : next.names.dirs = engine.names.dirs
  chain : ∃ timestamp, next.names.rootChain.getLast? = some (timestamp, next.names.rootHead)
  rootHead : next.names.rootHead = headAfter engine.names.rootHead records
  /-- The snapshots are the last ones replayed. -/
  snapshots : ∀ name, next.names.snapshots name =
    snapshotAfter name (engine.names.snapshots name) records
  /-- Changes of the store's counts are applied. -/
  refcount : ∀ hash, next.refcount hash = clamped (engine.refcount hash) (deltas hash records)
  /-- Changes of the dedup index's counts are applied. -/
  dedup : ∀ hash, next.dedup hash =
    clamped (engine.dedup hash) ((deltas hash records).map Int.sign)

section Replay
variable {outside : Outside Hash Name} {engine next : Engine Hash Name}
  {records : List (WalRecord Hash Name)}
section
variable (chain : ∃ time,
  engine.names.rootChain.getLast? = some (time, engine.names.rootHead))
include chain

theorem replayed_nil : Replayed engine [] engine where
  reads := fun _ _ => rfl
  chunkMap := rfl
  repo := rfl
  dirs := rfl
  chain := chain
  rootHead := rfl
  snapshots := fun _ => rfl
  refcount := fun _ => rfl
  dedup := fun _ => rfl

omit chain in
theorem Replayed.cons {record : WalRecord Hash Name} {last : Engine Hash Name}
    (first : Replayed engine [record] next) (later : Replayed next records last) :
    Replayed engine (record :: records) last where
  reads := fun zstd extent => (later.reads zstd extent).trans (first.reads zstd extent)
  chunkMap := later.chunkMap.trans first.chunkMap
  repo := later.repo.trans first.repo
  dirs := later.dirs.trans first.dirs
  chain := later.chain
  rootHead := by
    rw [later.rootHead, first.rootHead]
    rfl
  snapshots := by
    intro name
    rw [later.snapshots, first.snapshots]
    rfl
  refcount := by
    intro hash
    rw [later.refcount, first.refcount, deltas_cons hash record records]
    exact List.foldl_append.symm
  dedup := by
    intro hash
    rw [later.dedup, first.dedup, deltas_cons hash record records, List.map_append]
    exact List.foldl_append.symm

theorem applyWalRecord_spec {record : WalRecord Hash Name} (known : Known outside engine record) :
    wp (applyWalRecord outside record) (fun _ next => Replayed engine [record] next)
      never engine := by
  have same := replayed_nil chain
  cases record with
  | data hash payload =>
    obtain ⟨chunk, found⟩ := known
    unfold applyWalRecord
    dsimp only
    rw [wp_bind, wp_get, found]
    exact { same with }
  | vnode node =>
    exact { same with repo := Function.update_eq_self_iff.mpr known.symm }
  | dirMap content children =>
    exact { same with dirs := Function.update_eq_self_iff.mpr known.symm }
  | refOp hash delta zone offset length stored =>
    obtain ⟨chunk, found⟩ := known
    unfold applyWalRecord
    dsimp only
    rw [wp_modify, found]
    refine { same with refcount := fun other => ?_, dedup := fun other => ?_ }
    · rw [deltas_refOp]
      rcases eq_or_ne other hash with rfl | apart
      · rw [if_pos (rfl : other = other)]
        exact update_self ..
      · rw [if_neg apart.symm]
        exact update_of_ne apart ..
    · rw [deltas_refOp]
      rcases eq_or_ne other hash with rfl | apart
      · rw [if_pos (rfl : other = other)]
        refine (update_self ..).trans ?_
        change _ = (max ((engine.dedup other : Int) + delta.sign) 0).toNat
        rcases lt_trichotomy delta 0 with below | rfl | above
        · rw [if_neg (by omega), if_pos below, Int.sign_eq_neg_one_of_neg below]
          change engine.dedup other - 1 = _
          omega
        · rw [if_neg (by omega), if_neg (by omega), Int.sign_zero]
          change engine.dedup other = _
          omega
        · rw [if_pos above, Int.sign_eq_one_of_pos above]
          change engine.dedup other + 1 = _
          omega
      · rw [if_neg apart.symm]
        exact update_of_ne apart ..
  | headOp root time =>
    unfold applyWalRecord
    dsimp only
    rw [wp_modify]
    unfold Namespace.setRootFromRecovery
    by_cases current : engine.names.rootHead = root
    · rw [if_pos current]
      exact { same with rootHead := current }
    · rw [if_neg current]
      exact
        { same with
          rootHead := rfl
          chain := ⟨time, List.getLast?_concat⟩ }
  | snapshotOp name root =>
    refine { same with snapshots := fun other => ?_ }
    rcases eq_or_ne other name with rfl | apart
    · exact (update_self ..).trans (if_pos rfl).symm
    · exact (update_of_ne apart ..).trans (if_neg apart.symm).symm

theorem replay_spec (known : ∀ record ∈ records, Known outside engine record) :
    wp (Run.each records (applyWalRecord outside))
      (fun _ next => Replayed engine records next) never engine := by
  induction records generalizing engine with
  | nil => exact replayed_nil chain
  | cons record rest ih =>
    unfold Run.each
    rw [wp_bind]
    refine wp_imp (applyWalRecord_spec chain (known record List.mem_cons_self))
      fun _ next first => ?_
    have still : ∀ other ∈ rest, Known outside next other := by
      intro other mem
      refine (known other (List.mem_cons_of_mem _ mem)).mono ⟨?_, ?_⟩ ?_
      · rw [first.repo]
        exact fun _ _ found => found
      · rw [first.dirs]
        exact fun _ _ found => found
      · unfold Has
        rw [first.chunkMap]
        exact fun _ found => found
    exact wp_imp (ih first.chain still) fun _ last later => first.cons later

end

theorem Replayed.readVersion (replayed : Replayed engine records next) (head : Hash) :
    next.readVersion outside head = engine.readVersion outside head := by
  apply readVersion_congr
  · rw [replayed.repo]
  · intro hash mem
    unfold readChunk fetchAndVerify
    simp only [replayed.chunkMap, replayed.reads]

omit [DecidableEq Hash] [LinearOrder Name] in
/-- Moving the cursors writes nothing and counts nothing. -/
theorem bumpCursorsPast_frame (extents : List ExtentDescriptor) (store : Store Hash) :
    (∀ zstd extent, (bumpCursorsPast extents store).readExtent zstd extent =
        store.readExtent zstd extent) ∧
      (bumpCursorsPast extents store).refcounts = store.refcounts := by
  unfold bumpCursorsPast
  induction extents generalizing store with
  | nil => exact ⟨fun _ _ => rfl, rfl⟩
  | cons extent rest ih =>
    rw [List.foldl_cons]
    split_ifs with mem
    · exact ih _
    · exact ih store

omit [DecidableEq Hash] [LinearOrder Name] in
/-- The frame of a blob that fits in the area ends before the zones. -/
theorem frame_fits (outside : Outside Hash Name) {blob : Bytes}
    (fits : 8 + blob.length ≤ checkpointAreaSize) :
    checkpointOffset + (framedWith outside.crc blob).length ≤ dataStart := by
  have last : dataStart = checkpointOffset + checkpointAreaSize := rfl
  have length : (framedWith outside.crc blob).length = 8 + blob.length := by
    simp only [framedWith, List.length_append, Words.length_encodeBig]
  omega

/-- A checkpoint that fits in the area goes through, and what was replayed stays. -/
theorem Replayed.checkpoint (replayed : Replayed engine records next) {blob : Bytes}
    (fits : 8 + blob.length ≤ checkpointAreaSize) :
    wp (checkpoint outside blob) (fun _ last => Replayed engine records last) never next := by
  have short := frame_fits outside fits
  have inside : ¬ next.store.store.geo.totalSize <
      checkpointOffset + (framedWith outside.crc blob).length := by
    unfold Geometry.totalSize
    omega
  have written : Engine.checkpoint outside blob next =
      (some ⟨⟩, next.checkpointed (framedWith outside.crc blob)) := if_neg inside
  rw [wp_of_eq written]
  exact
    { replayed with
      reads := fun zstd extent => (readExtent_overwrite _ short _ zstd extent).trans
        (replayed.reads zstd extent) }

/-- A mount from the checkpoint of an engine and the log it left replays the log over it. -/
theorem remount_spec (ok : Consistent outside engine) {blob again : Bytes}
    (fits : 8 + blob.length ≤ checkpointAreaSize) (room : 8 + again.length ≤ checkpointAreaSize) :
    wp (remount outside blob again) (fun _ next => Replayed engine engine.wal next) never
      engine := by
  unfold remount
  rw [wp_bind, wp_modify, wp_bind, wp_get, wp_bind]
  refine wp_imp (replay_spec ok.rooted.chain fun record mem => ?_) fun _ next replayed => ?_
  · exact (ok.known record mem).mono ⟨fun _ _ found => found, fun _ _ found => found⟩
      fun _ found => found
  · have start : Replayed engine engine.wal next :=
      { replayed with
        reads := fun zstd extent => (replayed.reads zstd extent).trans
          (readExtent_overwrite engine.store.store (frame_fits outside fits)
            (engine.store.store.epoch + 1) zstd extent) }
    rw [wp_bind, wp_modify]
    split_ifs with nothing
    · exact start.checkpoint room
    · obtain ⟨reads, refcounts⟩ :=
        bumpCursorsPast_frame (next.chunkMap.map fun binding => binding.2.desc) next.store.store
      refine Replayed.checkpoint ?_ room
      exact
        { start with
          reads := fun zstd extent => (reads zstd extent).trans (start.reads zstd extent)
          refcount := fun hash => (congrFun refcounts hash).trans (start.refcount hash) }

/-- A consistent engine with its whole log replayed over it has the root and the snapshots it
had, and its paths read as they did. -/
theorem Replayed.alike_iff (ok : Consistent outside engine)
    (replayed : Replayed engine engine.wal next) : Alike outside engine next ↔ engine.Settled := by
  constructor
  · intro alike hash
    rw [← clamped_self_iff, ← clamped_self_iff, ← replayed.refcount, ← replayed.dedup]
    exact ⟨alike.refcount hash, alike.dedup hash⟩
  · intro settled
    have rootHead := replayed.rootHead.trans ok.head
    refine
      { refcount := fun hash => (replayed.refcount hash).trans
          ((clamped_self_iff _ _).mpr (settled hash).1)
        dedup := fun hash => (replayed.dedup hash).trans
          ((clamped_self_iff _ _).mpr (settled hash).2)
        rootHead := rootHead
        snapshots := fun name => (replayed.snapshots name).trans (ok.snapshots name)
        get := fun path => ?_ }
    have newest : next.names.resolveNewest path = engine.names.resolveNewest path := by
      obtain ⟨time, last⟩ := replayed.chain
      obtain ⟨before, there⟩ := ok.rooted.chain
      have under : next.names.resolveUnder engine.names.rootHead path =
          engine.names.resolveUnder engine.names.rootHead path :=
        Namespace.resolveUnder_congr replayed.repo replayed.dirs path
      unfold Namespace.resolveNewest
      rw [last, there]
      dsimp only
      rw [rootHead, replayed.repo, under]
    unfold get
    rw [newest]
    exact congrArg _ (funext replayed.readVersion)

end Replay

section Runs
variable {outside : Outside Hash Name}

/-- After a crash between a checkpoint that fits in its area and the reset of the log, the mount
gives the counts, the root, the snapshots and the contents that were checkpointed exactly when the
changes of counts in the log are balanced at the counts. -/
theorem remount_alike_iff (lawful : outside.Lawful) (config : Config) (geo : Geometry)
    (ops : List (Op Hash Name)) (last : Engine Hash Name)
    (ran : run (step outside config) ops (create outside geo) = some last) (blob again : Bytes)
    (fits : 8 + blob.length ≤ checkpointAreaSize) (room : 8 + again.length ≤ checkpointAreaSize) :
    ((remount outside blob again last).1.isSome ∧
      Alike outside last (remount outside blob again last).2) ↔ last.Settled := by
  have consistent : Consistent outside last := by
    apply @run_keeps _ _ _ (fun _ _ => True) (Consistent outside) _ _ _ _
      (consistent_create outside geo) (along_of_forall (fun _ _ => trivial) ops _) ran
    exact fun engine op next kept _ took => (kept.step lawful took).1
  obtain ⟨value, next, outcome, replayed⟩ := returns_of_wp (remount_spec consistent fits room)
  rw [outcome]
  exact (and_iff_right rfl).trans (replayed.alike_iff consistent)

/-- In every state of every run, failed operations included, what the root, the snapshots, the
directories and the log refer to is there, and so is every chunk with a count. -/
theorem consistent_always (lawful : outside.Lawful) (config : Config) (geo : Geometry)
    (ops : List (Op Hash Name)) :
    Always (step outside config) (Consistent outside) ops (create outside geo) :=
  always_of_along (fun _ _ _ kept _ took => (kept.step lawful took).1) (fun _ kept => kept)
    (consistent_create outside geo) (along_of_forall (fun _ _ => trivial) ops _)

end Runs

section Examples
open Instance

/-- A file is put. -/
def logging : List (Op Nat Nat) := [.put [1] [7, 8] 5]

/-- A file that a snapshot has is shared, deleted, collected and restored. -/
def mixing : List (Op Nat Nat) :=
  [.put [1] [7, 8] 5, .snapshot 9, .put [2] [7, 8] 6, .delete [1] 7, .gc [] ([1], [1]), .restore 9,
    .checkpoint [1]]

/-- Every operation of it is taken, and every state is consistent. -/
theorem consistent_mixing :
    (run (step numbers config) mixing (create numbers geometry)).isSome = true ∧
      Always (step numbers config) (Consistent numbers) mixing (create numbers geometry) :=
  ⟨by decide +kernel, consistent_always numbers_lawful config geometry mixing⟩

/-- The engine after the put, with its log. -/
def logged : Engine Nat Nat := reach (step numbers config) logging (create numbers geometry)

/-- The mount after the crash counts the chunks of the file twice. -/
theorem remount_counts_twice :
    ¬ ∀ (outside : Outside Nat Nat) (config : Config) (geo : Geometry) (ops : List (Op Nat Nat))
      (last : Engine Nat Nat) (blob again : Bytes), outside.Lawful →
      run (step outside config) ops (create outside geo) = some last →
      8 + blob.length ≤ checkpointAreaSize → 8 + again.length ≤ checkpointAreaSize →
      (remount outside blob again last).1.isSome ∧
        Alike outside last (remount outside blob again last).2 := by
  intro all
  have ran : run (step numbers config) logging (create numbers geometry) = some logged :=
    run_eq_reach (by decide +kernel)
  have alike := (all numbers config geometry logging logged [1] [1] numbers_lawful ran (by decide)
    (by decide)).2
  have once : logged.refcount (numbers.of [7, 8]) = 1 := by decide +kernel
  have twice : (remount numbers [1] [1] logged).2.refcount (numbers.of [7, 8]) = 2 := by
    decide +kernel
  have same := alike.refcount (numbers.of [7, 8])
  rw [once, twice] at same
  cases same

/-- A snapshot is taken after a checkpoint. -/
def entering : List (Op Nat Nat) := [.put [1] [7, 8] 5, .checkpoint [1], .snapshot 9]

/-- The engine after it, with its log. -/
def entered : Engine Nat Nat := reach (step numbers config) entering (create numbers geometry)

/-- A log without changes of counts is replayed over the checkpoint that has it. -/
theorem remount_alike_entered : Alike numbers entered (remount numbers [1] [1] entered).2 := by
  have ran : run (step numbers config) entering (create numbers geometry) = some entered :=
    run_eq_reach (by decide +kernel)
  have log : entered.wal = [.snapshotOp 9 entered.names.rootHead] := rfl
  refine ((remount_alike_iff numbers_lawful config geometry entering entered ran [1] [1] (by decide)
    (by decide)).mpr ?_).2
  intro hash
  rw [log]
  exact ⟨.inl ⟨rfl, Int.natCast_nonneg _⟩, .inl ⟨rfl, Int.natCast_nonneg _⟩⟩

end Examples
end Engine
end LionFS.Cluster
