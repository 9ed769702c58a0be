import LionFS.Cluster.Engine.Instance
import LionFS.Cluster.Engine.Operations
import LionFS.Cluster.Engine.Steps

/-!
# Snapshots and garbage collection

A snapshot keeps its root, and the nodes and child maps below it stay, so a path
resolves under a restored root as it did when the snapshot was taken. Its chunks
are not kept: `delete` releases them and `gc` then drops them. They are read after
`restore` if every `gc` in between found them counted.
-/
namespace LionFS.Cluster
open Run Option LionFS Extents Machine Relation
namespace Engine
variable {Hash Name : Type} [DecidableEq Hash] [LinearOrder Name] (outside : Outside Hash Name)

/-- The chunks that reading a path reads. -/
def chunksAt (engine : Engine Hash Name) (path : List Name) : List Hash :=
  match engine.names.resolve path with
  | none => []
  | some head => engine.versionChunks outside head

/-- A `gc` goes through: the device has room for what it moves and for its checkpoints. -/
def Completes (config : Config) (engine : Engine Hash Name) : Op Hash Name → Prop
  | .gc picks blobs => (gc outside config picks blobs engine).map Prod.fst ≠ some none
  | _ => True

/-- A `gc` finds some chunks counted. -/
def CollectsNone (hashes : List Hash) (engine : Engine Hash Name) : Op Hash Name → Prop
  | .gc _ _ => ∀ hash ∈ hashes, 0 < engine.refcount hash
  | _ => True

instance (config : Config) (engine : Engine Hash Name) :
    (op : Op Hash Name) → Decidable (engine.Completes outside config op)
  | .gc _ _ => inferInstanceAs (Decidable (_ ≠ _))
  | .put _ _ _ | .delete _ _ | .snapshot _ | .restore _ | .checkpoint _ | .encode _ =>
    .isTrue trivial

instance (hashes : List Hash) (engine : Engine Hash Name) :
    (op : Op Hash Name) → Decidable (engine.CollectsNone hashes op)
  | .gc _ _ => inferInstanceAs (Decidable (∀ hash ∈ hashes, 0 < engine.refcount hash))
  | .put _ _ _ | .delete _ _ | .snapshot _ | .restore _ | .checkpoint _ | .encode _ =>
    .isTrue trivial

variable {outside : Outside Hash Name} {engine next : Engine Hash Name}
section Stock
variable {hashes : List Hash}

/-- After careful calls the extents in the chunk map are kept, and some chunks are there to be
read. -/
structure Stock (outside : Outside Hash Name) (hashes : List Hash) (engine : Engine Hash Name) :
    Prop where
  /-- What is known of the chunk map and the store. -/
  fit : Fit outside engine
  /-- The extents in the chunk map are kept. -/
  stocked : engine.careful = true → engine.Stocked
  /-- The chunks are in the chunk map, and their contents are chunks. -/
  held : engine.careful = true → ∀ hash ∈ hashes, engine.Has hash ∧
    Sealed outside engine.store hash

omit [LinearOrder Name] in
theorem Stock.touch (inverts : outside.zstd.Inverts) {striping : Prop}
    (stock : Stock outside hashes engine) (touch : Touch outside striping engine next) :
    Stock outside hashes next where
  fit := touch.fit inverts stock.fit
  stocked := fun careful => touch.stocked (stock.stocked (touch.careful careful).1)
  held := by
    intro careful hash mem
    obtain ⟨before, remembers⟩ := touch.careful careful
    obtain ⟨has, payload, plain, content, unwrapped, own⟩ := stock.held before hash mem
    exact ⟨touch.has has, payload, plain, remembers.content hash payload content, unwrapped, own⟩

omit [LinearOrder Name] in
/-- A `gc` that goes through and finds the chunks counted. -/
theorem Stock.gc (inverts : outside.zstd.Inverts) {config : Config} {picks : List Nat}
    {blobs : Bytes × Bytes} {outcome : Option PUnit} (stock : Stock outside hashes engine)
    (ran : gc outside config picks blobs engine = some (outcome, next)) (done : outcome ≠ none)
    (live : ∀ hash ∈ hashes, 0 < engine.refcount hash) : Stock outside hashes next := by
  obtain ⟨saved, cleaned, saves, cleaning, ends⟩ := gc_cases inverts ran
  have before := stock.touch inverts (saves.touch False)
  have fit := cleaning.fit before.fit
  have swept : Stock outside hashes cleaned.sweep := by
    refine ⟨fit.sweep, fun careful hash has extent latest => (fit.sound careful).1.latest hash
      extent latest ((has_sweep cleaned hash).mp has).2, fun careful hash mem => ?_⟩
    obtain ⟨has, sealed⟩ := before.held (cleaning.careful careful) hash mem
    refine ⟨(has_sweep cleaned hash).mpr ⟨(cleaning.has hash).mpr has, ?_⟩, ?_⟩
    · rw [cleaning.refcount, saves.refcount]
      exact live hash mem
    · unfold Sealed
      change ∃ payload plain, cleaned.store.content hash = some payload ∧ _
      rw [cleaning.content]
      exact sealed
  rcases ends with ⟨failed, -⟩ | ⟨-, last⟩
  · exact absurd failed done
  · exact swept.touch inverts (last.touch False)

/-- One operation, of which a `gc` goes through and finds the chunks counted. -/
theorem Stock.step (lawful : outside.Lawful) {config : Config} {op : Op Hash Name}
    (stock : Stock outside hashes engine) (completes : engine.Completes outside config op)
    (collects : engine.CollectsNone hashes op)
    (taken : step outside config engine op = some next) : Stock outside hashes next := by
  by_cases collecting : ∃ picks blobs, op = .gc picks blobs
  · obtain ⟨picks, blobs, same⟩ := collecting
    rw [same] at taken completes collects
    obtain ⟨⟨outcome, last⟩, ran, equal⟩ := map_eq_some_iff.mp taken
    rw [← equal]
    refine stock.gc lawful.inverts ran (fun failed => completes ?_) collects
    rw [ran, failed]
    rfl
  · have touches := step_touches taken fun picks blobs same => collecting ⟨picks, blobs, same⟩
    clear taken
    induction touches with
    | refl => exact stock
    | tail _ touch ih => exact ih.touch lawful.inverts touch

omit [LinearOrder Name] in
theorem Stock.hold (stock : Stock outside [] engine)
    (read : ∀ hash ∈ hashes, ∃ plain, engine.readChunk outside hash = some plain) :
    Stock outside hashes engine where
  fit := stock.fit
  stocked := stock.stocked
  held := by
    intro careful hash mem
    obtain ⟨plain, here⟩ := read hash mem
    have has := (readChunk_hash here).2
    exact ⟨has, sealed_of_readChunk stock.fit careful (stock.stocked careful hash has) here⟩

omit [LinearOrder Name] in
theorem Stock.read (stock : Stock outside hashes engine) (careful : engine.careful = true)
    {hash : Hash} (mem : hash ∈ hashes) : ∃ plain, engine.readChunk outside hash = some plain := by
  obtain ⟨has, sealed⟩ := stock.held careful hash mem
  exact readChunk_of_sealed stock.fit careful (stock.stocked careful hash has) has sealed

end Stock

section Runs
variable {config : Config} {geo : Geometry}

/-- What holds after a snapshot was taken: its root is entered, what it resolved stays, and some
chunks are there to be read. -/
structure Preserves (outside : Outside Hash Name) (name : Name) (taken : Engine Hash Name)
    (hashes : List Hash) (engine : Engine Hash Name) : Prop where
  consistent : Consistent outside engine
  grows : taken.names.Grows engine.names
  entered : engine.names.snapshots name = some taken.names.rootHead
  stock : Stock outside hashes engine

theorem Preserves.step (lawful : outside.Lawful) {name : Name} {taken : Engine Hash Name}
    {hashes : List Hash} (engine : Engine Hash Name) (op : Op Hash Name) (next : Engine Hash Name)
    (preserves : Preserves outside name taken hashes engine)
    (allowed : op ≠ .snapshot name ∧ engine.Completes outside config op ∧
      engine.CollectsNone hashes op) (ran : step outside config engine op = some next) :
    Preserves outside name taken hashes next := by
  obtain ⟨consistent, follows⟩ := preserves.consistent.step lawful ran
  refine ⟨consistent, preserves.grows.trans follows.grows, ?_,
    preserves.stock.step lawful allowed.2.1 allowed.2.2 ran⟩
  rw [follows.snapshots name allowed.1]
  exact preserves.entered

theorem Preserves.restored (lawful : outside.Lawful) {name : Name} {taken last : Engine Hash Name}
    {path : List Name} {head : Hash} {data : Bytes} (ok : Consistent outside taken)
    (resolves : taken.names.resolve path = some head)
    (read : taken.readVersion outside head = some data)
    (preserves : Preserves outside name taken (taken.versionChunks outside head) last)
    (careful : last.careful = true) :
    (restore name last).1 = some taken.names.rootHead ∧
      (restore name last).2.get outside path = some data := by
  have after := preserves.consistent.restore name
  rcases restore_cases preserves.consistent name with
    ⟨root, node, entered, -, outcome⟩ | ⟨absent, -⟩
  · rw [preserves.entered] at entered
    have same := some.inj entered
    rw [outcome] at after ⊢
    refine ⟨by rw [same], ?_⟩
    have present := ok.formed.resolveUnder_present ok.rooted.root.present resolves
    unfold get
    rw [after.formed.resolveNewest_eq after.rooted]
    have found : ({ last.names with
        rootHead := root
        rootChain := last.names.rootChain ++ [(node.timestamp, root)] } :
        Namespace Hash Name).resolve path = some head := by
      rw [← resolves]
      unfold Namespace.resolve
      rw [same, ← ok.formed.intact.resolveUnder_grows preserves.grows path
        (same ▸ ok.rooted.root.present)]
      apply Namespace.resolveUnder_congr <;> rfl
    dsimp only at found ⊢
    rw [found, Option.bind_some, ← read]
    apply readVersion_congr
    · obtain ⟨version, there⟩ := present
      rw [there]
      exact preserves.grows.repo _ _ there
    · intro hash mem
      obtain ⟨plain, here⟩ := readChunk_of_readVersion read hash mem
      obtain ⟨other, again⟩ := preserves.stock.read careful mem
      have same : other = plain :=
        lawful.of_injective ((readChunk_hash again).1.trans (readChunk_hash here).1.symm)
      rw [here, ← same]
      exact again
  · rw [preserves.entered] at absent
    cases absent

end Runs

section Examples
open Instance

/-- A file is put. -/
def saving : List (Op Nat Nat) := [.put [1] [7, 8] 5]

/-- The engine after it. -/
def saved : Engine Nat Nat := reach (step numbers config) saving (create numbers geometry)

/-- The file is deleted and its chunks are collected. -/
def losing : List (Op Nat Nat) := [.delete [1] 6, .gc [] ([], [])]

/-- The engine after it, with a snapshot taken before. -/
def lost : Engine Nat Nat := reach (step numbers config) losing (saved.snapshot 9)

/-- Another file with the same bytes is put before the first is deleted, and garbage is
collected. -/
def sharing : List (Op Nat Nat) := [.put [2] [7, 8] 6, .delete [1] 7, .gc [] ([], [])]

/-- The engine after it, with a snapshot taken before. -/
def shared : Engine Nat Nat := reach (step numbers config) sharing (saved.snapshot 9)

end Examples
end Engine
end LionFS.Cluster
