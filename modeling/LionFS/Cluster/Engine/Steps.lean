import LionFS.Cluster.Engine.Chunks

/-!
# The operations as steps on the store

Every operation but `gc`, taken apart into changes of the store and the chunk
map, so that what each change keeps the operations keep, whether they return or
fail.
-/
namespace LionFS.Cluster
open Run LionFS Extents Relation
namespace Engine
variable {Hash Name : Type} [DecidableEq Hash] {outside : Outside Hash Name} {striping : Prop}
  {config : Config}

theorem steps_idle {engine next : Engine Hash Name} (store : next.store = engine.store)
    (careful : next.careful = engine.careful) (chunkMap : next.chunkMap = engine.chunkMap) :
    ReflTransGen (Touch outside striping) engine next :=
  .single (.other engine.store.store.epoch store careful chunkMap)

theorem steps_count (engine : Engine Hash Name) (hash : Hash) (delta : Int) (dedup : Hash → Nat) :
    ReflTransGen (Touch outside striping) engine
      { engine.countAdd hash delta with dedup := dedup } := by
  have counted : ReflTransGen (Touch outside striping) engine
      (engine.countAdd hash delta) := .single (.count engine hash delta)
  exact counted.trans (steps_idle rfl rfl rfl)

theorem steps_stage (group : Nat) {payload : Bytes} {hash : Hash}
    (wrapped : striping ∨ ∃ data, hash = outside.of data ∧ wrap outside hash data = some payload) :
    Steps (Touch outside striping)
      (stage outside group payload hash : Run (Engine Hash Name) _) := fun engine =>
  .single (.stage engine group payload hash wrapped)

theorem steps_storeNew {hash : Hash} {data : Bytes} (own : hash = outside.of data) :
    Steps (Touch outside striping) (storeNew outside config hash data) := by
  unfold storeNew
  cases wrapped : wrap outside hash data with
  | none => exact steps_fail
  | some payload =>
    exact (steps_stage 0 (.inr ⟨data, own, wrapped⟩)).bind fun _ =>
      (steps_modify fun engine => steps_count engine hash 1 _).bind steps_pure

theorem steps_share (hash : Hash) :
    Steps (Touch outside striping) (share hash : Run (Engine Hash Name) _) := by
  refine (steps_modify fun engine => .single (.count engine hash 1)).bind fun _ =>
    steps_get.bind fun engine => ?_
  cases Table.find hash engine.chunkMap with
  | none => exact steps_fail
  | some chunk => exact steps_pure _

theorem steps_putChunks (chunks : List Bytes) :
    Steps (Touch outside striping) (putChunks outside config chunks) := by
  induction chunks with
  | nil => exact steps_pure _
  | cons chunk rest ih =>
    refine Steps.bind (steps_get.bind fun engine => ?_) fun _ =>
      ih.bind steps_pure
    split_ifs
    · exact steps_storeNew rfl
    · refine Steps.bind (steps_modify fun engine => ?_) fun _ => steps_share _
      exact steps_idle rfl rfl rfl

theorem steps_putMeta (hashes : List Hash) :
    Steps (Touch outside striping) (putMeta outside config hashes) := by
  refine steps_get.bind fun engine => ?_
  cases Table.find (outside.of (outside.pack hashes)) engine.chunkMap with
  | none => exact steps_storeNew rfl
  | some chunk =>
    refine (steps_share _).bind fun records => (steps_modify fun engine => ?_).bind fun _ =>
      steps_pure _
    split_ifs
    · exact .refl
    · exact steps_idle rfl rfl rfl

theorem steps_releaseAll (hashes : List Hash) :
    Steps (Touch outside striping) (releaseAll hashes : Run (Engine Hash Name) _) := by
  induction hashes with
  | nil => exact steps_pure _
  | cons hash rest ih =>
    refine Steps.bind ?_ fun _ => ih.bind steps_pure
    refine (steps_modify fun engine => steps_count engine hash (-1) _).bind fun _ =>
      steps_get.bind fun engine => ?_
    cases Table.find hash engine.chunkMap with
    | none => exact steps_fail
    | some chunk => exact steps_pure _

theorem steps_releaseVersion (node : VersionNode Hash) :
    Steps (Touch outside striping) (releaseVersion outside node : Run (Engine Hash Name) _) := by
  unfold releaseVersion
  split_ifs
  · refine steps_get.bind fun engine => ?_
    cases (engine.readChunk outside node.contentHash).bind outside.unpack with
    | none => exact steps_fail
    | some hashes => exact steps_releaseAll _
  · exact steps_pure _

theorem steps_storeParity (group : Nat) (shards : List Bytes) :
    Steps (Touch outside True) (storeParity outside group shards : Run (Engine Hash Name) _) := by
  induction shards with
  | nil => exact steps_pure _
  | cons shard rest ih =>
    exact (steps_stage group (.inl trivial)).bind fun _ =>
      (steps_modify fun engine => .single (.count engine _ 1)).bind fun _ =>
        ih.bind steps_pure

theorem steps_encodeEcGroups (groups : List (List Hash)) :
    Steps (Touch outside True)
      (encodeEcGroups outside config groups : Run (Engine Hash Name) _) := by
  unfold encodeEcGroups
  split_ifs
  · exact steps_pure _
  · refine steps_each fun members _ => steps_get.bind fun engine => ?_
    dsimp only
    cases engine.fetchAll outside members with
    | none => exact steps_fail
    | some shards =>
      dsimp only
      cases outside.parity _ with
      | none => exact steps_fail
      | some parity =>
        refine (steps_modify fun current => ?_).bind fun _ =>
          (steps_storeParity _ parity).bind fun _ =>
            steps_modify fun engine => steps_idle rfl rfl rfl
        have joined : ReflTransGen (Touch outside True) current
            { current with chunkMap := joinGroup engine.nextEcGroup members current.chunkMap } :=
          .single (.join current engine.nextEcGroup members)
        exact joined.trans (steps_idle rfl rfl rfl)

variable [LinearOrder Name]

theorem steps_commitVersion (path : List Name) (node : VersionNode Hash)
    (records : List (WalRecord Hash Name)) (sync : Bool) :
    Steps (Touch outside striping) (commitVersion outside path node records sync) := by
  unfold commitVersion
  refine Steps.bind (steps_modify fun engine => ?_) fun _ =>
    Steps.bind (steps_focus (fun engine names => ?_) _) fun root =>
      Steps.bind (steps_modify fun engine => ?_) steps_pure
  · exact steps_idle rfl rfl rfl
  · exact steps_idle rfl rfl rfl
  · exact .single (.other _ rfl rfl rfl)

theorem steps_put (path : List Name) (data : Bytes) (time : Nat) :
    Steps (Touch outside striping) (put outside config path data time) :=
  (steps_putChunks _).bind fun _ => (steps_putMeta _).bind fun _ =>
    steps_get.bind fun _ => steps_commitVersion _ _ _ _

theorem steps_delete (path : List Name) (time : Nat) :
    Steps (Touch outside striping) (delete outside path time) := by
  refine steps_get.bind fun engine => ?_
  cases engine.names.resolve path with
  | none => exact steps_fail
  | some parent =>
    dsimp only
    cases engine.names.repo parent with
    | none => exact steps_fail
    | some node =>
      exact (steps_releaseVersion node).bind fun _ => steps_get.bind fun _ =>
        steps_commitVersion _ _ _ _

omit [LinearOrder Name] in
theorem steps_restore (name : Name) :
    Steps (Touch outside striping) (restore name : Run (Engine Hash Name) _) := by
  unfold restore
  refine Steps.bind (steps_focus (fun engine names => ?_) _) fun root =>
    steps_get.bind fun engine => ?_
  · exact steps_idle rfl rfl rfl
  · cases engine.names.repo root with
    | none => exact steps_fail
    | some node =>
      refine Steps.bind (steps_modify fun engine => ?_) steps_pure
      exact steps_idle rfl rfl rfl

/-- Every operation but `gc` takes steps on the store and the chunk map; only `encode_ec_groups`
makes stripes. -/
theorem step_touches {engine next : Engine Hash Name} {op : Op Hash Name}
    (taken : step outside config engine op = some next)
    (other : ∀ picks blobs, op ≠ .gc picks blobs) :
    ReflTransGen (Touch outside (∃ groups, op = .encode groups)) engine next := by
  cases op with
  | put path data time =>
    cases taken
    exact steps_put path data time engine
  | delete path time =>
    cases taken
    exact steps_delete path time engine
  | snapshot name =>
    cases taken
    exact steps_idle rfl rfl rfl
  | restore name =>
    cases taken
    exact steps_restore name engine
  | checkpoint blob =>
    cases taken
    exact .single ((checkpoint_saves outside blob engine).touch _)
  | gc picks blobs => exact absurd rfl (other picks blobs)
  | encode groups =>
    unfold step at taken
    dsimp only at taken
    split_ifs at taken
    cases taken
    have same : (∃ others, Op.encode groups = (.encode others : Op Hash Name)) = True :=
      eq_true ⟨groups, rfl⟩
    rw [same]
    exact steps_encodeEcGroups groups engine

end Engine
end LionFS.Cluster
