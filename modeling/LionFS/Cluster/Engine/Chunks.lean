import LionFS.Cluster.Engine.Model
import LionFS.Cluster.Extents.Safety

/-!
# The chunk map and the store

Every operation of the engine but `gc` changes the store and the chunk map by
writing extents and checkpoints, changing counts and entering chunks in stripes.
The chunk map
always points at the extent handed out last for a chunk. While all calls are
careful the store is sound, and the extents in the chunk map are kept: a
cleaning may free those whose count is zero, and the sweep that follows drops
them.
-/
namespace LionFS.Cluster
open Function (update_self update_of_ne update)
open LionFS Extents List Option Table
open Checkpoint (checkpointOffset)
namespace Engine
variable {Hash Name : Type} [DecidableEq Hash]

/-- A chunk is in the chunk map. -/
def Has (engine : Engine Hash Name) (hash : Hash) : Prop :=
  ∃ chunk, find hash engine.chunkMap = some chunk

variable (outside : Outside Hash Name)

/-- A chunk is entered where the extent handed out last for its hash is, with the hash of the
bytes written there. -/
def Placed (store : Traced Hash) (hash : Hash) (chunk : StoredChunk Hash) : Prop :=
  ∃ extent payload, store.latest hash = some extent ∧
    chunk.desc = { extent with eccGroupId := chunk.desc.eccGroupId } ∧
    store.content hash = some payload ∧ chunk.stored = outside.of payload

/-- What is known of the chunk map and the store. -/
structure Fit (engine : Engine Hash Name) : Prop where
  /-- The chunk map points at the extents handed out last. -/
  placed : ∀ hash chunk, find hash engine.chunkMap = some chunk →
    Placed outside engine.store hash chunk
  sound : engine.careful = true → Sound outside.zstd engine.store ∧ Tracked engine.store

/-- The extents in the chunk map are kept. -/
def Stocked (engine : Engine Hash Name) : Prop :=
  ∀ hash, engine.Has hash → ∀ extent, engine.store.latest hash = some extent →
    (extent, hash) ∈ engine.store.kept

/-- The bytes written under a hash are a chunk of that hash, wrapped. -/
def Sealed (store : Traced Hash) (hash : Hash) : Prop :=
  ∃ payload plain, store.content hash = some payload ∧ unwrap outside hash payload = some plain ∧
    outside.of plain = hash

variable (outside : Outside Hash Name)

/-- One change of the store or of the chunk map. Unless stripes are made, what is written is a
chunk, wrapped. -/
inductive Touch (striping : Prop) : Engine Hash Name → Engine Hash Name → Prop
  /-- Neither changes, but for the epoch. -/
  | other {engine next : Engine Hash Name} (epoch : Nat)
      (store : next.store =
        { engine.store with store := { engine.store.store with epoch := epoch } })
      (careful : next.careful = engine.careful) (chunkMap : next.chunkMap = engine.chunkMap) :
      Touch striping engine next
  /-- A checkpoint is written. -/
  | save (engine : Engine Hash Name) (frame : Bytes) :
    Touch striping engine (engine.checkpointed frame)
  /-- A count changes. -/
  | count (engine : Engine Hash Name) (hash : Hash) (delta : Int) :
      Touch striping engine (engine.countAdd hash delta)
  /-- An extent is written and entered in the chunk map. -/
  | stage (engine : Engine Hash Name) (group : Nat) (payload : Bytes) (hash : Hash)
      (wrapped : striping ∨
        ∃ data, hash = outside.of data ∧ wrap outside hash data = some payload) :
      Touch striping engine (stage outside group payload hash engine).2
  /-- Chunks are entered in a stripe. -/
  | join (engine : Engine Hash Name) (group : Nat) (members : List Hash) :
      Touch striping engine
        { engine with chunkMap := joinGroup group members engine.chunkMap }

variable {outside}
section Stage
variable {group : Nat} {payload : Bytes} {hash : Hash} {engine : Engine Hash Name}

/-- What staging does: it writes an extent and enters it, or the write fails. -/
theorem stage_cases (outside : Outside Hash Name) (group : Nat) (payload : Bytes) (hash : Hash)
    (engine : Engine Hash Name) :
    (∃ extent next, writeExtent outside.zstd payload hash false engine.store.store =
          (some extent, next) ∧
        stage outside group payload hash engine =
          (some ⟨{ extent with eccGroupId := group }, outside.of payload⟩,
            { engine with
              store := engine.store.wrote payload hash extent next
              careful := engine.careful &&
                decide (engine.store.Careful (.write payload hash false))
              chunkMap := insert hash
                ⟨{ extent with eccGroupId := group }, outside.of payload⟩ engine.chunkMap })) ∨
      ∃ next, writeExtent outside.zstd payload hash false engine.store.store = (none, next) ∧
        stage outside group payload hash engine =
          (none,
            { engine with
              store := { engine.store with store := next }
              careful := engine.careful &&
                decide (engine.store.Careful (.write payload hash false)) }) := by
  unfold stage Traced.write
  cases written : writeExtent outside.zstd payload hash false engine.store.store with
  | mk result next =>
    cases result with
    | none => exact .inr ⟨next, rfl, rfl⟩
    | some extent => exact .inl ⟨extent, next, rfl, rfl⟩

theorem stage_store : (stage outside group payload hash engine).2.store =
    engine.store.write outside.zstd payload hash false := by
  unfold stage
  cases (writeExtent outside.zstd payload hash false engine.store.store).1 <;> rfl

/-- Care is taken of the write. -/
theorem stage_careful : (stage outside group payload hash engine).2.careful =
    (engine.careful && decide (engine.store.Careful (.write payload hash false))) := by
  unfold stage
  cases (writeExtent outside.zstd payload hash false engine.store.store).1 <;> rfl

end Stage

theorem find_joinGroup (group : Nat) (members : List Hash)
    (chunkMap : List (Hash × StoredChunk Hash)) (hash : Hash) :
    (∀ chunk, find hash (joinGroup group members chunkMap) = some chunk →
        ∃ before, find hash chunkMap = some before ∧ chunk.stored = before.stored ∧
          chunk.desc = { before.desc with eccGroupId := chunk.desc.eccGroupId }) ∧
      ((∃ before, find hash chunkMap = some before) →
        ∃ chunk, find hash (joinGroup group members chunkMap) = some chunk) := by
  unfold joinGroup
  induction members generalizing chunkMap with
  | nil => exact ⟨fun chunk found => ⟨chunk, found, rfl, rfl⟩, fun found => found⟩
  | cons mem rest ih =>
    rw [foldl_cons]
    cases here : find mem chunkMap with
    | none => exact ih chunkMap
    | some own =>
      dsimp only
      obtain ⟨back, forth⟩ := ih (insert mem
        { own with desc := { own.desc with eccGroupId := group } } chunkMap)
      by_cases same : hash = mem
      · rw [same] at back forth ⊢
        rw [find_insert_self] at back forth
        refine ⟨fun chunk found => ?_, fun _ => forth ⟨_, rfl⟩⟩
        obtain ⟨before, known, stored, desc⟩ := back chunk found
        rw [← some.inj known] at stored desc
        exact ⟨own, here, stored, desc⟩
      · rw [find_insert_of_ne same] at back forth
        exact ⟨back, forth⟩

omit [DecidableEq Hash] in
/-- A frame that ends before the zones changes no extent. -/
theorem readExtent_overwrite (store : Store Hash) {frame : Bytes}
    (fits : checkpointOffset + frame.length ≤ dataStart) (epoch : Nat) (zstd : Zstd)
    (extent : ExtentDescriptor) :
    ({ store with
      device := store.device.overwrite checkpointOffset frame
      epoch := epoch }).readExtent zstd extent = store.readExtent zstd extent := by
  unfold Store.readExtent
  cases zone : store.geo.zoneOffset extent.zoneId with
  | none => rfl
  | some base =>
    have far : dataStart ≤ base := by
      unfold Geometry.zoneOffset at zone
      split_ifs at zone
      cases zone
      exact Nat.le_add_right _ _
    have same : (store.device.overwrite checkpointOffset frame).read
        (base + extent.offsetInZone) extent.length =
          store.device.read (base + extent.offsetInZone) extent.length := by
      unfold Device.read Device.overwrite
      split_ifs
      · rfl
      · congr 1
        exact map_congr_left fun index _ => if_neg (by omega)
    dsimp only
    rw [same]

section Touch
variable {striping : Prop} {engine next : Engine Hash Name}
section
variable (touch : Touch outside striping engine next)
include touch

theorem Touch.has {hash : Hash} (has : engine.Has hash) : next.Has hash := by
  cases touch with
  | other _ _ _ same =>
    unfold Has
    rw [same]
    exact has
  | save _ | count _ _ => exact has
  | stage group payload other _ =>
    rcases stage_cases outside group payload other engine with
      ⟨extent, written, -, staged⟩ | ⟨written, -, staged⟩
    · rw [staged]
      by_cases same : hash = other
      · rw [same]
        exact ⟨_, find_insert_self _ _ _⟩
      · obtain ⟨chunk, found⟩ := has
        exact ⟨chunk, (find_insert_of_ne same _ _).trans found⟩
    · rw [staged]
      exact has
  | join group members => exact (find_joinGroup group members engine.chunkMap hash).2 has

/-- Contents and extents once known stay known while care is taken. -/
theorem Touch.careful (careful : next.careful = true) :
    engine.careful = true ∧ engine.store.Remembers next.store := by
  have own := Traced.Remembers.refl engine.store
  cases touch with
  | other _ store same _ =>
    rw [store]
    exact ⟨same ▸ careful, own.content, own.latest⟩
  | save _ | count _ _ => exact ⟨(Bool.and_eq_true_iff.mp careful).1, own.content, own.latest⟩
  | stage group payload hash _ =>
    rw [stage_careful] at careful
    obtain ⟨before, checked⟩ := Bool.and_eq_true_iff.mp careful
    have fits : engine.store.Careful (.write payload hash false) :=
      of_decide_eq_true checked
    rw [stage_store]
    exact ⟨before, own.write fits false⟩
  | join _ _ => exact ⟨careful, own⟩

/-- The chunk map keeps pointing at the extents handed out last. -/
theorem Touch.placed (placed : ∀ hash chunk, find hash engine.chunkMap = some chunk →
      Placed outside engine.store hash chunk) :
    ∀ hash chunk, find hash next.chunkMap = some chunk →
      Placed outside next.store hash chunk := by
  intro hash chunk found
  cases touch with
  | other _ store _ chunkMap =>
    rw [chunkMap] at found
    rw [store]
    exact placed hash chunk found
  | save _ | count _ _ => exact placed hash chunk found
  | stage group payload other _ =>
    rcases stage_cases outside group payload other engine with
      ⟨extent, written, -, staged⟩ | ⟨written, -, staged⟩
    · rw [staged] at found ⊢
      by_cases same : hash = other
      · rw [same] at found ⊢
        dsimp only at found
        rw [find_insert_self] at found
        cases found
        exact ⟨extent, payload, update_self _ _ _, rfl, update_self _ _ _, rfl⟩
      · dsimp only at found
        rw [find_insert_of_ne same] at found
        obtain ⟨before, bytes, latest, desc, content, stored⟩ := placed hash chunk found
        exact ⟨before, bytes, (update_of_ne same _ _).trans latest, desc,
          (update_of_ne same _ _).trans content, stored⟩
    · rw [staged] at found ⊢
      exact placed hash chunk found
  | join group members =>
    obtain ⟨before, known, stored, desc⟩ :=
      (find_joinGroup group members engine.chunkMap hash).1 chunk found
    obtain ⟨extent, bytes, latest, place, content, hashed⟩ := placed hash before known
    refine ⟨extent, bytes, latest, ?_, content, stored.trans hashed⟩
    rw [desc, place]

end

/-- What is known of the chunk map and the store stays known. -/
theorem Touch.fit (inverts : outside.zstd.Inverts) (touch : Touch outside striping engine next)
    (fit : Fit outside engine) : Fit outside next := by
  refine ⟨touch.placed fit.placed, fun careful => ?_⟩
  obtain ⟨sound, tracked⟩ := fit.sound (touch.careful careful).1
  cases touch with
  | other epoch same _ _ =>
    rw [same]
    exact ⟨{ sound with }, tracked⟩
  | save frame =>
    have fits := of_decide_eq_true (Bool.and_eq_true_iff.mp careful).2
    refine ⟨{ sound with reads := fun entry mem => ?_ }, tracked⟩
    obtain ⟨data, content, read⟩ := sound.reads entry mem
    exact ⟨data, content, (readExtent_overwrite _ fits _ _ _).trans read⟩
  | count hash delta =>
    have revives := of_decide_eq_true (Bool.and_eq_true_iff.mp careful).2
    exact ⟨sound.add revives, tracked.add revives⟩
  | stage group payload hash _ =>
    rw [stage_careful] at careful
    have fits := of_decide_eq_true (Bool.and_eq_true_iff.mp careful).2
    rw [stage_store]
    exact ⟨sound.write inverts fits false, tracked.write inverts sound fits false⟩
  | join _ _ => exact ⟨sound, tracked⟩

/-- The extents in the chunk map stay kept. -/
theorem Touch.stocked (touch : Touch outside striping engine next) (stocked : engine.Stocked) :
    next.Stocked := by
  intro hash has extent latest
  cases touch with
  | other _ store _ chunkMap =>
    unfold Has at has
    rw [chunkMap] at has
    rw [store] at latest ⊢
    exact stocked hash has extent latest
  | save _ | count _ _ => exact stocked hash has extent latest
  | stage group payload other _ =>
    rcases stage_cases outside group payload other engine with
      ⟨new, written, -, staged⟩ | ⟨written, -, staged⟩
    · rw [staged] at has latest ⊢
      rcases update_eq_some latest with ⟨same, handed⟩ | ⟨ne, before⟩
      · rw [same, handed]
        exact mem_cons_self
      · obtain ⟨entry, found⟩ := has
        rw [find_insert_of_ne ne] at found
        exact mem_cons_of_mem _ (stocked hash ⟨entry, found⟩ extent before)
    · rw [staged] at has latest ⊢
      exact stocked hash has extent latest
  | join group members =>
    obtain ⟨chunk, found⟩ := has
    obtain ⟨before, known, -⟩ := (find_joinGroup group members engine.chunkMap hash).1 chunk found
    exact stocked hash ⟨before, known⟩ extent latest

end Touch

omit [DecidableEq Hash] in
/-- Unwrapping gives back what was wrapped. -/
theorem unwrap_wrap (lawful : outside.Lawful) {hash : Hash} {data payload : Bytes}
    (wrapped : wrap outside hash data = some payload) :
    unwrap outside hash payload = some data := by
  have decompressed : decompress outside (compress outside data) = some data := by
    unfold compress
    cases packed : outside.zstd.encode data with
    | none => rfl
    | some bytes =>
      dsimp only
      split_ifs
      · exact lawful.inverts data bytes packed
      · rfl
  unfold unwrap
  rw [lawful.decrypt_encrypt hash _ payload wrapped]
  exact decompressed

/-- Without stripes, everything written is a wrapped chunk of its hash. -/
theorem Touch.sealed (lawful : outside.Lawful) {engine next : Engine Hash Name}
    (touch : Touch outside False engine next)
    (sealed : ∀ hash payload, engine.store.content hash = some payload →
      Sealed outside engine.store hash) :
    ∀ hash payload, next.store.content hash = some payload → Sealed outside next.store hash := by
  intro hash payload known
  cases touch with
  | other _ store _ _ =>
    rw [store] at known ⊢
    exact sealed hash payload known
  | save _ | count _ _ => exact sealed hash payload known
  | stage group written other wrapped =>
    rcases stage_cases outside group written other engine with
      ⟨extent, next, -, staged⟩ | ⟨next, -, staged⟩
    · rw [staged] at known ⊢
      rcases update_eq_some known with ⟨same, -⟩ | ⟨ne, before⟩
      · rcases wrapped with no | ⟨data, own, wrapped⟩
        · exact no.elim
        · rw [same]
          exact ⟨written, data, update_self _ _ _, unwrap_wrap lawful wrapped, own.symm⟩
      · obtain ⟨bytes, plain, content, unwrapped, own⟩ := sealed hash payload before
        exact ⟨bytes, plain, (update_of_ne ne _ _).trans content, unwrapped, own⟩
    · rw [staged] at known ⊢
      exact sealed hash payload known
  | join _ _ => exact sealed hash payload known

section Clean

theorem placed_relink (moves : List (Hash × ExtentDescriptor)) {store : Traced Hash}
    {chunkMap : List (Hash × StoredChunk Hash)}
    (placed : ∀ hash chunk, find hash chunkMap = some chunk →
      Placed outside store hash chunk) :
    ∀ hash chunk, find hash (relink moves chunkMap) = some chunk →
      Placed outside { store with latest := announce moves store.latest } hash chunk := by
  induction moves generalizing store chunkMap with
  | nil => exact placed
  | cons move rest ih =>
    have first : ∀ hash chunk, find hash (relink [move] chunkMap) = some chunk →
        Placed outside
          { store with latest := update store.latest move.1 (some move.2) } hash chunk := by
      intro hash chunk found
      have others (ne : hash ≠ move.1) (before : find hash chunkMap = some chunk) :
          Placed outside { store with latest := update store.latest move.1 (some move.2) } hash
            chunk := by
        obtain ⟨extent, payload, latest, rest⟩ := placed hash chunk before
        exact ⟨extent, payload, (update_of_ne ne _ _).trans latest, rest⟩
      unfold relink at found
      rw [foldl_cons, foldl_nil] at found
      cases here : find move.1 chunkMap with
      | none =>
        rw [here] at found
        refine others (fun same => ?_) found
        rw [same, here] at found
        cases found
      | some own =>
        rw [here] at found
        dsimp only at found
        by_cases same : hash = move.1
        · rw [same] at found ⊢
          rw [find_insert_self] at found
          obtain ⟨_, payload, _, _, content, stored⟩ := placed move.1 own here
          cases found
          exact ⟨move.2, payload, update_self _ _ _, rfl, content, stored⟩
        · rw [find_insert_of_ne same] at found
          exact others same found
    exact ih first

theorem has_relink (moves : List (Hash × ExtentDescriptor))
    (chunkMap : List (Hash × StoredChunk Hash)) (hash : Hash) :
    (∃ chunk, find hash (relink moves chunkMap) = some chunk) ↔
      ∃ chunk, find hash chunkMap = some chunk := by
  unfold relink
  induction moves generalizing chunkMap with
  | nil => exact Iff.rfl
  | cons move rest ih =>
    rw [foldl_cons, ih]
    cases here : find move.1 chunkMap with
    | none => exact Iff.rfl
    | some own =>
      dsimp only
      by_cases same : hash = move.1
      · rw [same, find_insert_self, here]
        exact ⟨fun _ => ⟨own, rfl⟩, fun _ => ⟨_, rfl⟩⟩
      · rw [find_insert_of_ne same]

/-- What cleaning segments does to the engine. -/
structure Cleaned (outside : Outside Hash Name) (engine next : Engine Hash Name) : Prop where
  /-- What is known of the chunk map and the store stays known. -/
  fit : Fit outside engine → Fit outside next
  careful : next.careful = true → engine.careful = true
  has : ∀ hash, next.Has hash ↔ engine.Has hash
  refcount : ∀ hash, next.refcount hash = engine.refcount hash
  content : next.store.content = engine.store.content
  names : next.names = engine.names
  wal : next.wal = engine.wal
  dedup : next.dedup = engine.dedup

theorem Cleaned.refl (engine : Engine Hash Name) : Cleaned outside engine engine where
  fit := fun fit => fit
  careful := fun careful => careful
  has := fun _ => Iff.rfl
  refcount := fun _ => rfl
  content := rfl
  names := rfl
  wal := rfl
  dedup := rfl

theorem Cleaned.trans {engine middle next : Engine Hash Name}
    (first : Cleaned outside engine middle) (second : Cleaned outside middle next) :
    Cleaned outside engine next where
  fit := fun fit => second.fit (first.fit fit)
  careful := fun careful => first.careful (second.careful careful)
  has := fun hash => (second.has hash).trans (first.has hash)
  refcount := fun hash => (second.refcount hash).trans (first.refcount hash)
  content := second.content.trans first.content
  names := second.names.trans first.names
  wal := second.wal.trans first.wal
  dedup := second.dedup.trans first.dedup

variable {engine next : Engine Hash Name} {config : Config} {picks : List Nat}
  {outcome : Option Unit}

theorem cleaned_cleanOne (inverts : outside.zstd.Inverts) (index : Nat)
    (engine : Engine Hash Name) : Cleaned outside engine (cleanOne outside index engine).2 := by
  obtain ⟨-, latest, counts, contents⟩ := engine.store.clean_spec outside.zstd index
  have sound (fit : Fit outside engine)
      (careful : (engine.careful &&
        decide (engine.store.Careful (.clean index))) = true) :
      Sound outside.zstd (engine.store.clean outside.zstd index) ∧
        Tracked (engine.store.clean outside.zstd index) := by
    obtain ⟨before, checked⟩ := Bool.and_eq_true_iff.mp careful
    have frees : engine.store.Careful (.clean index) := of_decide_eq_true checked
    obtain ⟨sound, tracked⟩ := fit.sound before
    exact ⟨sound.clean inverts frees tracked.remembered, tracked.clean inverts sound⟩
  unfold cleanOne
  cases outcome : (cleanSegment outside.zstd index engine.store.store).1 with
  | none =>
    rw [outcome] at latest
    refine ⟨fun fit => ⟨fun hash chunk found => ?_, sound fit⟩,
      fun careful => (Bool.and_eq_true_iff.mp careful).1, fun _ => Iff.rfl,
      congrFun counts, contents, rfl, rfl, rfl⟩
    unfold Placed
    rw [latest, contents]
    exact fit.placed hash chunk found
  | some result =>
    obtain ⟨report, moves⟩ := result
    rw [outcome] at latest
    refine ⟨fun fit => ⟨fun hash chunk found => ?_, sound fit⟩,
      fun careful => (Bool.and_eq_true_iff.mp careful).1, has_relink moves engine.chunkMap,
      congrFun counts, contents, rfl, rfl, rfl⟩
    unfold Placed
    rw [latest, contents]
    exact placed_relink moves fit.placed hash chunk found

theorem cleaned_cleanAll (inverts : outside.zstd.Inverts)
    (ran : cleanAll outside config picks engine = some (outcome, next)) :
    Cleaned outside engine next := by
  induction picks generalizing engine with
  | nil =>
    unfold cleanAll at ran
    split_ifs at ran
    rw [← (Prod.mk.inj (some.inj ran)).2]
    exact .refl engine
  | cons index rest ih =>
    have first := cleaned_cleanOne inverts index engine
    unfold cleanAll at ran
    cases cleaning : cleanOne outside index engine with
    | mk result cleaned =>
      rw [cleaning] at ran first
      cases result with
      | none =>
        dsimp only at ran
        split_ifs at ran
        rw [← (Prod.mk.inj (some.inj ran)).2]
        exact first
      | some _ =>
        dsimp only at ran
        split_ifs at ran
        exact first.trans (ih ran)

/-- An engine as it was, or with a checkpoint written. -/
def Saves (engine next : Engine Hash Name) : Prop :=
  next = engine ∨ ∃ frame, next = engine.checkpointed frame

omit [DecidableEq Hash] in
/-- A checkpoint is refused, or written and the log reset. -/
theorem checkpoint_cases (outside : Outside Hash Name) (blob : Bytes) (engine : Engine Hash Name) :
    checkpoint outside blob engine = (none, engine) ∨
      ∃ frame, checkpoint outside blob engine = (some ⟨⟩, engine.checkpointed frame) := by
  unfold checkpoint
  dsimp only
  split_ifs
  · exact .inl rfl
  · exact .inr ⟨_, rfl⟩

omit [DecidableEq Hash] in
/-- Whether it is refused or not. -/
theorem checkpoint_saves (outside : Outside Hash Name) (blob : Bytes) (engine : Engine Hash Name) :
    Saves engine (checkpoint outside blob engine).2 := by
  rcases checkpoint_cases outside blob engine with refused | ⟨frame, written⟩
  · exact .inl (congrArg Prod.snd refused)
  · exact .inr ⟨frame, congrArg Prod.snd written⟩

omit [DecidableEq Hash] in
/-- A checkpoint changes no count. -/
theorem Saves.refcount (saves : Saves engine next) : next.refcount = engine.refcount := by
  rcases saves with rfl | ⟨frame, rfl⟩ <;> rfl

/-- What `gc` does: a checkpoint, cleanings, and when these go through a sweep. -/
theorem gc_cases (inverts : outside.zstd.Inverts) {blobs : Bytes × Bytes}
    {outcome : Option PUnit} (ran : gc outside config picks blobs engine = some (outcome, next)) :
    ∃ saved cleaned, Saves engine saved ∧ Cleaned outside saved cleaned ∧
      (outcome = none ∧ next = cleaned ∨ cleaned.wal = [] ∧ Saves cleaned.sweep next) := by
  unfold gc at ran
  rcases checkpoint_cases outside blobs.1 engine with refused | ⟨frame, written⟩
  · rw [refused] at ran
    obtain ⟨same, state⟩ := Prod.mk.inj (some.inj ran)
    exact ⟨engine, engine, .inl rfl, .refl engine, .inl ⟨same.symm, state.symm⟩⟩
  · rw [written] at ran
    dsimp only at ran
    cases cleaning : cleanAll outside config picks (engine.checkpointed frame) with
    | none =>
      rw [cleaning] at ran
      cases ran
    | some result =>
      obtain ⟨result, cleaned⟩ := result
      have done := cleaned_cleanAll inverts cleaning
      refine ⟨_, cleaned, .inr ⟨frame, rfl⟩, done, ?_⟩
      rw [cleaning] at ran
      cases result with
      | none =>
        obtain ⟨same, state⟩ := Prod.mk.inj (some.inj ran)
        exact .inl ⟨same.symm, state.symm⟩
      | some _ =>
        refine .inr ⟨done.wal, ?_⟩
        dsimp only at ran
        split_ifs at ran
        · exact .inl (Prod.mk.inj (some.inj ran)).2.symm
        · have last := checkpoint_saves outside blobs.2 cleaned.sweep
          rw [some.inj ran] at last
          exact last

/-- The sweep leaves the chunks that count. -/
theorem has_sweep (engine : Engine Hash Name) (hash : Hash) :
    engine.sweep.Has hash ↔ engine.Has hash ∧ 0 < engine.refcount hash := by
  unfold Has sweep
  dsimp only
  rw [find_keep]
  by_cases counts : engine.refcount hash = 0
  · simp [counts]
  · simp [counts, Nat.pos_of_ne_zero counts]

/-- What is known of the chunk map and the store stays known in a sweep. -/
theorem Fit.sweep (fit : Fit outside engine) : Fit outside engine.sweep where
  placed := by
    intro hash chunk found
    unfold Engine.sweep at found
    dsimp only at found
    rw [find_keep] at found
    split_ifs at found
    exact fit.placed hash chunk found
  sound := fit.sound

theorem fit_create (outside : Outside Hash Name) {geo : Geometry}
    (small : geo.zoneSize ≤ 2 ^ 32) : Fit outside (create outside geo) where
  placed := by
    intro hash chunk found
    cases found
  sound := fun _ => ⟨sound_start outside.zstd small, tracked_start geo⟩

/-- Writing a checkpoint is one change of the store. -/
theorem Saves.touch (saves : Saves engine next) (striping : Prop) :
    Touch outside striping engine next := by
  rcases saves with rfl | ⟨frame, rfl⟩
  · exact .other _ rfl rfl rfl
  · exact .save engine frame

end Clean
end Engine
end LionFS.Cluster
