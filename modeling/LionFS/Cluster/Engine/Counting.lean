import LionFS.Cluster.Engine.Chunks
import LionFS.Cluster.Engine.Tree

/-!
# Taking and releasing references

What the chunk loop of `put` and the release loop of `delete` do to the counts,
and the records they make. What is counted is in the chunk map and the dedup
index counts no more than the store, so a chunk that the index knows is found.
-/
namespace LionFS.Cluster
open Run List Nat Table
open Function (update_self update_of_ne update_apply update)
open LionFS Extents
namespace Engine
variable {Hash Name : Type} [DecidableEq Hash]
section Log

/-- A record that swaps the root or enters a snapshot. -/
def pointer : WalRecord Hash Name → Bool
  | .headOp _ _ => true
  | .snapshotOp _ _ => true
  | _ => false

/-- The root after records are replayed. -/
def headAfter (root : Hash) (records : List (WalRecord Hash Name)) : Hash :=
  records.foldl (fun root record =>
    match record with
    | .headOp new _ => new
    | _ => root) root

/-- What a record refers to is there. -/
def Known (outside : Outside Hash Name) (engine : Engine Hash Name) :
    WalRecord Hash Name → Prop
  | .data hash _ => engine.Has hash
  | .vnode node => engine.names.repo (outside.nodeHash node) = some node
  | .dirMap content children => engine.names.dirs content = some children
  | .refOp hash _ _ _ _ _ => engine.Has hash
  | .headOp _ _ => True
  | .snapshotOp _ _ => True

theorem Known.mono {outside : Outside Hash Name} {engine next : Engine Hash Name}
    {record : WalRecord Hash Name} (known : Known outside engine record)
    (grows : engine.names.Grows next.names) (has : ∀ hash, engine.Has hash → next.Has hash) :
    Known outside next record := by
  cases record with
  | data hash payload => exact has hash known
  | vnode node => exact grows.repo _ _ known
  | dirMap content children => exact grows.dirs _ _ known
  | refOp hash delta zone offset length stored => exact has hash known
  | headOp root time => trivial
  | snapshotOp name root => trivial

omit [DecidableEq Hash] in
theorem headAfter_append (root : Hash) (first second : List (WalRecord Hash Name)) :
    headAfter root (first ++ second) = headAfter (headAfter root first) second :=
  foldl_append

variable [LinearOrder Name]

/-- The root of a snapshot after records are replayed. -/
def snapshotAfter (name : Name) (taken : Option Hash) (records : List (WalRecord Hash Name)) :
    Option Hash :=
  records.foldl (fun taken record =>
    match record with
    | .snapshotOp other root => if other = name then some root else taken
    | _ => taken) taken

omit [DecidableEq Hash] in
theorem snapshotAfter_plain {records : List (WalRecord Hash Name)}
    (plain : ∀ record ∈ records, pointer record = false) (name : Name) (taken : Option Hash) :
    snapshotAfter name taken records = taken := by
  unfold snapshotAfter
  induction records with
  | nil => rfl
  | cons record rest ih =>
    rw [foldl_cons]
    have here := plain record mem_cons_self
    cases record with
    | snapshotOp other root => cases here
    | _ => exact ih (forall_mem_cons.mp plain).2

omit [DecidableEq Hash] in
theorem snapshotAfter_append (name : Name) (taken : Option Hash)
    (first second : List (WalRecord Hash Name)) :
    snapshotAfter name taken (first ++ second) =
      snapshotAfter name (snapshotAfter name taken first) second :=
  foldl_append

end Log

/-- What is counted is in the chunk map, and the dedup index counts no more than the store. -/
structure Counted (engine : Engine Hash Name) : Prop where
  present : ∀ hash, 0 < engine.refcount hash → engine.Has hash
  /-- The dedup index counts no more than the store. -/
  dedup : ∀ hash, engine.dedup hash ≤ engine.refcount hash

section Counts
variable (outside : Outside Hash Name) (engine : Engine Hash Name)

theorem refcount_countAdd (hash other : Hash) (delta : Int) :
    (engine.countAdd hash delta).refcount other =
      (engine.refcount other + delta * [hash].count other).toNat := by
  change (update engine.store.store.refcounts hash _) other = _
  by_cases same : other = hash
  · rw [same, update_self, count_singleton_self]
    change (max ((engine.refcount hash : Int) + delta) 0).toNat = _
    omega
  · rw [update_of_ne same, count_eq_zero_of_not_mem (by simpa using same)]
    change engine.refcount other = _
    omega

end Counts

/-- References taken on chunks, and the records of it. -/
structure Acquired (outside : Outside Hash Name) (engine next : Engine Hash Name)
    (hashes : List Hash) (records : List (WalRecord Hash Name)) : Prop where
  names : next.names = engine.names
  wal : next.wal = engine.wal
  has : ∀ hash, engine.Has hash → next.Has hash
  counted : next.Counted
  refcount : ∀ hash, next.refcount hash = engine.refcount hash + hashes.count hash
  /-- The records are of chunks that are there. -/
  known : ∀ record ∈ records, Known outside next record ∧ pointer record = false

variable {outside : Outside Hash Name} {engine next : Engine Hash Name}
  {records : List (WalRecord Hash Name)} {middle : Engine Hash Name}
section Acquire
variable {config : Config}

/-- Changes that concern no count take no reference. -/
theorem Counted.stays (counted : engine.Counted) (names : next.names = engine.names)
    (wal : next.wal = engine.wal) (has : ∀ hash, engine.Has hash → next.Has hash)
    (refcount : ∀ hash, next.refcount hash = engine.refcount hash)
    (dedup : next.dedup = engine.dedup) : Acquired outside engine next [] [] where
  names := names
  wal := wal
  has := has
  counted := by
    constructor
    · intro hash live
      rw [refcount] at live
      exact has hash (counted.present hash live)
    · intro hash
      rw [refcount, dedup]
      exact counted.dedup hash
  refcount := refcount
  known := forall_mem_nil _

theorem Counted.acquired (counted : engine.Counted) : Acquired outside engine engine [] [] :=
  counted.stays rfl rfl (fun _ has => has) (fun _ => rfl) rfl

theorem Acquired.trans {first second : List Hash} {here later : List (WalRecord Hash Name)}
    (one : Acquired outside engine middle first here)
    (two : Acquired outside middle next second later) :
    Acquired outside engine next (first ++ second) (here ++ later) where
  names := two.names.trans one.names
  wal := two.wal.trans one.wal
  has := fun hash has => two.has hash (one.has hash has)
  counted := two.counted
  refcount := by
    intro hash
    rw [two.refcount, one.refcount, count_append, add_assoc]
  known := by
    refine forall_mem_append.mpr ⟨fun record before => ?_, two.known⟩
    have grows : middle.names.Grows next.names := by
      rw [two.names]
      exact .refl _
    exact (one.known record before).imp_left (·.mono grows two.has)

variable {hashes : List Hash}

/-- The records may be forgotten. -/
theorem Acquired.forget (acquired : Acquired outside engine next hashes records) :
    Acquired outside engine next hashes [] :=
  { acquired with known := forall_mem_nil _ }

variable {dedup : Hash → Nat}

/-- The dedup index may change below the counts. -/
theorem Acquired.index (acquired : Acquired outside engine next hashes records)
    (fewer : ∀ hash, dedup hash ≤ next.refcount hash) :
    Acquired outside engine { next with dedup := dedup } hashes records := { acquired with
  counted := ⟨acquired.counted.present, fewer⟩
  known := fun record mem =>
    ⟨(acquired.known record mem).1.mono (.refl _) fun _ has => has, (acquired.known record mem).2⟩ }

variable {hash : Hash}

/-- A count that rises, and the dedup index with it or not, for a chunk in the chunk map. -/
theorem acquired_countAdd (outside : Outside Hash Name) (counted : engine.Counted)
    (has : engine.Has hash) (dedup : Hash → Nat)
    (bumped : ∀ other, dedup other ≤ engine.dedup other + [hash].count other) :
    Acquired outside engine { engine.countAdd hash 1 with dedup := dedup } [hash] [] := by
  have counts : ∀ other, (engine.countAdd hash 1).refcount other =
      engine.refcount other + [hash].count other := fun other => by
    rw [refcount_countAdd]
    omega
  refine ⟨rfl, rfl, fun _ has => has, ⟨fun other live => ?_, fun other => ?_⟩, counts,
    forall_mem_nil _⟩
  · by_cases same : other = hash
    · rw [same]
      exact has
    · apply counted.present other
      have count := counts other
      rw [count_eq_zero_of_not_mem (by simpa using same)] at count
      exact lt_of_lt_of_eq live count
  · have below := Nat.add_le_add_right (counted.dedup other) ([hash].count other)
    exact ((bumped other).trans below).trans (counts other).ge

/-- A record of a change of a count refers to its chunk. -/
theorem refRecord_known (has : engine.Has hash) (delta : Int) (chunk : StoredChunk Hash) :
    ∀ record ∈ [(refRecord hash delta chunk : WalRecord Hash Name)],
      Known outside engine record ∧ pointer record = false := by
  intro record mem
  rw [mem_singleton.mp mem]
  exact ⟨has, rfl⟩

/-- References taken on some chunks. -/
def Gained (outside : Outside Hash Name) (engine next : Engine Hash Name) : Prop :=
  ∃ hashes, Acquired outside engine next hashes []

theorem Acquired.gained (first : Acquired outside engine middle hashes [])
    (later : Gained outside middle next) :
    Gained outside engine next := by
  obtain ⟨others, second⟩ := later
  exact ⟨_, first.trans second⟩

theorem bump_le {raised : Nat} (bound : raised ≤ dedup hash + 1) (other : Hash) :
    update dedup hash raised other ≤ dedup other + [hash].count other := by
  rw [update_apply]
  split_ifs with same
  · rwa [same, count_singleton_self]
  · exact le_add_right _ _

variable (counted : engine.Counted)
include counted

/-- A chunk that is staged is in the chunk map, and counts stay. -/
theorem stage_spec (group : Nat) (payload : Bytes) (hash : Hash) :
    wp (stage outside group payload hash)
      (fun _ next => Acquired outside engine next [] [] ∧ next.Has hash ∧
        next.dedup = engine.dedup)
      (fun next => Acquired outside engine next [] []) engine := by
  have counts := writeExtent_refcounts outside.zstd payload hash false engine.store.store
  have touch := @Touch.stage _ _ _ outside True engine group payload hash (.inl trivial)
  have entered : ∀ other, engine.Has other →
      (stage outside group payload hash engine).2.Has other := fun _ => touch.has
  unfold wp
  rcases stage_cases outside group payload hash engine with
    ⟨extent, written, wrote, staged⟩ | ⟨written, wrote, staged⟩
  · rw [staged] at entered ⊢
    rw [wrote] at counts
    exact ⟨counted.stays rfl rfl entered (congrFun counts) rfl, ⟨_, find_insert_self _ _ _⟩, rfl⟩
  · rw [staged]
    rw [wrote] at counts
    exact counted.stays rfl rfl (fun _ has => has) (congrFun counts) rfl

/-- Storing a new chunk takes a reference on it. -/
theorem storeNew_spec (hash : Hash) (data : Bytes) :
    wp (storeNew outside config hash data)
      (fun records next => Acquired outside engine next [hash] records)
      (fun next => Acquired outside engine next [] []) engine := by
  unfold storeNew
  cases wrap outside hash data with
  | none => exact counted.acquired
  | some payload =>
    dsimp only
    refine wp_seq (stage_spec counted 0 payload hash) (fun chunk staged done => ?_)
    obtain ⟨entered, has, dedup⟩ := done
    rw [wp_bind, wp_modify, wp_pure]
    have counts := entered.trans (acquired_countAdd outside entered.counted has _
      (bump_le (le_add_left 1 _)))
    refine { counts with known := ?_ }
    refine forall_mem_append.mpr ⟨?_, refRecord_known (show Has _ hash from has) 1 chunk⟩
    split_ifs
    · exact forall_mem_singleton.mpr ⟨has, rfl⟩
    · exact forall_mem_nil _

variable (outside) in
/-- Taking one more reference on a chunk that is there, with the dedup index already raised or
not. -/
theorem share_spec (has : engine.Has hash)
    (bumped : ∀ other, dedup other ≤ engine.dedup other + [hash].count other) :
    wp (share hash)
      (fun records next => Acquired outside engine next [hash] records ∧ next.dedup = dedup)
      never { engine with dedup := dedup } := by
  obtain ⟨chunk, found⟩ := has
  have counts := acquired_countAdd outside counted ⟨chunk, found⟩ dedup bumped
  unfold share
  rw [wp_bind, wp_modify, wp_bind, wp_get]
  have same : find hash
      (countAdd { engine with dedup := dedup } hash 1).chunkMap = some chunk := found
  rw [same]
  exact ⟨{ counts with
    known := refRecord_known (show Has _ hash from ⟨chunk, found⟩) 1 chunk }, rfl⟩

theorem putChunk_spec (chunk : Bytes) :
    wp (putChunk outside config chunk)
      (fun records next => Acquired outside engine next [outside.of chunk] records)
      (fun next => Acquired outside engine next [] []) engine := by
  unfold putChunk
  rw [wp_bind, wp_get]
  split_ifs with absent
  · exact storeNew_spec counted _ _
  · have live : 0 < engine.refcount (outside.of chunk) :=
      (pos_of_ne_zero absent).trans_le (counted.dedup _)
    rw [wp_bind, wp_modify]
    exact wp_mono (share_spec outside counted (counted.present _ live) (bump_le le_rfl))
      (fun _ _ done => done.1) fun _ no => no.elim

/-- The chunk loop takes a reference on each chunk. -/
theorem putChunks_spec (chunks : List Bytes) :
    wp (putChunks outside config chunks)
      (fun records next => Acquired outside engine next (chunks.map outside.of) records)
      (Gained outside engine) engine := by
  induction chunks generalizing engine with
  | nil => exact counted.acquired
  | cons chunk rest ih =>
    unfold putChunks
    rw [wp_bind]
    refine wp_mono (putChunk_spec counted chunk) (fun here middle first => ?_)
      fun _ failed => ⟨[], failed⟩
    rw [wp_bind]
    exact wp_mono (ih first.counted) (fun _ _ second => first.trans second)
      fun _ failed => first.forget.gained failed

/-- The list of the chunks has a reference taken on it. -/
theorem putMeta_spec (hashes : List Hash) :
    wp (putMeta outside config hashes)
      (fun records next =>
        Acquired outside engine next [outside.of (outside.pack hashes)] records)
      (fun next => Acquired outside engine next [] []) engine := by
  unfold putMeta
  dsimp only
  rw [wp_bind, wp_get]
  cases found : find (outside.of (outside.pack hashes)) engine.chunkMap with
  | none => exact storeNew_spec counted _ _
  | some chunk =>
    dsimp only
    rw [wp_bind]
    refine wp_mono (share_spec outside counted ⟨chunk, found⟩ fun _ => le_add_right _ _)
      (fun records next done => ?_) fun _ no => no.elim
    obtain ⟨acquired, same⟩ := done
    rw [wp_bind, wp_modify, wp_pure]
    split_ifs
    · exact acquired
    · refine acquired.index fun other => ?_
      rw [same, acquired.refcount]
      exact (bump_le le_rfl other).trans (Nat.add_le_add_right (counted.dedup other) _)

/-- Storing parity shards takes references on them. -/
theorem storeParity_spec (group : Nat) (shards : List Bytes) :
    wp (storeParity outside group shards) (fun _ => Gained outside engine)
      (Gained outside engine) engine := by
  induction shards generalizing engine with
  | nil => exact ⟨[], counted.acquired⟩
  | cons shard rest ih =>
    unfold storeParity
    rw [wp_bind]
    refine wp_mono (stage_spec counted group shard (outside.of shard))
      (fun _ staged done => ?_) fun next failed => ⟨[], failed⟩
    obtain ⟨entered, has, -⟩ := done
    have counts := entered.trans (acquired_countAdd outside entered.counted has staged.dedup
      fun _ => le_add_right _ _)
    rw [wp_bind, wp_modify, wp_bind]
    exact wp_mono (ih counts.counted) (fun _ _ later => counts.gained later)
      fun _ failed => counts.gained failed

/-- Making a group takes references on its parity shards. -/
theorem encodeGroup_spec (members : List Hash) :
    wp (encodeGroup outside members) (fun _ => Gained outside engine)
      (Gained outside engine) engine := by
  unfold encodeGroup
  rw [wp_bind, wp_get]
  dsimp only
  cases engine.fetchAll outside members with
  | none => exact ⟨[], counted.acquired⟩
  | some shards =>
    dsimp only
    cases outside.parity _ with
    | none => exact ⟨[], counted.acquired⟩
    | some parity =>
      -- entering chunks in a stripe takes no reference
      have joined : Acquired outside engine { engine with
          nextEcGroup := (engine.nextEcGroup + 1) % 256
          chunkMap := joinGroup engine.nextEcGroup members engine.chunkMap } [] [] :=
        counted.stays rfl rfl (fun hash => (find_joinGroup _ _ _ hash).2) (fun _ => rfl) rfl
      dsimp only
      rw [wp_bind, wp_modify, wp_bind]
      refine wp_mono (storeParity_spec joined.counted engine.nextEcGroup parity)
        (fun hashes next later => ?_) fun _ failed => joined.gained failed
      obtain ⟨taken, whole⟩ := joined.gained later
      exact ⟨taken, whole.names, whole.wal, whole.has, ⟨whole.counted.present, whole.counted.dedup⟩,
        whole.refcount, forall_mem_nil _⟩

/-- `encode_ec_groups` takes references on parity shards. -/
theorem encodeEcGroups_spec (groups : List (List Hash)) :
    wp (encodeEcGroups outside config groups) (fun _ => Gained outside engine)
      (Gained outside engine) engine := by
  unfold encodeEcGroups
  split_ifs
  · exact ⟨[], counted.acquired⟩
  · refine wp_each (fun members _ middle gained => ?_) ⟨[], counted.acquired⟩
    obtain ⟨hashes, first⟩ := gained
    exact wp_mono (encodeGroup_spec first.counted members)
      (fun _ _ later => first.gained later) fun _ failed => first.gained failed

end Acquire

/-- References released on chunks, and the records of it. -/
structure Released (outside : Outside Hash Name) (engine next : Engine Hash Name)
    (hashes : List Hash) (records : List (WalRecord Hash Name)) : Prop where
  names : next.names = engine.names
  wal : next.wal = engine.wal
  chunkMap : next.chunkMap = engine.chunkMap
  counted : next.Counted
  refcount : ∀ hash, next.refcount hash = engine.refcount hash - hashes.count hash
  /-- The records are of chunks that are there. -/
  known : ∀ record ∈ records, Known outside next record ∧ pointer record = false

section Release

theorem Counted.released (counted : engine.Counted) : Released outside engine engine [] [] where
  names := rfl
  wal := rfl
  chunkMap := rfl
  counted := counted
  refcount := fun _ => rfl
  known := forall_mem_nil _

theorem Released.has {hashes : List Hash} (released : Released outside engine next hashes records)
    (hash : Hash) :
    next.Has hash ↔ engine.Has hash := by
  unfold Has
  rw [released.chunkMap]

theorem Released.trans {first second : List Hash} {here later : List (WalRecord Hash Name)}
    (one : Released outside engine middle first here)
    (two : Released outside middle next second later) :
    Released outside engine next (first ++ second) (here ++ later) where
  names := two.names.trans one.names
  wal := two.wal.trans one.wal
  chunkMap := two.chunkMap.trans one.chunkMap
  counted := two.counted
  refcount := by
    intro hash
    rw [two.refcount, one.refcount, count_append, Nat.sub_sub]
  known := by
    refine forall_mem_append.mpr ⟨fun record before => ?_, two.known⟩
    have grows : middle.names.Grows next.names := by
      rw [two.names]
      exact .refl _
    exact (one.known record before).imp_left (·.mono grows fun hash => (two.has hash).mpr)

/-- Releasing a reference fails only if the chunk is missing. -/
theorem release_spec (counted : engine.Counted) (hash : Hash) :
    wp (release hash) (fun records next => Released outside engine next [hash] records)
      (fun next => Released outside engine next [hash] [] ∧ ¬ engine.Has hash) engine := by
  have counts : ∀ other, (engine.countAdd hash (-1)).refcount other =
      engine.refcount other - [hash].count other := fun other => by
    rw [refcount_countAdd]
    omega
  have released : Released outside engine
      { engine.countAdd hash (-1) with
        dedup := update engine.dedup hash (engine.dedup hash - 1) } [hash] [] := by
    refine ⟨rfl, rfl, rfl, ⟨fun other live => ?_, fun other => ?_⟩, counts, forall_mem_nil _⟩
    · have before := counts other
      exact counted.present other (lt_of_lt_of_le live (before.le.trans (sub_le _ _)))
    · have before := counts other
      have below := counted.dedup other
      refine le_trans ?_ before.ge
      dsimp only
      rw [update_apply]
      split_ifs with same
      · rw [same] at below ⊢
        rw [count_singleton_self]
        omega
      · rw [count_eq_zero_of_not_mem (by simpa using same)]
        exact below
  unfold release
  rw [wp_bind, wp_modify, wp_bind, wp_get]
  dsimp only
  cases found : find hash engine.chunkMap with
  | none =>
    have missing : find hash (engine.countAdd hash (-1)).chunkMap = none := found
    rw [missing]
    refine ⟨released, fun has => ?_⟩
    obtain ⟨chunk, present⟩ := has
    rw [found] at present
    cases present
  | some chunk =>
    have there : find hash (engine.countAdd hash (-1)).chunkMap = some chunk := found
    rw [there]
    exact { released with
      known := refRecord_known (show Has _ hash from ⟨chunk, found⟩) (-1) chunk }

variable (outside) in
/-- Releasing references fails only if a chunk is missing. -/
theorem releaseAll_spec (counted : engine.Counted) (hashes : List Hash) :
    wp (releaseAll hashes) (fun records next => Released outside engine next hashes records)
      (fun next => (∃ some, Released outside engine next some []) ∧
        ∃ hash ∈ hashes, ¬ engine.Has hash) engine := by
  induction hashes generalizing engine with
  | nil => exact counted.released
  | cons hash rest ih =>
    unfold releaseAll
    rw [wp_bind]
    refine wp_mono (release_spec counted hash) (fun here middle first => ?_)
      fun next failed => ⟨⟨_, failed.1⟩, hash, mem_cons_self, failed.2⟩
    rw [wp_bind]
    refine wp_mono (ih first.counted) (fun later next second => first.trans second)
      fun next failed => ?_
    obtain ⟨⟨others, second⟩, missing, mem, absent⟩ := failed
    have forgotten : Released outside engine middle [hash] [] :=
      { first with known := forall_mem_nil _ }
    exact ⟨⟨_, forgotten.trans second⟩, missing, mem_cons_of_mem _ mem,
      fun has => absent ((first.has missing).mpr has)⟩

end Release
end Engine
end LionFS.Cluster
