import LionFS.Cluster.Engine.Chunks

/-!
# Reading chunks and versions

A chunk that is read has the hash it is read under, so what a version reads as is
fixed by its node; only whether it can be read changes. A chunk whose extent is
kept and whose content is a wrapped chunk of its hash is read.
-/
namespace LionFS.Cluster
open LionFS Extents List Option
namespace Engine
variable {Hash Name : Type} [DecidableEq Hash] {outside : Outside Hash Name}
  {engine later : Engine Hash Name} {hash : Hash}

theorem readChunk_hash {plain : Bytes} (read : engine.readChunk outside hash = some plain) :
    outside.of plain = hash ∧ engine.Has hash := by
  unfold readChunk at read
  split at read
  · cases read
  · next chunk found =>
    split at read
    · cases read
    · next payload fetched =>
      split at read
      · cases read
      · next bytes unwrapped =>
        split_ifs at read with own
        cases read
        exact ⟨own, chunk, found⟩

section
variable (fit : Fit outside engine) (careful : engine.careful = true)
  (kept : ∀ extent, engine.store.latest hash = some extent → (extent, hash) ∈ engine.store.kept)
include fit careful kept

theorem fetch_of_kept {chunk : StoredChunk Hash}
    (found : Table.find hash engine.chunkMap = some chunk) :
    ∃ payload, engine.store.content hash = some payload ∧
      engine.fetchAndVerify outside chunk = some payload := by
  obtain ⟨extent, payload, latest, desc, content, stored⟩ := fit.placed hash chunk found
  obtain ⟨bytes, known, read⟩ := (fit.sound careful).1.reads _ (kept extent latest)
  have same : payload = bytes := by
    rw [content] at known
    exact some.inj known
  have place : engine.store.store.readExtent outside.zstd chunk.desc = some bytes := by
    rw [desc]
    exact read
  refine ⟨payload, content, ?_⟩
  unfold fetchAndVerify
  rw [place, stored, same]
  dsimp only
  exact if_neg fun both => both.2 rfl

theorem readChunk_of_sealed (has : engine.Has hash) (sealed : Sealed outside engine.store hash) :
    ∃ plain, engine.readChunk outside hash = some plain := by
  obtain ⟨chunk, found⟩ := has
  obtain ⟨payload, content, fetched⟩ := fetch_of_kept fit careful kept found
  obtain ⟨bytes, plain, known, unwrapped, own⟩ := sealed
  rw [content] at known
  have same := some.inj known
  refine ⟨plain, ?_⟩
  unfold readChunk
  rw [found]
  dsimp only
  rw [fetched]
  dsimp only
  rw [same, unwrapped]
  exact if_pos own

theorem sealed_of_readChunk {plain : Bytes}
    (read : engine.readChunk outside hash = some plain) : Sealed outside engine.store hash := by
  obtain ⟨own, chunk, found⟩ := readChunk_hash read
  obtain ⟨payload, content, fetched⟩ := fetch_of_kept fit careful kept found
  unfold readChunk at read
  rw [found] at read
  dsimp only at read
  rw [fetched] at read
  dsimp only at read
  split at read
  · cases read
  · next bytes unwrapped =>
    split_ifs at read with hashed
    exact ⟨payload, bytes, content, unwrapped, hashed⟩

end

variable {hashes : List Hash}

theorem readChunks_congr
    (same : ∀ hash ∈ hashes, later.readChunk outside hash = engine.readChunk outside hash) :
    later.readChunks outside hashes = engine.readChunks outside hashes := by
  induction hashes with
  | nil => rfl
  | cons hash rest ih =>
    unfold readChunks
    rw [same hash mem_cons_self, ih (forall_mem_cons.mp same).2]

theorem readChunk_of_readChunks {data : Bytes}
    (read : engine.readChunks outside hashes = some data) :
    ∀ hash ∈ hashes, ∃ plain, engine.readChunk outside hash = some plain := by
  induction hashes generalizing data with
  | nil => exact forall_mem_nil _
  | cons first rest ih =>
    unfold readChunks at read
    split at read
    · cases read
    · next plain here =>
      obtain ⟨later, remains, -⟩ := map_eq_some_iff.mp read
      exact forall_mem_cons.mpr ⟨⟨plain, here⟩, ih remains⟩

theorem readChunks_of_readChunk
    (read : ∀ hash ∈ hashes, ∃ plain, engine.readChunk outside hash = some plain) :
    ∃ chunks : List Bytes, chunks.map outside.of = hashes ∧
      engine.readChunks outside hashes = some chunks.flatten := by
  induction hashes with
  | nil => exact ⟨[], rfl, rfl⟩
  | cons first rest ih =>
    obtain ⟨plain, here⟩ := read first mem_cons_self
    obtain ⟨chunks, hashed, remains⟩ := ih (forall_mem_cons.mp read).2
    refine ⟨plain :: chunks, ?_, ?_⟩
    · rw [map_cons, hashed, (readChunk_hash here).1]
    · unfold readChunks
      rw [here, remains]
      rfl

/-- The chunks that reading a version reads: its list and the chunks listed. -/
def versionChunks (outside : Outside Hash Name) (engine : Engine Hash Name) (head : Hash) :
    List Hash :=
  match engine.names.repo head with
  | none => []
  | some node =>
    node.contentHash ::
      ((engine.readChunk outside node.contentHash).bind outside.unpack).getD []

variable {head : Hash}

theorem readVersion_congr (node : later.names.repo head = engine.names.repo head)
    (same : ∀ hash ∈ engine.versionChunks outside head,
      later.readChunk outside hash = engine.readChunk outside hash) :
    later.readVersion outside head = engine.readVersion outside head := by
  unfold versionChunks at same
  unfold readVersion
  rw [node]
  cases found : engine.names.repo head with
  | none => rfl
  | some node =>
    rw [found] at same
    dsimp only at same ⊢
    rw [same _ mem_cons_self]
    split_ifs
    · rfl
    · cases packed : engine.readChunk outside node.contentHash with
      | none => rfl
      | some bytes =>
        dsimp only
        rw [packed] at same
        cases unpacked : outside.unpack bytes with
        | none => rfl
        | some hashes =>
          apply readChunks_congr
          intro hash mem
          apply same hash
          rw [bind_some, unpacked]
          exact mem_cons_of_mem _ mem

theorem readChunk_of_readVersion {data : Bytes}
    (read : engine.readVersion outside head = some data) :
    ∀ hash ∈ engine.versionChunks outside head,
      ∃ plain, engine.readChunk outside hash = some plain := by
  intro hash mem
  unfold versionChunks at mem
  unfold readVersion at read
  cases found : engine.names.repo head with
  | none =>
    rw [found] at read
    cases read
  | some node =>
    rw [found] at read mem
    dsimp only at read mem
    split_ifs at read
    cases packed : engine.readChunk outside node.contentHash with
    | none =>
      rw [packed] at read
      cases read
    | some bytes =>
      rw [packed] at read mem
      dsimp only at read
      split at read
      · cases read
      · next hashes unpacked =>
        rw [bind_some, unpacked] at mem
        rcases mem_cons.mp mem with same | listed
        · rw [same]
          exact ⟨bytes, packed⟩
        · exact readChunk_of_readChunks read hash listed

theorem readVersion_of_file (lawful : outside.Lawful) {node : VersionNode Hash}
    (found : engine.names.repo head = some node) (kind : node.kind = .file)
    (content : node.contentHash = outside.of (outside.pack hashes))
    (read : ∀ hash ∈ node.contentHash :: hashes,
      ∃ plain, engine.readChunk outside hash = some plain) :
    ∃ chunks : List Bytes, chunks.map outside.of = hashes ∧
      engine.readVersion outside head = some chunks.flatten := by
  obtain ⟨packed, here⟩ := read _ mem_cons_self
  obtain ⟨chunks, hashed, remains⟩ := readChunks_of_readChunk (forall_mem_cons.mp read).2
  have same : packed = outside.pack hashes :=
    lawful.of_injective ((readChunk_hash here).1.trans content)
  refine ⟨chunks, hashed, ?_⟩
  unfold readVersion
  rw [found]
  dsimp only
  rw [if_neg (by rw [kind]; decide), here]
  dsimp only
  rw [same, lawful.unpack_pack]
  exact remains

end Engine
end LionFS.Cluster
