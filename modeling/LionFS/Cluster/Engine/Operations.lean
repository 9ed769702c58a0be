import LionFS.Cluster.Engine.Counting
import LionFS.Cluster.Engine.Reading

/-!
# What the operations do

What each operation does to the namespace, the counts and the log. `Consistent`
is what every operation keeps: counts are backed by the chunk map, and everything
the log refers to is there, its last root and its last snapshots being the
current ones.
-/
namespace LionFS.Cluster
open Run List Option Function LionFS Extents
namespace Engine
variable {Hash Name : Type} [DecidableEq Hash]

/-- What every operation keeps. -/
structure Consistent [LinearOrder Name] (outside : Outside Hash Name)
    (engine : Engine Hash Name) : Prop where
  formed : engine.names.Formed outside
  rooted : engine.names.Rooted
  counted : engine.Counted
  known : ∀ record ∈ engine.wal, Known outside engine record
  head : headAfter engine.names.rootHead engine.wal = engine.names.rootHead
  /-- The last snapshots in the log are the snapshots. -/
  snapshots : ∀ name, snapshotAfter name (engine.names.snapshots name) engine.wal =
    engine.names.snapshots name

section Commit
variable {outside : Outside Hash Name} {engine next : Engine Hash Name}

/-- The records of the nodes made since the last drain refer to what is there. -/
theorem createdRecords_known (formed : engine.names.Formed outside) :
    ∀ record ∈ createdRecords engine.names,
      Known outside engine record ∧ pointer record = false := by
  intro record mem
  obtain ⟨made, among, listed⟩ := mem_flatMap.mp mem
  obtain ⟨node, children⟩ := formed.made made among
  rcases mem_cons.mp listed with same | mapped
  · rw [same]
    exact ⟨node, rfl⟩
  · obtain ⟨listing, found, same⟩ := map_eq_some_iff.mp (mem_toList.mp mapped)
    rw [← same]
    exact ⟨children listing found, rfl⟩

/-- The references of a file with a list of chunks: the chunks, and then the list. -/
def references (outside : Outside Hash Name) (hashes : List Hash) : List Hash :=
  hashes ++ [outside.of (outside.pack hashes)]

variable [LinearOrder Name]

/-- With an empty log there is nothing to refer to. -/
theorem consistent_of_empty (formed : engine.names.Formed outside) (rooted : engine.names.Rooted)
    (counted : engine.Counted) (wal : engine.wal = []) : Consistent outside engine where
  formed := formed
  rooted := rooted
  counted := counted
  known := by
    rw [wal]
    exact forall_mem_nil _
  head := by
    rw [wal]
    rfl
  snapshots := by
    rw [wal]
    exact fun _ => rfl

theorem consistent_create (outside : Outside Hash Name) (geo : Geometry) :
    Consistent outside (create outside geo) := by
  refine consistent_of_empty (Namespace.formed_fresh outside _) (Namespace.rooted_fresh outside _)
    ⟨fun hash live => ?_, fun _ => le_refl 0⟩ rfl
  exact absurd live (Nat.lt_irrefl 0)

variable {records : List (WalRecord Hash Name)} {config : Config} (lawful : outside.Lawful)
  (ok : Consistent outside engine)
include ok

/-- A state with the log and the roots of a consistent one, with more behind them. -/
theorem Consistent.grow (more : engine.names.Extends outside next.names)
    (wal : next.wal = engine.wal) (has : ∀ hash, engine.Has hash → next.Has hash)
    (counted : next.Counted) :
    Consistent outside next where
  formed := more.formed
  rooted := more.rooted ok.rooted
  counted := counted
  known := by
    rw [wal]
    exact fun record mem => (ok.known record mem).mono more.grows has
  head := by
    rw [wal, more.rootHead]
    exact ok.head
  snapshots := by
    rw [wal, more.snapshots]
    exact ok.snapshots

/-- A state whose root was swapped and logged, behind records of what is there. -/
theorem Consistent.swap {root : Hash} (time : Nat) (records : List (WalRecord Hash Name))
    (formed : next.names.Formed outside) (rooted : next.names.Rooted)
    (grows : engine.names.Grows next.names)
    (snapshots : next.names.snapshots = engine.names.snapshots)
    (rootHead : next.names.rootHead = root)
    (wal : next.wal = engine.wal ++ records ++ [.headOp root time])
    (known : ∀ record ∈ records, Known outside next record ∧ pointer record = false)
    (has : ∀ hash, engine.Has hash → next.Has hash) (counted : next.Counted) :
    Consistent outside next where
  formed := formed
  rooted := rooted
  counted := counted
  known := by
    rw [wal, append_assoc, forall_mem_append, forall_mem_append, forall_mem_singleton]
    refine ⟨fun record before => ?_, fun record new => (known record new).1, trivial⟩
    exact (ok.known record before).mono grows has
  head := by
    rw [wal, headAfter_append, rootHead]
    rfl
  snapshots := by
    intro name
    rw [wal, snapshotAfter_append, snapshotAfter_append, snapshots, ok.snapshots,
      snapshotAfter_plain fun record mem => (known record mem).2]
    rfl

/-- Taking references keeps an engine consistent. -/
theorem Acquired.consistent {hashes : List Hash}
    (acquired : Acquired outside engine next hashes records) : Consistent outside next := by
  refine ok.grow ?_ acquired.wal acquired.has acquired.counted
  rw [acquired.names]
  exact ok.formed.extends_self

theorem Released.consistent {hashes : List Hash}
    (released : Released outside engine next hashes records) : Consistent outside next := by
  refine ok.grow ?_ released.wal (fun hash => (released.has hash).mpr) released.counted
  rw [released.names]
  exact ok.formed.extends_self

/-- A checkpoint leaves the namespace, the counts and a consistent engine. -/
theorem Saves.keeps (saves : Saves engine next) : Consistent outside next ∧
    next.names = engine.names ∧ next.refcount = engine.refcount := by
  rcases saves with rfl | ⟨frame, rfl⟩
  · exact ⟨ok, rfl, rfl⟩
  · refine ⟨?_, rfl, rfl⟩
    exact consistent_of_empty ok.formed ok.rooted ⟨ok.counted.present, ok.counted.dedup⟩ rfl

/-- `snapshot` logs the root it enters. -/
theorem Consistent.snapshot (name : Name) : Consistent outside (engine.snapshot name) where
  formed := { ok.formed with }
  rooted := ok.rooted.snapshot name
  counted := ⟨ok.counted.present, ok.counted.dedup⟩
  known := by
    refine forall_mem_append.mpr ⟨fun record before => ?_, forall_mem_singleton.mpr trivial⟩
    exact (ok.known record before).mono
      ⟨fun _ _ found => found, fun _ _ found => found⟩ fun _ has => has
  head := (headAfter_append _ _ _).trans ok.head
  snapshots := by
    intro other
    change snapshotAfter other (update engine.names.snapshots name _ other)
      (engine.wal ++ [.snapshotOp name engine.names.rootHead]) =
        update engine.names.snapshots name _ other
    rw [snapshotAfter_append]
    by_cases same : other = name
    · rw [same, update_self]
      exact if_pos rfl
    · rw [update_of_ne same, ok.snapshots]
      exact if_neg (Ne.symm same)

/-- `restore` swaps the root for that of a snapshot and logs it; without a snapshot it does
nothing. -/
theorem restore_cases (name : Name) :
    (∃ root node, engine.names.snapshots name = some root ∧
        engine.names.repo root = some node ∧
        restore name engine =
          (some root,
            { engine with
              names := { engine.names with
                rootHead := root
                rootChain := engine.names.rootChain ++ [(node.timestamp, root)] }
              wal := engine.wal ++ [.headOp root node.timestamp] })) ∨
      engine.names.snapshots name = none ∧ restore name engine = (none, engine) := by
  have focused : ∀ {next}, Namespace.restore name engine.names = next →
      Run.focus Engine.names (fun engine names => { engine with names := names })
        (Namespace.restore name) engine = (next.1, { engine with names := next.2 }) := by
    rintro _ rfl
    rfl
  unfold restore
  cases taken : engine.names.snapshots name with
  | none =>
    have kept : Namespace.restore name engine.names = (none, engine.names) := by
      unfold Namespace.restore
      rw [taken]
    exact .inr ⟨rfl, bind_none (focused kept)⟩
  | some root =>
    obtain ⟨node, found⟩ := (ok.rooted.snapshots name root taken).present
    refine .inl ⟨root, node, rfl, found, ?_⟩
    have swapped : Namespace.restore name engine.names = (some root, { engine.names with
        rootHead := root, rootChain := engine.names.rootChain ++ [(node.timestamp, root)] }) := by
      unfold Namespace.restore
      rw [taken]
      dsimp only
      rw [found]
    rw [bind_some (focused swapped), bind_some (show Run.get _ = _ from rfl)]
    dsimp only
    rw [found]
    rfl

/-- `restore` keeps an engine consistent, and its nodes, child maps and snapshots. -/
theorem Consistent.restore (name : Name) : Consistent outside (restore name engine).2 := by
  rcases restore_cases ok name with ⟨root, node, taken, found, same⟩ | ⟨-, same⟩
  · rw [same]
    refine ok.swap node.timestamp [] { ok.formed with } ?_
      ⟨fun _ _ found => found, fun _ _ found => found⟩ rfl rfl (by rw [append_nil])
      (forall_mem_nil _) (fun _ has => has)
      ⟨ok.counted.present, ok.counted.dedup⟩
    exact ⟨ok.rooted.snapshots name root taken, ⟨_, getLast?_concat⟩, ok.rooted.snapshots⟩
  · rw [same]
    exact ok

include lawful

/-- Committing a version of a file or a deletion marker. It fails only if the path does not
resolve. -/
theorem commitVersion_spec {path : List Name} {node : VersionNode Hash}
    (linear : node.parents.length ≤ 1) (kind : node.kind ≠ .directory)
    (filed : node.kind = .file → ∃ hashes, node.contentHash = outside.of (outside.pack hashes))
    (known : ∀ record ∈ records, Known outside engine record ∧ pointer record = false) (sync : Bool)
    :
    wp (commitVersion outside path node records sync)
      (fun head next => head = outside.nodeHash node ∧ Consistent outside next ∧
        (∃ root, engine.names.Swapped outside next.names path head root) ∧
        next.names.repo head = some node ∧ ∀ hash, next.refcount hash = engine.refcount hash)
      (fun next => Consistent outside next ∧ engine.names.Extends outside next.names ∧
        (path ≠ [] → engine.names.resolve path = none) ∧
        ∀ hash, next.refcount hash = engine.refcount hash) engine := by
  have put := ok.formed.putNode lawful linear (fun directory => absurd directory kind) filed
  have there : (engine.names.putNode outside node).repo (outside.nodeHash node) = some node :=
    Namespace.putNode_repo node
  unfold commitVersion
  rw [wp_bind, wp_modify, wp_bind, wp_focus]
  refine wp_mono (Namespace.setPathAt_spec put.formed lawful kind node.timestamp path
    (put.rooted ok.rooted) there) (fun root names swapped => ?_) fun names failed => ?_
  · rw [wp_bind, wp_modify, wp_pure]
    have whole := swapped.settle ok.formed put ok.rooted
    have made := @createdRecords_known _ _ _ _ { engine with names := names } swapped.formed
    refine ⟨rfl, ok.swap node.timestamp (records ++ [.vnode node] ++ createdRecords names)
      whole.formed whole.rooted whole.grows whole.snapshots whole.rootHead ?_ ?_
      (fun _ has => has) ⟨ok.counted.present, ok.counted.dedup⟩, ⟨root, whole⟩,
      swapped.grows.repo _ _ there, fun _ => rfl⟩
    · simp only [append_assoc]
    · rw [append_assoc, forall_mem_append, forall_mem_append, forall_mem_singleton]
      refine ⟨fun record before => ?_, ⟨swapped.grows.repo _ _ there, rfl⟩,
        fun record drained => ?_⟩
      · exact (known record before).imp_left (·.mono whole.grows fun _ has => has)
      · exact (made record drained).imp_left
          (·.mono ⟨fun _ _ found => found, fun _ _ found => found⟩ fun _ has => has)
  · refine ⟨ok.grow (put.trans failed.1) rfl (fun _ has => has)
      ⟨ok.counted.present, ok.counted.dedup⟩, put.trans failed.1,
      fun nonempty => ?_, fun _ => rfl⟩
    rw [← put.resolve ok.formed ok.rooted]
    exact failed.2 nonempty

theorem put_spec (path : List Name) (data : Bytes) (time : Nat) :
    wp (put outside config path data time)
      (fun head next => Consistent outside next ∧
        (∃ root, engine.names.Swapped outside next.names path head root) ∧
        (∃ node, next.names.repo head = some node ∧ node.kind = .file ∧
          node.contentHash = outside.of (outside.pack ((outside.chunk data).map outside.of))) ∧
        ∀ hash, next.refcount hash = engine.refcount hash +
          (references outside ((outside.chunk data).map outside.of)).count hash)
      (fun next => Consistent outside next ∧ engine.names.Extends outside next.names ∧
        ∀ hash, engine.refcount hash ≤ next.refcount hash) engine := by
  have failing {next : Engine Hash Name} {hashes : List Hash}
      (acquired : Acquired outside engine next hashes []) :
      Consistent outside next ∧ engine.names.Extends outside next.names ∧
        ∀ hash, engine.refcount hash ≤ next.refcount hash := by
    refine ⟨acquired.consistent ok, ?_, fun hash => ?_⟩
    · rw [acquired.names]
      exact ok.formed.extends_self
    · rw [acquired.refcount]
      exact Nat.le_add_right _ _
  unfold put
  dsimp only
  rw [wp_bind]
  refine wp_mono (putChunks_spec ok.counted _) (fun staged middle first => ?_)
    fun next failed => failing failed.choose_spec
  rw [wp_bind]
  refine wp_mono (putMeta_spec first.counted _) (fun listed counted second => ?_)
    fun next failed => failing (first.forget.trans failed)
  have taken := first.trans second
  rw [wp_bind, wp_get]
  refine wp_mono (commitVersion_spec lawful (taken.consistent ok) ?_ ?_ ?_ taken.known
    _) (fun head next committed => ?_) fun next failed => ?_
  · change (toList _).length ≤ 1
    cases counted.names.resolve path <;> simp
  · exact nofun
  · exact fun _ => ⟨_, rfl⟩
  · obtain ⟨-, kept, swapped, there, counts⟩ := committed
    rw [taken.names] at swapped
    refine ⟨kept, swapped, ⟨_, there, rfl, rfl⟩, fun hash => ?_⟩
    rw [counts, taken.refcount]
    rfl
  · obtain ⟨kept, more, -, counts⟩ := failed
    rw [taken.names] at more
    refine ⟨kept, more, fun hash => ?_⟩
    rw [counts, taken.refcount]
    exact Nat.le_add_right _ _

/-- The references that are released are those of the file, and none if it is no file. It fails
without releasing any unless a chunk of the file is missing. -/
theorem releaseVersion_spec {head : Hash} {node : VersionNode Hash}
    (found : engine.names.repo head = some node) :
    wp (releaseVersion outside node)
      (fun records next => ∃ hashes, Released outside engine next hashes records ∧
        (node.kind = .file → ∃ listed, node.contentHash = outside.of (outside.pack listed) ∧
          hashes = references outside listed) ∧ (node.kind ≠ .file → hashes = []))
      (fun next => ∃ hashes, Released outside engine next hashes [] ∧
        (hashes ≠ [] → ∃ listed, node.kind = .file ∧
          node.contentHash = outside.of (outside.pack listed) ∧
          ∃ hash ∈ references outside listed, ¬ engine.Has hash)) engine := by
  unfold releaseVersion
  split_ifs with kind
  · obtain ⟨listed, content⟩ := ok.formed.filed head node found kind
    rw [wp_bind, wp_get]
    cases read : (engine.readChunk outside node.contentHash).bind outside.unpack with
    | none => exact ⟨[], ok.counted.released, absurd rfl⟩
    | some hashes =>
      obtain ⟨packed, here, unpacked⟩ := bind_eq_some_iff.mp read
      have same : packed = outside.pack listed :=
        lawful.of_injective ((readChunk_hash here).1.trans content)
      rw [same, lawful.unpack_pack] at unpacked
      have own : hashes ++ [node.contentHash] = references outside listed := by
        rw [← some.inj unpacked, content]
        rfl
      dsimp only
      rw [own]
      refine wp_mono (releaseAll_spec outside ok.counted _) (fun records next released => ?_)
        fun next failed => ?_
      · exact ⟨_, released, fun _ => ⟨listed, content, rfl⟩, absurd kind⟩
      · obtain ⟨⟨hashes, released⟩, missing⟩ := failed
        exact ⟨hashes, released, fun _ => ⟨listed, kind, content, missing⟩⟩
  · exact ⟨[], ok.counted.released, fun file => absurd file kind, fun _ => rfl⟩

/-- `delete`: a deletion marker at a path that resolved, with the references of a file released.
When it fails it has released nothing, unless a chunk of the file is missing. -/
theorem delete_spec (path : List Name) (time : Nat) :
    wp (delete outside path time)
      (fun head next => Consistent outside next ∧
        (∃ root, engine.names.Swapped outside next.names path head root) ∧
        (∃ marker, next.names.repo head = some marker ∧ marker.kind = .tombstone) ∧
        ((∀ hash, next.refcount hash = engine.refcount hash) ∨
          ∃ listed, engine.names.FileAt outside engine.names.rootHead path listed ∧
            ∀ hash, next.refcount hash =
              engine.refcount hash - (references outside listed).count hash))
      (fun next => Consistent outside next ∧ engine.names.Extends outside next.names ∧
        ((∀ hash, next.refcount hash = engine.refcount hash) ∨
          ∃ listed, engine.names.FileAt outside engine.names.rootHead path listed ∧
            ∃ hash ∈ references outside listed, ¬ engine.Has hash)) engine := by
  unfold delete
  rw [wp_bind, wp_get]
  cases resolved : engine.names.resolve path with
  | none => exact ⟨ok, ok.formed.extends_self, .inl fun _ => rfl⟩
  | some parent =>
    dsimp only
    cases found : engine.names.repo parent with
    | none => exact ⟨ok, ok.formed.extends_self, .inl fun _ => rfl⟩
    | some node =>
      dsimp only
      rw [wp_bind]
      refine wp_mono (releaseVersion_spec lawful ok found)
        (fun records middle done => ?_) fun next failed => ?_
      · obtain ⟨hashes, released, file, other⟩ := done
        rw [wp_bind, wp_get]
        refine wp_mono (commitVersion_spec lawful (released.consistent ok)
          (le_refl 1) (fun no => by cases no) (fun no => by cases no)
          released.known false) (fun head next committed => ?_) fun next failed => ?_
        · obtain ⟨-, kept, swapped, there, counts⟩ := committed
          rw [released.names] at swapped
          refine ⟨kept, swapped, ⟨_, there, rfl⟩, ?_⟩
          by_cases kind : node.kind = .file
          · obtain ⟨listed, content, same⟩ := file kind
            refine .inr ⟨listed, ⟨parent, node, resolved, found, kind, content⟩, fun hash => ?_⟩
            rw [counts, released.refcount, same]
          · refine .inl fun hash => ?_
            rw [counts, released.refcount, other kind]
            rfl
        · obtain ⟨kept, more, unresolved, counts⟩ := failed
          rw [released.names] at more unresolved
          refine ⟨kept, more, .inl fun hash => ?_⟩
          have top : path = [] := by
            by_contra nonempty
            rw [unresolved nonempty] at resolved
            cases resolved
          obtain ⟨own, here, directory⟩ := ok.rooted.root
          rw [top] at resolved
          have same : engine.names.rootHead = parent := some.inj resolved
          rw [same, found] at here
          have kind : node.kind ≠ .file := by
            rw [some.inj here, directory]
            decide
          rw [counts, released.refcount, other kind]
          rfl
      · obtain ⟨hashes, released, missing⟩ := failed
        refine ⟨released.consistent ok, ?_, ?_⟩
        · rw [released.names]
          exact ok.formed.extends_self
        · by_cases none : hashes = []
          · refine .inl fun hash => ?_
            rw [released.refcount, none]
            rfl
          · obtain ⟨listed, kind, content, absent⟩ := missing none
            exact .inr ⟨listed, ⟨parent, node, resolved, found, kind, content⟩, absent⟩

/-- `gc` leaves the namespace and the counts alone. -/
theorem gc_spec {picks : List Nat} {blobs : Bytes × Bytes} {outcome : Option PUnit}
    (ran : gc outside config picks blobs engine = some (outcome, next)) :
    Consistent outside next ∧ next.names = engine.names ∧
      ∀ hash, next.refcount hash = engine.refcount hash := by
  obtain ⟨saved, cleaned, saves, cleaning, ends⟩ := gc_cases lawful.inverts ran
  obtain ⟨before, names, counts⟩ := saves.keeps ok
  have stays : Acquired outside saved cleaned [] [] :=
    before.counted.stays cleaning.names cleaning.wal (fun hash => (cleaning.has hash).mpr)
      cleaning.refcount cleaning.dedup
  have kept : Consistent outside cleaned := stays.consistent before
  have same : ∀ hash, cleaned.refcount hash = engine.refcount hash := fun hash =>
    (cleaning.refcount hash).trans (congrFun counts hash)
  rcases ends with ⟨-, rfl⟩ | ⟨empty, last⟩
  · exact ⟨kept, cleaning.names.trans names, same⟩
  · have swept : Consistent outside cleaned.sweep := by
      refine consistent_of_empty kept.formed kept.rooted ⟨fun hash live => ?_, kept.counted.dedup⟩
        empty
      exact (has_sweep cleaned hash).mpr ⟨kept.counted.present hash live, live⟩
    obtain ⟨after, still, counted⟩ := last.keeps swept
    exact ⟨after, still.trans (cleaning.names.trans names), fun hash =>
      (congrFun counted hash).trans (same hash)⟩

/-- No node and no child map is lost, and no snapshot is entered but that of the operation. -/
structure Follows (op : Op Hash Name) (engine next : Engine Hash Name) : Prop where
  grows : engine.names.Grows next.names
  snapshots : ∀ name, op ≠ .snapshot name →
    next.names.snapshots name = engine.names.snapshots name

omit ok lawful [DecidableEq Hash] [LinearOrder Name] in
theorem follows_of_same {op : Op Hash Name} (names : next.names = engine.names) :
    Follows op engine next := by
  constructor
  · rw [names]
    exact .refl _
  · exact fun name _ => by rw [names]

theorem Consistent.step {op : Op Hash Name} (taken : step outside config engine op = some next) :
    Consistent outside next ∧ Follows op engine next := by
  cases op with
  | put path data time =>
    cases taken
    apply @state_of_wp _ _ _ _ fun next => Consistent outside next ∧ Follows _ engine next
    refine wp_mono (put_spec lawful ok path data time) (fun head next done => ?_)
      fun next failed => ?_
    · obtain ⟨kept, ⟨root, swap⟩, -⟩ := done
      exact ⟨kept, swap.grows, fun name _ => congrFun swap.snapshots name⟩
    · exact ⟨failed.1, failed.2.1.grows, fun name _ => congrFun failed.2.1.snapshots name⟩
  | delete path time =>
    cases taken
    apply @state_of_wp _ _ _ _ fun next => Consistent outside next ∧ Follows _ engine next
    refine wp_mono (delete_spec lawful ok path time) (fun head next done => ?_)
      fun next failed => ?_
    · obtain ⟨kept, ⟨root, swap⟩, -⟩ := done
      exact ⟨kept, swap.grows, fun name _ => congrFun swap.snapshots name⟩
    · exact ⟨failed.1, failed.2.1.grows, fun name _ => congrFun failed.2.1.snapshots name⟩
  | snapshot name =>
    cases taken
    refine ⟨ok.snapshot name, ⟨fun _ _ found => found, fun _ _ found => found⟩, fun other ne => ?_⟩
    exact update_of_ne (fun same => ne (by rw [same])) _ _
  | restore name =>
    cases taken
    refine ⟨ok.restore name, ?_⟩
    rcases restore_cases ok name with ⟨root, node, -, -, outcome⟩ | ⟨-, outcome⟩
    · rw [outcome]
      exact ⟨⟨fun _ _ found => found, fun _ _ found => found⟩, fun _ _ => rfl⟩
    · rw [outcome]
      exact follows_of_same rfl
  | checkpoint blob =>
    cases taken
    obtain ⟨kept, names, -⟩ := (checkpoint_saves outside blob engine).keeps ok
    exact ⟨kept, follows_of_same names⟩
  | gc picks blobs =>
    obtain ⟨⟨outcome, last⟩, ran, same⟩ := map_eq_some_iff.mp taken
    obtain ⟨kept, names, -⟩ := gc_spec lawful ok ran
    rw [← same]
    exact ⟨kept, follows_of_same names⟩
  | encode groups =>
    unfold Engine.step at taken
    dsimp only at taken
    split_ifs at taken
    cases taken
    have gained : Gained outside engine (encodeEcGroups outside config groups engine).2 :=
      state_of_wp (encodeEcGroups_spec ok.counted groups)
    obtain ⟨hashes, acquired⟩ := gained
    exact ⟨acquired.consistent ok, follows_of_same acquired.names⟩

end Commit
end Engine
end LionFS.Cluster
