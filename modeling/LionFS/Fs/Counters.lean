import LionFS.Fs.Session

/-!
# What a crash does to the counters

Within one process both counters only grow, so no number and no stamp is handed
out twice. A crash sets them back to what the slots hold. The inode counter is
then below the numbers on the device unless the slots were written after the last
inode was committed; the stamp counter is below the stamps on the device unless
they were written, by a commit that moved a root, after the last node was. A clean
unmount writes the slots with the current inode counter and an old stamp mark.
-/
namespace LionFS.Fs
open List Nat Assoc
variable (volume : Volume)

/-- The nodes of a volume: on the device and in the transactions of the mount. -/
def Volume.entries : List (Nat × Node) :=
  (volume.live.toList.flatMap fun live => live.groups.flatMap NodeTx.dirty) ++ volume.disk

/-- The numbers and stamps about to be written. -/
def Volume.drawn : List Item := volume.live.toList.flatMap Live.drawn

/-- The items of a volume. -/
def Volume.items : List Item :=
  volume.drawn ++ volume.entries.flatMap fun entry => entry.2.items

/-- The next inode number: of the mount, or of the slots. -/
def Volume.nextIno : Nat :=
  match volume.live with
  | some live => live.superblock.nextIno
  | none => volume.saved.nextIno

/-- The lower bound that a mount has for the stamps on the device. -/
def stampSeed (saved : Counters) : Nat :=
  max (max saved.nodeGeneration saved.lastSnapshotGeneration) (max saved.generation 1)

/-- What bounds the stamps: the counter of the process, and between mounts the marks in the
slots that the next mount starts from. -/
def Volume.mark : Nat :=
  match volume.live with
  | some _ => volume.nodeGen
  | none => max volume.nodeGen (stampSeed volume.saved)

/-- The counter of the process is within the bound. -/
theorem nodeGen_le_mark : volume.nodeGen ≤ volume.mark := by
  unfold Volume.mark
  cases volume.live with
  | some live => exact le_refl _
  | none => exact le_max_left _ _

variable {entry : Nat × Node}

theorem mem_putAll {nodes disk : List (Nat × Node)} (mem : entry ∈ putAll nodes disk) :
    entry ∈ nodes ∨ entry ∈ disk := by
  induction nodes generalizing disk with
  | nil => exact Or.inr mem
  | cons first rest ih =>
    rcases ih mem with later | put
    · exact Or.inl (mem_cons_of_mem _ later)
    · rcases mem_insert put with same | old
      · exact Or.inl (same ▸ mem_cons_self)
      · exact Or.inr old

variable {live : Live}

/-- The nodes of the transaction that staging runs in are among those of the mount. -/
theorem staging_dirty (mem : entry ∈ live.staging.dirty) :
    entry ∈ live.groups.flatMap NodeTx.dirty := by
  unfold Live.staging at mem
  unfold Live.groups
  cases active : live.active with
  | none =>
    rw [active] at mem
    exact absurd mem not_mem_nil
  | some tx =>
    rw [active] at mem
    exact mem_flatMap.mpr ⟨tx, mem_append_left _ (mem_singleton_self tx), mem⟩

theorem stage_entries {change : NodeTx → NodeTx}
    (mem : entry ∈ (live.stage change).groups.flatMap NodeTx.dirty) :
    entry ∈ (change live.staging).dirty ∨ entry ∈ live.groups.flatMap NodeTx.dirty := by
  obtain ⟨tx, inside, own⟩ := mem_flatMap.mp mem
  rcases mem_append.mp inside with active | pending
  · rw [mem_singleton.mp active] at own
    exact Or.inl own
  · exact Or.inr (mem_flatMap.mpr ⟨tx, mem_append_right _ pending, own⟩)

theorem entries_of_groups {next : Live} (fewer : ∀ tx ∈ next.groups, tx ∈ live.groups)
    (mem : entry ∈ next.groups.flatMap NodeTx.dirty) :
    entry ∈ live.groups.flatMap NodeTx.dirty := by
  obtain ⟨tx, inside, own⟩ := mem_flatMap.mp mem
  exact mem_flatMap.mpr ⟨tx, fewer tx inside, own⟩

variable {volume : Volume}

theorem entries_live (mounted : volume.live = some live) :
    volume.entries = live.groups.flatMap NodeTx.dirty ++ volume.disk := by
  rw [Volume.entries, mounted]
  simp

/-- The nodes of a volume that is not mounted. -/
theorem entries_none (unmounted : volume.live = none) : volume.entries = volume.disk := by
  rw [Volume.entries, unmounted]
  rfl

theorem items_live (mounted : volume.live = some live) : volume.items = live.items volume.disk := by
  rw [Volume.items, entries_live mounted, Volume.drawn, mounted]
  simp [Live.items]

/-- Where the nodes after a step come from: from before it, from `init_empty`, or from
`write_node` with a fresh stamp and items from before it. -/
def NodesFrom (volume next : Volume) : Prop :=
  ∀ entry ∈ next.entries, entry ∈ volume.entries ∨ entry.2 = ⟨0, [], []⟩ ∨
    entry.2.generation = volume.nodeGen + 1 ∧ next.nodeGen = volume.nodeGen + 1 ∧
      ∀ item ∈ entry.2.items, item ∈ volume.items

/-- Where the numbers and stamps about to be written after a step come from: from before it,
from `allocate_inode`, or from `node_gen_stamp`. -/
def DrawnFrom (volume next : Volume) : Prop :=
  ∀ item ∈ next.drawn, item ∈ volume.drawn ∨
    item = .inode volume.nextIno ∧ next.nextIno = volume.nextIno + 1 ∨
    item = .checksum (volume.nodeGen + 1) ∧ next.nodeGen = volume.nodeGen + 1

section Step
variable {next : Volume} {later : Live} {event : VolumeEvent}

theorem DrawnFrom.of_unmounted (after : next.live = none) : DrawnFrom volume next := by
  intro item mem
  rw [Volume.drawn, after] at mem
  exact absurd mem not_mem_nil

variable (mounted : volume.live = some live)
include mounted

theorem NodesFrom.of_groups {saved : Counters} {nodeGen : Nat}
    (fewer : ∀ entry ∈ later.groups.flatMap NodeTx.dirty,
      entry ∈ live.groups.flatMap NodeTx.dirty) :
    NodesFrom volume { volume with saved := saved, nodeGen := nodeGen, live := some later } := by
  intro entry mem
  left
  rw [entries_live rfl] at mem
  rw [entries_live mounted]
  exact mem_append.mpr ((mem_append.mp mem).imp_left (fewer entry))

theorem NodesFrom.of_stage {block nodeGen : Nat} {node : Node}
    (fresh : node = ⟨0, [], []⟩ ∨ node.generation = volume.nodeGen + 1 ∧
      nodeGen = volume.nodeGen + 1 ∧ ∀ item ∈ node.items, item ∈ volume.items) :
    NodesFrom volume { volume with
      nodeGen := nodeGen
      live := some (live.stage fun tx => { tx with dirty := insert block node tx.dirty }) } := by
  intro entry mem
  rw [entries_live rfl] at mem
  rw [entries_live mounted]
  rcases mem_append.mp mem with staged | home
  · rcases stage_entries staged with put | old
    · rcases mem_insert put with rfl | own
      · exact Or.inr fresh
      · exact Or.inl (mem_append_left _ (staging_dirty own))
    · exact Or.inl (mem_append_left _ old)
  · exact Or.inl (mem_append_right _ home)

theorem NodesFrom.of_unmounted {saved : Counters} {nodeGen : Nat} :
    NodesFrom volume { volume with saved := saved, nodeGen := nodeGen, live := none } := by
  intro entry mem
  rw [entries_none rfl] at mem
  rw [entries_live mounted]
  exact Or.inl (mem_append_right _ mem)

theorem DrawnFrom.of_same (after : next.live = some later)
    (same : later.drawn = live.drawn) : DrawnFrom volume next := by
  intro item mem
  left
  rw [Volume.drawn, after] at mem
  rw [Volume.drawn, mounted]
  simpa [same] using mem

/-- A step of a mounted volume: both counters only grow until the process ends. -/
theorem liveStep_spec (taken : liveStep volume live event = some next) :
    NodesFrom volume next ∧ DrawnFrom volume next ∧ (event ≠ .crash →
      volume.nodeGen ≤ next.nodeGen ∧ live.superblock.nextIno ≤ next.nextIno) := by
  have same : volume.nodeGen ≤ volume.nodeGen ∧
      live.superblock.nextIno ≤ live.superblock.nextIno := ⟨le_refl _, le_refl _⟩
  cases event with
  | mount found => cases taken
  | crash =>
    cases taken
    exact ⟨.of_unmounted mounted, .of_unmounted rfl, absurd rfl⟩
  | unmount =>
    simp only [liveStep] at taken
    split_ifs at taken
    cases taken
    exact ⟨.of_unmounted mounted, .of_unmounted rfl, fun _ => same⟩
  | allocateInode =>
    cases taken
    refine ⟨.of_groups mounted fun _ mem => mem, fun item mem => ?_,
      fun _ => ⟨le_refl _, le_succ _⟩⟩
    simp only [Volume.drawn, Option.toList_some, flatMap_singleton, mem_cons] at mem
    rcases mem with rfl | old
    · simp [Volume.nextIno, mounted]
    · left
      simpa [Volume.drawn, mounted] using old
  | stampBirth =>
    cases taken
    refine ⟨.of_groups mounted fun _ mem => mem, fun item mem => ?_,
      fun _ => ⟨le_succ _, le_refl _⟩⟩
    simp only [Volume.drawn, Option.toList_some, flatMap_singleton, mem_cons] at mem
    rcases mem with rfl | old
    · exact Or.inr (Or.inr ⟨rfl, rfl⟩)
    · left
      simpa [Volume.drawn, mounted] using old
  | writeNode block children items =>
    simp only [liveStep] at taken
    split_ifs at taken with known
    cases taken
    refine ⟨.of_stage mounted (Or.inr ⟨rfl, rfl, fun item mem => ?_⟩),
      .of_same mounted rfl rfl, fun _ => ⟨le_succ _, le_refl _⟩⟩
    rw [items_live mounted]
    exact known item mem
  | initEmpty block =>
    cases taken
    exact ⟨.of_stage mounted (Or.inl rfl), .of_same mounted rfl rfl, fun _ => same⟩
  | moveRoot nodeType root =>
    cases taken
    refine ⟨.of_groups mounted fun entry mem => ?_, .of_same mounted rfl rfl, fun _ => same⟩
    rcases @stage_entries _ live (fun tx =>
      { tx with rootCells := insert nodeType root tx.rootCells }) mem with own | old
    · exact staging_dirty own
    · exact old
  | quiesce =>
    simp only [liveStep] at taken
    split at taken
    · cases taken
    · next tx active =>
      cases taken
      refine ⟨.of_groups mounted fun _ => entries_of_groups fun group mem => ?_,
        .of_same mounted rfl rfl, fun _ => same⟩
      simp only [Live.groups, Option.toList_none, nil_append, mem_reverse, mem_map] at mem
      obtain ⟨entry, inside, rfl⟩ := mem
      simp only [Live.groups, active, Option.toList_some, mem_append, mem_singleton,
        mem_reverse, mem_map]
      split at inside
      · exact Or.inr ⟨entry, inside, rfl⟩
      · rcases mem_append.mp inside with old | new
        · exact Or.inr ⟨entry, old, rfl⟩
        · exact Or.inl (by rw [mem_singleton.mp new])
  | journal id =>
    simp only [liveStep] at taken
    split at taken
    · cases taken
    · rename_i tx flag found
      cases taken
      have inside : tx ∈ live.groups := by
        have listed := mem_of_find?_eq_some found
        simp only [Live.groups, mem_append, mem_reverse, mem_map]
        exact Or.inr ⟨_, listed, rfl⟩
      refine ⟨fun entry mem => Or.inl ?_, .of_same mounted rfl rfl, fun _ => same⟩
      rw [entries_live mounted]
      rw [entries_live rfl] at mem
      rcases mem_append.mp mem with staged | home
      · refine mem_append_left _ (entries_of_groups (fun group mem => ?_) staged)
        simp only [Live.groups, mem_append, mem_reverse, mem_map] at mem ⊢
        refine mem.imp (fun own => own) fun ⟨entry, ⟨old, inside, same⟩, own⟩ =>
          ⟨old, inside, ?_⟩
        rw [← own, ← same]
        split <;> rfl
      · rcases mem_putAll home with own | old
        · exact mem_append_left _ (mem_flatMap.mpr ⟨tx, inside, own⟩)
        · exact mem_append_right _ old
  | finish id =>
    simp only [liveStep] at taken
    have fewer (superblock : Counters) : ∀ group ∈ ({ live with
        superblock := superblock
        pending := live.pending.filter fun entry => decide (entry.1.id ≠ id) } : Live).groups,
        group ∈ live.groups := by
      intro group mem
      simp only [Live.groups, mem_append, mem_reverse, mem_map] at mem ⊢
      exact mem.imp (fun own => own) fun ⟨entry, inside, same⟩ =>
        ⟨entry, (mem_filter.mp inside).1, same⟩
    split at taken
    · cases taken
    · split_ifs at taken <;> cases taken <;>
        exact ⟨.of_groups mounted fun _ => entries_of_groups (fewer _), .of_same mounted rfl rfl,
          fun _ => same⟩
  | snapshot =>
    cases taken
    exact ⟨.of_groups mounted fun _ mem => mem, .of_same mounted rfl rfl, fun _ => same⟩

end Step

variable {next : Volume}

/-- Where the nodes, and what is about to be written, come from in a step. Only the end of the
process moves the counter back and lowers the bound of the stamps. -/
theorem volumeStep_spec {event : VolumeEvent} (taken : volumeStep volume event = some next) :
    NodesFrom volume next ∧ DrawnFrom volume next ∧ (event ≠ .crash →
      volume.nextIno ≤ next.nextIno ∧ volume.mark ≤ next.mark) := by
  unfold volumeStep at taken
  cases mounted : volume.live with
  | some live =>
    rw [mounted] at taken
    obtain ⟨nodes, drawn, grows⟩ := liveStep_spec mounted taken
    refine ⟨nodes, drawn, fun alive => ?_⟩
    obtain ⟨stamps, numbers⟩ := grows alive
    rw [Volume.nextIno, Volume.mark, mounted]
    exact ⟨numbers, stamps.trans (nodeGen_le_mark next)⟩
  | none =>
    rw [mounted] at taken
    cases event with
    | mount found =>
      simp only at taken
      split_ifs at taken
      cases taken
      refine ⟨fun entry mem => Or.inl ?_, fun item mem => absurd mem not_mem_nil, fun _ => ?_⟩
      · rw [entries_live rfl] at mem
        rw [entries_none mounted]
        exact mem
      · have higher : ∀ (ids : List Nat) (start : Nat), start ≤ ids.foldl max start := by
          intro ids
          induction ids with
          | nil => exact le_refl
          | cons id rest ih =>
            exact fun start => le_trans (le_max_left _ _) (ih (max start id))
        have reached := higher found volume.saved.generation
        simp only [Volume.nextIno, Volume.mark, mounted, mountGen, stampSeed]
        omega
    | crash =>
      cases taken
      refine ⟨fun entry mem => Or.inl ?_, .of_unmounted rfl, absurd rfl⟩
      rw [entries_none rfl] at mem
      rw [entries_none mounted]
      exact mem
    | _ => cases taken

theorem volumeStep_items {event : VolumeEvent} (taken : volumeStep volume event = some next) :
    ∀ item ∈ next.items, item ∈ volume.items ∨
      item = .inode volume.nextIno ∧ next.nextIno = volume.nextIno + 1 ∨
      item = .checksum (volume.nodeGen + 1) ∧ next.nodeGen = volume.nodeGen + 1 := by
  obtain ⟨nodes, drawn, -⟩ := volumeStep_spec taken
  intro item mem
  rcases mem_append.mp mem with about | written
  · exact (drawn item about).imp (mem_append_left _) fun fresh => fresh
  · obtain ⟨entry, inside, own⟩ := mem_flatMap.mp written
    rcases nodes entry inside with old | empty | ⟨_, _, known⟩
    · exact Or.inl (mem_append_right _ (mem_flatMap.mpr ⟨entry, old, own⟩))
    · rw [empty] at own
      exact absurd own not_mem_nil
    · exact Or.inl (known item own)

/-- The end of the process leaves the device, and a counter at zero. -/
theorem crash_step (taken : volumeStep volume .crash = some next) :
    next = { volume with nodeGen := 0, live := none } := by
  unfold volumeStep at taken
  cases mounted : volume.live with
  | none | some =>
    rw [mounted] at taken
    cases taken
    rfl

variable {node : Node}

theorem read_mem (mounted : volume.live = some live) {block : Nat}
    (read : live.read volume.disk block = some node) : (block, node) ∈ volume.entries := by
  rw [entries_live mounted]
  unfold Live.read at read
  cases above : live.groups.findSome? fun tx => find block tx.dirty with
  | some found =>
    rw [above, Option.some_or] at read
    cases read
    obtain ⟨tx, mem, own⟩ := exists_of_findSome?_eq_some above
    exact mem_append_left _ (mem_flatMap.mpr ⟨tx, mem, mem_of_find own⟩)
  | none =>
    rw [above, Option.none_or] at read
    exact mem_append_right _ (mem_of_find read)

/-- The blocks that a context reaches from a root. -/
inductive Reaches (live : Live) (disk : List (Nat × Node)) (root : Nat) : Nat → Prop where
  | here : Reaches live disk root root
  | child (block next : Nat) (node : Node) (above : Reaches live disk root block)
      (read : live.read disk block = some node) (mem : next ∈ node.children) :
      Reaches live disk root next

/-- The inode numbers in a node. -/
def Node.inodes (node : Node) : List Nat :=
  node.items.filterMap fun item => match item with
    | .inode ino => some ino
    | .checksum _ => none

/-- The birth stamps in a node. -/
def Node.births (node : Node) : List Nat :=
  node.items.filterMap fun item => match item with
    | .inode _ => none
    | .checksum birth => some birth

theorem mem_inodes {ino : Nat} : ino ∈ node.inodes ↔ Item.inode ino ∈ node.items := by
  unfold Node.inodes
  rw [mem_filterMap]
  constructor
  · rintro ⟨item, mem, same⟩
    cases item with
    | inode own =>
      cases same
      exact mem
    | checksum birth => cases same
  · exact fun mem => ⟨_, mem, rfl⟩

theorem mem_births {birth : Nat} : birth ∈ node.births ↔ Item.checksum birth ∈ node.items := by
  unfold Node.births
  rw [mem_filterMap]
  constructor
  · rintro ⟨item, mem, same⟩
    cases item with
    | inode own => cases same
    | checksum birth =>
      cases same
      exact mem
  · exact fun mem => ⟨_, mem, rfl⟩

/-- The inode counter of the slots is above every inode number on the device. -/
def Volume.InodesSaved (volume : Volume) : Prop :=
  ∀ entry ∈ volume.disk, ∀ ino ∈ entry.2.inodes, ino < volume.saved.nextIno

/-- The marks in the slots are not below any stamp on the device. -/
def Volume.StampsSaved (volume : Volume) : Prop :=
  ∀ entry ∈ volume.disk, ∀ stamp ∈ entry.2.generation :: entry.2.births,
    stamp ≤ stampSeed volume.saved

instance (volume : Volume) : Decidable volume.InodesSaved :=
  inferInstanceAs (Decidable (∀ entry ∈ _, ∀ ino ∈ _, _ < _))

instance (volume : Volume) : Decidable volume.StampsSaved :=
  inferInstanceAs (Decidable (∀ entry ∈ _, ∀ stamp ∈ _, _ ≤ _))

/-- A volume as `mkfs` leaves it, not mounted. -/
structure Volume.Formatted (volume : Volume) : Prop where
  unmounted : volume.live = none
  inodes : volume.InodesSaved
  stamps : volume.StampsSaved

section Inodes

/-- The process ends only when the slots cover the inode numbers on the device. -/
def Volume.InodesKept (volume : Volume) : VolumeEvent → Prop
  | .crash => volume.InodesSaved
  | _ => True

instance (volume : Volume) (event : VolumeEvent) : Decidable (volume.InodesKept event) :=
  match event with
  | .crash => inferInstanceAs (Decidable volume.InodesSaved)
  | .mount _ | .unmount | .allocateInode | .stampBirth | .writeNode _ _ _ | .initEmpty _
  | .moveRoot _ _ | .quiesce | .journal _ | .finish _ | .snapshot => .isTrue trivial

/-- Every inode number on the volume was handed out by the counter as it stands. -/
def Volume.InodesBelow (volume : Volume) : Prop :=
  ∀ ino, Item.inode ino ∈ volume.items → ino < volume.nextIno

variable {event : VolumeEvent}

theorem inodesBelow_of_unmounted (unmounted : volume.live = none) (saved : volume.InodesSaved) :
    volume.InodesBelow := by
  intro ino mem
  rw [Volume.items, Volume.drawn, unmounted, entries_none unmounted] at mem
  obtain ⟨entry, inside, own⟩ := mem_flatMap.mp mem
  rw [Volume.nextIno, unmounted]
  exact saved entry inside ino (mem_inodes.mpr own)

/-- A step keeps the inode numbers below the counter. -/
theorem InodesBelow.step (below : volume.InodesBelow) (kept : volume.InodesKept event)
    (taken : volumeStep volume event = some next) : next.InodesBelow := by
  by_cases ends : event = .crash
  · subst ends
    rw [crash_step taken]
    exact inodesBelow_of_unmounted rfl kept
  · have grows := ((volumeStep_spec taken).2.2 ends).1
    intro ino mem
    rcases volumeStep_items taken _ mem with old | ⟨same, more⟩ | ⟨same, _⟩
    · exact lt_of_lt_of_le (below ino old) grows
    · cases same
      omega
    · cases same

/-- In every run in which the process ends only when the slots cover the inode numbers on the
device, the next inode number is not in the inode tree. -/
theorem next_ino_unused {volume last : Volume} {live : Live} {events : List VolumeEvent}
    (formatted : volume.Formatted)
    (along : Machine.Along volumeStep Volume.InodesKept events volume)
    (ran : Machine.run volumeStep events volume = some last) (mounted : last.live = some live)
    (block : Nat) (node : Node) (_reached : Reaches live last.disk (live.effectiveRoot 1) block)
    (read : live.read last.disk block = some node) :
    live.superblock.nextIno ∉ node.inodes := by
  have below : last.InodesBelow :=
    Machine.run_keeps (fun _ _ _ => InodesBelow.step)
      (inodesBelow_of_unmounted formatted.unmounted formatted.inodes) along ran
  intro mem
  have listed : Item.inode live.superblock.nextIno ∈ last.items := mem_append_right _
    (mem_flatMap.mpr ⟨_, read_mem mounted read, mem_inodes.mp mem⟩)
  have lower := below _ listed
  rw [Volume.nextIno, mounted] at lower
  exact absurd lower (lt_irrefl _)

/-- A formatted volume: the inode tree at block 12 with the root directory. -/
def formattedVolume : Volume where
  disk := [(12, ⟨1, [], [.inode 1]⟩), (13, ⟨0, [], []⟩)]
  saved := ⟨[(1, 12), (5, 13)], 2, 1, 0, 0⟩
  journal := []
  nodeGen := 0
  live := none

/-- It is as `mkfs` leaves it. -/
theorem formatted_formattedVolume : formattedVolume.Formatted := ⟨rfl, by decide, by decide⟩

/-- An inode is created in a transaction that moves the root, committed, and the process ends:
after the remount the next number is not in the tree. -/
theorem next_ino_unused_moved : ∃ last live, Machine.run volumeStep [.mount [], .allocateInode,
    .writeNode 20 [] [.inode 1, .inode 2], .moveRoot 1 20, .quiesce, .journal 2, .finish 2, .crash,
    .mount [2]] formattedVolume = some last ∧ last.live = some live ∧
    ∀ block node, Reaches live last.disk (live.effectiveRoot 1) block →
      live.read last.disk block = some node → live.superblock.nextIno ∉ node.inodes := by
  refine ⟨?last, ?live, ?ran, ?mounted, next_ino_unused formatted_formattedVolume ?along ?ran
    ?mounted⟩
  case ran => exact rfl
  case mounted => exact rfl
  case along => decide

/-- An inode is created in a transaction that moves no root, committed, and the process ends:
after the remount its number is handed out again. -/
theorem next_ino_reused : ¬∀ (volume last : Volume) (live : Live) (events : List VolumeEvent),
    volume.Formatted → Machine.run volumeStep events volume = some last →
    last.live = some live → ∀ block node, Reaches live last.disk (live.effectiveRoot 1) block →
      live.read last.disk block = some node → live.superblock.nextIno ∉ node.inodes := by
  intro always
  have reused : ((Machine.run volumeStep [.mount [], .allocateInode,
      .writeNode 12 [] [.inode 1, .inode 2], .quiesce, .journal 2, .finish 2, .crash, .mount [2]]
      formattedVolume).bind fun last => last.live.map fun live =>
        (live.superblock.nextIno, live.effectiveRoot 1, live.read last.disk 12)) =
      some (2, 12, some ⟨2, [], [.inode 1, .inode 2]⟩) := by decide
  obtain ⟨last, ran, seen⟩ := Option.bind_eq_some_iff.mp reused
  obtain ⟨live, mounted, facts⟩ := Option.map_eq_some_iff.mp seen
  simp only [Prod.mk.injEq] at facts
  obtain ⟨counter, root, read⟩ := facts
  refine always _ last live _ formatted_formattedVolume ran mounted 12 _ ?_ read ?_
  · rw [root]
    exact .here
  · rw [counter]
    decide

end Inodes

section Stamps

/-- The process ends only when the marks in the slots cover the stamps on the device. -/
def Volume.StampsKept (volume : Volume) : VolumeEvent → Prop
  | .crash => volume.StampsSaved
  | _ => True

instance (volume : Volume) (event : VolumeEvent) : Decidable (volume.StampsKept event) :=
  match event with
  | .crash => inferInstanceAs (Decidable volume.StampsSaved)
  | .mount _ | .unmount | .allocateInode | .stampBirth | .writeNode _ _ _ | .initEmpty _
  | .moveRoot _ _ | .quiesce | .journal _ | .finish _ | .snapshot => .isTrue trivial

/-- Every stamp of the volume is bounded. -/
structure Volume.StampsBelow (volume : Volume) : Prop where
  nodes : ∀ entry ∈ volume.entries, entry.2.generation ≤ volume.mark
  /-- The birth stamps of the checksum records. -/
  births : ∀ birth, Item.checksum birth ∈ volume.items → birth ≤ volume.mark

variable {event : VolumeEvent}

theorem stampsBelow_of_unmounted (unmounted : volume.live = none) (saved : volume.StampsSaved) :
    volume.StampsBelow := by
  have mark : stampSeed volume.saved ≤ volume.mark := by
    rw [Volume.mark, unmounted]
    exact le_max_right _ _
  constructor
  · intro entry mem
    rw [entries_none unmounted] at mem
    exact le_trans (saved entry mem _ mem_cons_self) mark
  · intro birth mem
    rw [Volume.items, Volume.drawn, unmounted, entries_none unmounted] at mem
    obtain ⟨entry, inside, own⟩ := mem_flatMap.mp mem
    exact le_trans (saved entry inside birth (mem_cons_of_mem _ (mem_births.mpr own))) mark

theorem StampsBelow.step (below : volume.StampsBelow) (kept : volume.StampsKept event)
    (taken : volumeStep volume event = some next) : next.StampsBelow := by
  by_cases ends : event = .crash
  · subst ends
    rw [crash_step taken]
    exact stampsBelow_of_unmounted rfl kept
  · obtain ⟨nodes, -, grows⟩ := volumeStep_spec taken
    have higher := (grows ends).2
    have counter := nodeGen_le_mark next
    constructor
    · intro entry mem
      rcases nodes entry mem with old | empty | ⟨fresh, more, _⟩
      · exact le_trans (below.nodes entry old) higher
      · rw [empty]
        exact zero_le _
      · omega
    · intro birth mem
      rcases volumeStep_items taken _ mem with old | ⟨same, _⟩ | ⟨same, more⟩
      · exact le_trans (below.births birth old) higher
      · cases same
      · cases same
        omega

end Stamps
end LionFS.Fs
