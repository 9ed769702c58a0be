import LionFS.Data.Machine
import Mathlib.Algebra.Group.Nat.Defs
import Mathlib.Data.List.Nodup

/-!
# Encryption keys

The keyring of `keys.rs`, and `create` on a volume with a default encryption. A
mount begins with an empty keyring that counts its ids from one, whatever the key
tree holds, and `persist` replaces the record of its id. So the first key of a
mount takes the place of the first key of the mount before.
-/
namespace LionFS.Security
open Machine List Option Function Prod
variable {Key : Type}

/-- `KeyTreeRecord`. -/
structure KeyTreeRecord (Key : Type) where
  algorithm : Nat
  key : Key

/-- `KeyManager`. -/
structure KeyManager (Key : Type) where
  cache : Nat → Option (Nat × Key)
  nextId : Nat

namespace KeyManager

/-- `KeyManager::new`. -/
def new : KeyManager Key where
  cache _ := none
  nextId := 1

variable (manager : KeyManager Key)

/-- `generate_key`, for what `fill_random` gives; if that fails nothing is changed. -/
def generateKey (algorithm : Nat) (random : Option Key) : Option (Nat × KeyManager Key) :=
  random.map fun key =>
    (manager.nextId,
      { cache := update manager.cache manager.nextId (some (algorithm, key))
        nextId := max ((manager.nextId + 1) % 2 ^ 32) 1 })

/-- `get_key_cached`. -/
def getKeyCached (keyId : Nat) : Option Key :=
  if keyId = 0 then none else (manager.cache keyId).map snd

/-- `get_key`. -/
def getKey (tree : Nat → Option (KeyTreeRecord Key)) (keyTreeRoot keyId : Nat) :
    Option Key × KeyManager Key :=
  if keyId = 0 then (none, manager)
  else
    match manager.getKeyCached keyId with
    | some key => (some key, manager)
    | none =>
      if keyTreeRoot = 0 then (none, manager)
      else
        match tree keyId with
        | none => (none, manager)
        | some record =>
          (some record.key,
            { manager with
              cache := update manager.cache keyId (some (record.algorithm, record.key)) })

/-- `persist`, when the tree takes the record. -/
def persist (tree : Nat → Option (KeyTreeRecord Key)) (keyTreeRoot keyId : Nat) :
    Nat → Option (KeyTreeRecord Key) :=
  if keyTreeRoot = 0 ∨ keyId = 0 then tree
  else
    match manager.cache keyId with
    | some (algorithm, key) => update tree keyId (some ⟨algorithm, key⟩)
    | none => tree

end KeyManager

/-- The key tree of a volume, and the keys that were persisted in it and those that files were
created with, under their ids. -/
structure Image (Key : Type) where
  tree : Nat → Option (KeyTreeRecord Key)
  persisted : List (Nat × Key)
  files : List (Nat × Key)

/-- A mounted volume: what is staged and what is committed, and all keys drawn so far. -/
structure Volume (Key : Type) where
  manager : KeyManager Key
  staged : Image Key
  committed : Image Key
  drawn : List Key

/-- What happens to a volume. -/
inductive Event (Key : Type) where
  /-- `create` draws a key; the inode may be written, the record stored and the entry added. -/
  | create (key : Key) (written stored entered : Bool)
  | getKey (keyId : Nat)
  | commit
  /-- A mount, of what is committed. -/
  | mount

/-- A volume without keys. -/
def Volume.formatted : Volume Key where
  manager := .new
  staged := ⟨fun _ => none, [], []⟩
  committed := ⟨fun _ => none, [], []⟩
  drawn := []

variable (keyTreeRoot algorithm : Nat)

/-- `create`, as far as keys go, when a key is drawn. That it cannot be stored is ignored. -/
def Volume.create (volume : Volume Key) (key : Key) (written stored entered : Bool) :
    Volume Key :=
  match volume.manager.generateKey algorithm (some key) with
  | none => volume
  | some (keyId, manager) =>
    let image := volume.staged
    { volume with
      manager := manager
      staged :=
        { tree :=
            if written && stored then manager.persist image.tree keyTreeRoot keyId else image.tree
          persisted :=
            if written && stored && keyTreeRoot != 0 then image.persisted ++ [(keyId, key)]
            else image.persisted
          files := if written && entered then image.files ++ [(keyId, key)] else image.files }
      drawn := volume.drawn ++ [key] }

/-- One step. No key is drawn twice, and key ids do not wrap around. -/
def step [DecidableEq Key] (volume : Volume Key) : Event Key → Option (Volume Key)
  | .create key written stored entered =>
    if key ∉ volume.drawn ∧ volume.manager.nextId + 1 < 2 ^ 32 then
      some (volume.create keyTreeRoot algorithm key written stored entered)
    else none
  | .getKey keyId =>
    some { volume with
      manager := (volume.manager.getKey volume.staged.tree keyTreeRoot keyId).2 }
  | .commit => some { volume with committed := volume.staged }
  | .mount => some { volume with manager := .new, staged := volume.committed }

/-- Persisted keys are loaded under their ids, and files have different key ids. -/
structure Kept (volume : Volume Key) : Prop where
  loads : ∀ entry ∈ volume.staged.persisted,
    (volume.manager.getKey volume.staged.tree keyTreeRoot entry.1).1 = some entry.2
  apart : (volume.staged.files.map fst).Nodup

/-- The next id is neither that of a persisted key nor, if a file is created, that of a file. -/
def Fresh (volume : Volume Key) : Event Key → Prop
  | .create key written _ entered =>
    key ∉ volume.drawn ∧ volume.manager.nextId + 1 < 2 ^ 32 →
      volume.manager.nextId ∉ volume.staged.persisted.map fst ∧
        (written && entered → volume.manager.nextId ∉ volume.staged.files.map fst)
  | _ => True

variable {keyTreeRoot algorithm}

/-- The tree of an image holds what was persisted. -/
structure Image.Sound (keyTreeRoot : Nat) (drawn : List Key) (image : Image Key) : Prop where
  holds : ∀ entry ∈ image.persisted, (image.tree entry.1).map KeyTreeRecord.key = some entry.2
  stored : ∀ entry ∈ image.persisted, keyTreeRoot ≠ 0 ∧ entry.1 ≠ 0 ∧ entry.2 ∈ drawn
  apart : (image.files.map fst).Nodup

/-- What holds as long as ids are fresh: the keyring agrees with what was persisted. -/
structure Sound (keyTreeRoot : Nat) (volume : Volume Key) : Prop where
  staged : volume.staged.Sound keyTreeRoot volume.drawn
  committed : volume.committed.Sound keyTreeRoot volume.drawn
  cached : ∀ entry ∈ volume.staged.persisted, ∀ found,
    volume.manager.cache entry.1 = some found → found.2 = entry.2
  positive : 0 < volume.manager.nextId

theorem Image.Sound.grow {image : Image Key} {drawn more : List Key}
    (sound : image.Sound keyTreeRoot drawn) : image.Sound keyTreeRoot (drawn ++ more) := by
  refine ⟨sound.holds, fun entry mem => ?_, sound.apart⟩
  have stored := sound.stored entry mem
  exact ⟨stored.1, stored.2.1, mem_append_left _ stored.2.2⟩

namespace KeyManager
variable {manager : KeyManager Key} {tree : Nat → Option (KeyTreeRecord Key)} {keyId : Nat}

/-- A cached key is returned without a look at the tree. -/
theorem getKey_cached {found : Nat × Key} (pos : keyId ≠ 0)
    (cached : manager.cache keyId = some found) :
    manager.getKey tree keyTreeRoot keyId = (some found.2, manager) := by
  simp [getKey, getKeyCached, pos, cached]

/-- What the keyring caches after `get_key` it had cached or is in the tree. -/
theorem cache_getKey {other : Nat} {found : Nat × Key}
    (cached : (manager.getKey tree keyTreeRoot keyId).2.cache other = some found) :
    manager.cache other = some found ∨ (tree other).map KeyTreeRecord.key = some found.2 := by
  unfold getKey at cached
  split at cached
  · exact Or.inl cached
  · split at cached
    · exact Or.inl cached
    · split_ifs at cached
      · exact Or.inl cached
      · split at cached
        · exact Or.inl cached
        · next record held =>
          simp only [update_apply] at cached
          split_ifs at cached with same
          · rw [same, held, ← some.inj cached]
            exact Or.inr rfl
          · exact Or.inl cached

theorem nextId_getKey : (manager.getKey tree keyTreeRoot keyId).2.nextId = manager.nextId := by
  unfold getKey
  repeat' split
  all_goals rfl

end KeyManager

variable {volume : Volume Key}

theorem Sound.kept (sound : Sound keyTreeRoot volume) : Kept keyTreeRoot volume := by
  refine ⟨fun entry mem => ?_, sound.staged.apart⟩
  obtain ⟨rooted, pos, -⟩ := sound.staged.stored entry mem
  cases cached : volume.manager.cache entry.1 with
  | some found =>
    rw [KeyManager.getKey_cached pos cached, sound.cached entry mem found cached]
  | none =>
    obtain ⟨record, held, same⟩ := map_eq_some_iff.mp (sound.staged.holds entry mem)
    simp [KeyManager.getKey, KeyManager.getKeyCached, pos, cached, rooted, held, same]

section Create
variable {key : Key} {written stored entered : Bool}

theorem cache_create (keyId : Nat) :
    (volume.create keyTreeRoot algorithm key written stored entered).manager.cache keyId =
      if keyId = volume.manager.nextId then some (algorithm, key)
      else volume.manager.cache keyId :=
  update_apply _ _ _ _

theorem tree_create (pos : volume.manager.nextId ≠ 0) (keyId : Nat) :
    (volume.create keyTreeRoot algorithm key written stored entered).staged.tree keyId =
      if (written && stored && keyTreeRoot != 0) ∧ keyId = volume.manager.nextId then
        some ⟨algorithm, key⟩
      else volume.staged.tree keyId := by
  unfold Volume.create
  dsimp only [KeyManager.generateKey, map_some]
  cases both : written && stored
  · rfl
  · rw [if_pos rfl]
    by_cases rooted : keyTreeRoot = 0
    · simp [KeyManager.persist, rooted]
    · simp [KeyManager.persist, rooted, pos, update_apply]

theorem mem_persisted_create {entry : Nat × Key} :
    entry ∈ (volume.create keyTreeRoot algorithm key written stored entered).staged.persisted ↔
      entry ∈ volume.staged.persisted ∨
        (written && stored && keyTreeRoot != 0) ∧ entry = (volume.manager.nextId, key) := by
  simp only [Volume.create, KeyManager.generateKey, map_some]
  split_ifs with persists <;> simp [persists]

/-- A key under a fresh id. -/
theorem Sound.create (sound : Sound keyTreeRoot volume)
    (unused : volume.manager.nextId ∉ volume.staged.persisted.map fst)
    (apart : written && entered → volume.manager.nextId ∉ volume.staged.files.map fst) :
    Sound keyTreeRoot (volume.create keyTreeRoot algorithm key written stored entered) := by
  have other : ∀ entry ∈ volume.staged.persisted, entry.1 ≠ volume.manager.nextId :=
    fun entry mem same => unused (mem_map.mpr ⟨entry, mem, same⟩)
  have pos : volume.manager.nextId ≠ 0 := Nat.ne_of_gt sound.positive
  refine ⟨⟨?_, ?_, ?_⟩, sound.committed.grow, ?_, Nat.le_max_right _ _⟩
  · intro entry mem
    rw [tree_create pos]
    rcases mem_persisted_create.mp mem with old | ⟨persists, same⟩
    · rw [if_neg fun both => other entry old both.2]
      exact sound.staged.holds entry old
    · rw [same, if_pos ⟨persists, rfl⟩]
      rfl
  · intro entry mem
    rcases mem_persisted_create.mp mem with old | ⟨persists, same⟩
    · exact sound.staged.grow.stored entry old
    · rw [Bool.and_eq_true, bne_iff_ne] at persists
      rw [same]
      exact ⟨persists.2, pos, mem_append_right _ (mem_singleton.mpr rfl)⟩
  · simp only [Volume.create, KeyManager.generateKey, map_some]
    split_ifs with created
    · rw [map_append, nodup_append]
      refine ⟨sound.staged.apart, nodup_singleton _, fun keyId mem last own same => ?_⟩
      rw [same, mem_singleton.mp own] at mem
      exact apart created mem
    · exact sound.staged.apart
  · intro entry mem found cached
    rw [cache_create] at cached
    rcases mem_persisted_create.mp mem with old | ⟨-, same⟩
    · rw [if_neg (other entry old)] at cached
      exact sound.cached entry old found cached
    · rw [same, if_pos rfl] at cached
      rw [← some.inj cached, same]

/-- If the keys are kept then the id was fresh. -/
theorem Sound.fresh (sound : Sound keyTreeRoot volume) (new : key ∉ volume.drawn)
    (kept : Kept keyTreeRoot (volume.create keyTreeRoot algorithm key written stored entered)) :
    volume.manager.nextId ∉ volume.staged.persisted.map fst ∧
      (written && entered → volume.manager.nextId ∉ volume.staged.files.map fst) := by
  constructor
  · intro mem
    obtain ⟨entry, old, same⟩ := mem_map.mp mem
    have loads := kept.loads entry (mem_persisted_create.mpr (.inl old))
    have stored := sound.staged.stored entry old
    rw [KeyManager.getKey_cached stored.2.1 ((cache_create _).trans (if_pos same))] at loads
    have replaced : key = entry.2 := some.inj loads
    exact new (replaced ▸ stored.2.2)
  · intro created mem
    have distinct := kept.apart
    simp only [Volume.create, KeyManager.generateKey, map_some, if_pos created,
      map_append] at distinct
    exact (nodup_append.mp distinct).2.2 _ mem _ (mem_singleton.mpr rfl) rfl

end Create

/-- On every history of a volume, from its format on, persisted keys are loaded under their ids
and files have different key ids throughout if and only if every `create` finds its next id unused
by persisted keys and files. -/
theorem keys_kept_iff [DecidableEq Key] (events : List (Event Key)) :
    Always (step keyTreeRoot algorithm) (Kept keyTreeRoot) events .formatted ↔
      Along (step keyTreeRoot algorithm) Fresh events (.formatted : Volume Key) := by
  refine always_iff_along (fun _ => Sound.kept) (fun volume event next sound taken => ?_)
    (fun volume event _ refused => ?_) ?_
  · cases event with
    | create key written stored entered =>
      simp only [step] at taken
      split_ifs at taken with allowed
      cases taken
      exact ⟨fun fresh => sound.create (fresh allowed).1 (fresh allowed).2,
        fun kept _ => sound.fresh allowed.1 kept⟩
    | getKey keyId =>
      cases taken
      refine ⟨fun _ => ⟨sound.staged, sound.committed, ?_, ?_⟩, fun _ => trivial⟩
      · intro entry mem found cached
        rcases KeyManager.cache_getKey cached with old | held
        · exact sound.cached entry mem found old
        · exact some.inj (held.symm.trans (sound.staged.holds entry mem))
      · rw [KeyManager.nextId_getKey]
        exact sound.positive
    | commit =>
      cases taken
      exact ⟨fun _ => { sound with committed := sound.staged }, fun _ => trivial⟩
    | mount =>
      cases taken
      exact ⟨fun _ => ⟨sound.committed, sound.committed, nofun, Nat.one_pos⟩, fun _ => trivial⟩
  · cases event with
    | create key written stored entered =>
      simp only [step] at refused
      split_ifs at refused with allowed
      exact fun fresh => absurd fresh allowed
    | _ => trivial
  · have empty : Image.Sound keyTreeRoot [] (⟨fun _ => none, [], []⟩ : Image Key) :=
      ⟨nofun, nofun, nodup_nil⟩
    exact ⟨empty, empty, nofun, Nat.one_pos⟩

/-- A file is created and committed, and another one after a mount. -/
def remounting : List (Event Nat) :=
  [.create 7 true true true, .commit, .mount, .create 8 true true true]

/-- The key of the first file is lost. -/
theorem first_key_replaced : ¬ ∀ keyTreeRoot algorithm (events : List (Event Nat)) volume,
    run (step keyTreeRoot algorithm) events .formatted = some volume → Kept keyTreeRoot volume := by
  intro kept
  have last := kept 5 1 remounting (reach (step 5 1) remounting .formatted)
    (run_eq_reach (by decide))
  have loads := last.loads (1, 7) (by decide)
  exact absurd loads (by decide)

end LionFS.Security
