import LionFS.Cluster.Raft.Votes

/-!
# Replication follows the history

A leader's batches are ends of its log, a follower that accepts one holds what the
leader held, and a leader commits what a majority has confirmed. The last needs
followers that report no more than they share with the leader; a follower reports
the end of its own log, so that is a condition on the run.
-/
namespace LionFS.Cluster.Raft
open List Option Nat Function Finset Assoc
section
variable {careful : Prop} {size : Nat} {history : History} {net : Network} {server : Server}
  {node : NodeId}

theorem foldl_commitStep (server : Server) (indices : List Nat) (start : Nat) :
    indices.foldl server.commitStep start = start ∨
      ∃ index ∈ indices, indices.foldl server.commitStep start = index ∧
        ((entryAt server.log index).map LogEntry.term).getD 0 = server.currentTerm ∧
        server.quorum ≤ server.replicas index := by
  induction indices generalizing start with
  | nil => exact Or.inl rfl
  | cons first rest ih =>
    rw [foldl_cons]
    cases ih (server.commitStep start first) with
    | inr later =>
      obtain ⟨index, mem, result⟩ := later
      exact Or.inr ⟨index, mem_cons_of_mem _ mem, result⟩
    | inl stays =>
      rw [stays]
      unfold Server.commitStep
      by_cases other : ((entryAt server.log first).map LogEntry.term).getD 0 ≠ server.currentTerm
      · rw [if_pos other]
        exact Or.inl rfl
      · rw [if_neg other]
        by_cases enough : server.quorum ≤ server.replicas first
        · rw [if_pos enough]
          exact Or.inr ⟨first, mem_cons_self, rfl, not_not.mp other, enough⟩
        · rw [if_neg enough]
          exact Or.inl rfl

section
variable (follows : server.Follows careful size history node)
  (safe : history.Safe LogEntry.term size) (leading : server.role = .leader)
include follows safe leading

theorem Server.Follows.office :
    server.log = history.record server.currentTerm ∧
      history.acked node server.currentTerm = server.log.length := by
  have won := follows.leads leading
  have term := follows.current
  rw [← term] at won
  have office := safe.office won
  rw [follows.log, term] at office
  exact office

theorem Server.Follows.holds_append {peer : NodeId} (below : peer < size) (apart : peer ≠ node) :
    Envelope.Holds careful size history ⟨node, peer, server.buildAppendFor peer⟩ := by
  have office := (follows.office safe leading).1
  have next := follows.next leading peer below apart
  refine ⟨follows.self, ?_, server.log, server.nextFor peer - 1, ?_⟩
  · rw [follows.self]
    exact follows.leads leading
  · exact { follows with
      begins := office ▸ prefix_refl _
      ends := filter_shifted (fun spot entry found => by
        rw [follows.indexed spot entry found, Nat.zero_add]) _
      place := by
        unfold indexBefore
        by_cases zero : server.nextFor peer = 0
        · exact Or.inl (by omega)
        · rw [if_neg zero]
          exact Or.inr rfl
      inside := by omega
      named := rfl }

/-- A leader's quorum of copies is a majority that has confirmed the entry. -/
theorem Server.Follows.chosen (cares : careful) (member : node < size) {spot : Nat}
    (mem : spot < server.log.length)
    (enough : server.quorum ≤ server.replicas (spot + 1)) :
    history.Chosen size server.currentTerm spot := by
  let copies := server.matchIndex.filter fun binding => spot + 1 ≤ binding.2
  have distinct : (copies.map Prod.fst).Nodup :=
    follows.peers.1.nodup.sublist (filter_sublist.map _)
  have self : node ∉ (copies.map Prod.fst).toFinset := by
    intro within
    obtain ⟨binding, kept, same⟩ := mem_map.mp (mem_toFinset.mp within)
    exact (follows.peers.2 binding (mem_filter.mp kept).1).2 same
  refine ⟨insert node (copies.map Prod.fst).toFinset, ?_, ?_, ?_⟩
  · intro voter within
    cases mem_insert.mp within with
    | inl own => exact own ▸ Finset.mem_range.mpr member
    | inr other =>
      obtain ⟨binding, kept, rfl⟩ := mem_map.mp (mem_toFinset.mp other)
      exact Finset.mem_range.mpr (follows.peers.2 binding (mem_filter.mp kept).1).1
  · rw [card_insert_of_notMem self, toFinset_card_of_nodup distinct, length_map]
    have quorum : server.quorum = size / 2 + 1 := by
      unfold Server.quorum
      rw [follows.cluster]
    have replicas : server.replicas (spot + 1) = 1 + copies.length := rfl
    omega
  · intro voter within
    cases mem_insert.mp within with
    | inl own =>
      have office := (follows.office safe leading).2
      rw [own, office]
      exact mem
    | inr other =>
      obtain ⟨binding, kept, rfl⟩ := mem_map.mp (mem_toFinset.mp other)
      have filtered := mem_filter.mp kept
      have enoughHere : spot + 1 ≤ binding.2 := by simpa using filtered.2
      exact enoughHere.trans (follows.matched cares leading binding filtered.1)

theorem Server.Follows.advanceCommit (member : node < size) :
    server.advanceCommit.Follows careful size history node := by
  have last : server.lastLogIndex = server.log.length := follows.indexed.lastIndexOf
  have moves : careful → server.advanceCommit.commitIndex ≤ server.log.length ∧
      Committed size history server.currentTerm
        (server.log.take server.advanceCommit.commitIndex) := by
    intro cares
    unfold Server.advanceCommit
    cases foldl_commitStep server (range' (server.commitIndex + 1)
        (server.lastLogIndex - server.commitIndex)) server.commitIndex with
    | inl stays =>
      simp only [stays]
      exact ⟨follows.reach cares, follows.commit cares⟩
    | inr goes =>
      obtain ⟨index, within, result, term, enough⟩ := goes
      simp only [result]
      have range := mem_range'_1.mp within
      obtain ⟨spot, rfl⟩ : ∃ spot, index = spot + 1 := ⟨index - 1, by omega⟩
      have mem : spot < server.log.length := by omega
      refine ⟨mem, Or.inr ⟨server.currentTerm, spot, le_refl _, ?_,
        follows.chosen safe leading cares member mem enough, ?_⟩⟩
      · rw [follows.indexed.entryAt, getElem?_eq_getElem mem] at term
        refine ⟨server.log[spot], ?_, term⟩
        rw [← (follows.office safe leading).1]
        exact getElem?_eq_getElem mem
      · rw [← (follows.office safe leading).1]
  exact { follows with
    reach := fun cares => (moves cares).1
    commit := fun cares => (moves cares).2 }

end

theorem Network.Follows.append (follows : net.Follows careful history)
    (leading : (net.nodes node).role = .leader) {entry : LogEntry}
    (term : entry.term = (net.nodes node).currentTerm)
    (index : entry.index = (net.nodes node).log.length + 1) :
    (net.put node { net.nodes node with log := (net.nodes node).log ++ [entry] }
      net.inbox).Advances careful history := by
  have now := follows.servers node
  have safe := follows.safe
  have leads : history.leader (history.current node) = some node := by
    rw [now.current]
    exact now.leads leading
  have mine : entry.term = history.current node := term.trans now.current.symm
  have grows : history.Grows (history.extend node entry) := Ballots.grows_extend safe leads
  have longer := now.indexed.append index
  have elsewhere : Elsewhere history (history.extend node entry) node :=
    ⟨fun _ _ => rfl, fun other apart => update_of_ne apart _ _, fun _ _ _ => rfl,
      fun _ _ _ won => won⟩
  have cand : (net.nodes node).role ≠ .candidate := by
    rw [leading]
    decide
  refine ⟨history.extend node entry, grows, ?_, follows.move grows elsewhere rfl
    (safe.extend leads mine) (fun place => ?_) ?_ (fun stands => absurd stands cand)⟩
  · intro other place start _ _ held
    refine held.trans ?_
    by_cases same : other = node
    · subst same
      simp [Ballots.extend]
    · simp [Ballots.extend, same]
  · by_cases here : place = history.current node
    · subst here
      simp only [Ballots.extend, update_self]
      rw [now.log]
      exact longer
    · simp only [Ballots.extend, update_of_ne here]
      exact follows.records place
  · have grown : (history.extend node entry).log node = (net.nodes node).log ++ [entry] := by
      simp only [Ballots.extend, update_self]
      rw [now.log]
    exact { now with
      log := grown
      indexed := longer
      next := fun _ peer below apart => by
        have next := now.next leading peer below apart
        have more : ((net.nodes node).log ++ [entry]).length =
            (net.nodes node).log.length + 1 := by simp
        exact next.trans (by simp only [more]; omega)
      stands := fun stands => absurd stands cand
      matched := fun cares _ binding mem =>
        (now.matched cares leading binding mem).trans (grows.acked _ _)
      reach := fun cares => by
        have reach := now.reach cares
        simp only [length_append]
        omega
      commit := fun cares => by
        have committed := (now.commit cares).grows grows
        rwa [← take_append_of_le_length (now.reach cares)] at committed }

/-- A leader notes what a follower has confirmed. -/
theorem Server.Follows.noteMatch {sender : NodeId}
    (follows : server.Follows careful size history node) (below : sender < size)
    (apart : sender ≠ node) {matchIndex : Nat}
    (confirmed : careful → matchIndex ≤ history.acked sender server.currentTerm) :
    Server.Follows careful size history node { server with
      matchIndex := insert sender
        (max ((find sender server.matchIndex).getD 0) matchIndex) server.matchIndex } :=
        { follows with
  peers := by
    refine ⟨follows.peers.1.insert _ _, fun binding mem => ?_⟩
    cases mem_insert mem with
    | inl new => exact new ▸ ⟨below, apart⟩
    | inr old => exact follows.peers.2 binding old
  matched cares leading binding mem := by
    cases mem_insert mem with
    | inl new =>
      have known : (find sender server.matchIndex).getD 0 ≤
          history.acked sender server.currentTerm := by
        cases found : find sender server.matchIndex with
        | none => exact zero_le _
        | some held => exact follows.matched cares leading _ (mem_of_find found)
      rw [new]
      exact Nat.max_le.mpr ⟨known, confirmed cares⟩
    | inr old => exact follows.matched cares leading binding old }

variable {term prevLogIndex prevLogTerm leaderCommit count : Nat} {entries full log : List LogEntry}

/-- A follower that holds the entry before a batch agrees with the leader up to it. -/
theorem Batch.agrees
    (batch : Batch careful size history term prevLogIndex prevLogTerm entries leaderCommit full
      count) (indexed : Indexed full) (own : Indexed log) (matching : Matching log full)
    (ok : Server.consistent log prevLogIndex prevLogTerm = true) :
    count ≤ log.length ∧ log.take count = full.take count := by
  by_cases start : count = 0
  · rw [start]
    exact ⟨zero_le _, rfl⟩
  · have here : count = prevLogIndex := batch.place.resolve_left start
    obtain ⟨spot, rfl⟩ : ∃ spot, count = spot + 1 := ⟨count - 1, by omega⟩
    subst here
    have mem := batch.inside
    have found : full[spot]? = some full[spot] := getElem?_eq_getElem mem
    have named : prevLogTerm = full[spot].term := by
      rw [batch.named, indexed.entryAt, found]
      rfl
    unfold Server.consistent at ok
    rw [own.entryAt] at ok
    cases held : log[spot]? with
    | none =>
      rw [held] at ok
      simp at ok
    | some entry =>
      rw [held] at ok
      have level : entry.term = prevLogTerm := by simpa using ok
      exact ⟨(List.getElem?_eq_some_iff.mp held).1,
        matching spot entry _ held found (level.trans named)⟩

/-- The last index that a batch vouches for. -/
def batchEnd (prevLogIndex : Nat) (entries : List LogEntry) : Nat :=
  (entries.getLast?.map LogEntry.index).getD prevLogIndex

/-- A log goes no further than a batch, or ends with an entry of the leader's term, or conflicts
with an entry of the batch and is cut there. -/
def BatchCovers (log : List LogEntry) (term prevLogIndex : Nat) (entries : List LogEntry) : Prop :=
  lastIndexOf log ≤ batchEnd prevLogIndex entries ∨ lastTermOf log = term ∨
    ∃ entry ∈ entries, ∃ held ∈ log, held.index = entry.index ∧ held.term ≠ entry.term

instance : Decidable (BatchCovers log term prevLogIndex entries) :=
  inferInstanceAs (Decidable (_ ∨ _ ∨ ∃ entry ∈ entries, ∃ held ∈ log, _ = entry.index ∧ _ ≠ _))

section
variable
  (batch : Batch careful size history term prevLogIndex prevLogTerm entries leaderCommit full count)
  (safe : history.Safe LogEntry.term size)
include batch safe

theorem Batch.batchEnd_le (recorded : history.Recorded LogEntry.term log) (indexed : Indexed full)
    (ok : Server.consistent log prevLogIndex prevLogTerm = true) :
    batchEnd prevLogIndex entries ≤ full.length := by
  unfold batchEnd
  rw [batch.ends]
  cases last : (full.drop count).getLast? with
  | some entry =>
    have within : entry ∈ full := mem_of_mem_drop (mem_of_getLast? last)
    have there := (indexed.getElem?_of_mem within).2
    have below := (List.getElem?_eq_some_iff.mp there).1
    simp only [map_some, getD_some]
    omega
  | none =>
    have none : full.drop count = [] := getLast?_eq_none_iff.mp last
    have short : full.length ≤ count := drop_eq_nil_iff.mp none
    simp only [map_none, getD_none]
    cases batch.place with
    | inr here =>
      have mem := batch.inside
      omega
    | inl start =>
      by_contra beyond
      have empty : full = [] := eq_nil_of_length_eq_zero (by omega)
      have named := batch.named
      rw [empty] at named
      have untermed : prevLogTerm = 0 := named
      have later : (prevLogIndex == 0) = false := beq_eq_false_iff_ne.mpr (by omega)
      unfold Server.consistent at ok
      rw [later, Bool.false_or, untermed] at ok
      cases held : entryAt log prevLogIndex with
      | none =>
        rw [held] at ok
        cases ok
      | some entry =>
        rw [held] at ok
        have zero : entry.term = 0 := by simpa using ok
        obtain ⟨spot, found⟩ := mem_iff_getElem?.mp (mem_of_find?_eq_some held)
        have led := recorded.led spot entry found
        rw [zero] at led
        obtain ⟨winner, won⟩ := isSome_iff_exists.mp led
        obtain ⟨voter, cast, -⟩ := (safe.majority won).meet (safe.majority won)
        exact absurd (safe.begun cast) (lt_irrefl 0)

/-- A follower's log after it took a batch. -/
theorem Batch.taken (records : ∀ term, Indexed (history.record term))
    (recorded : history.Recorded LogEntry.term log) (own : Indexed log)
    (ok : Server.consistent log prevLogIndex prevLogTerm = true) :
    (full <+: log ∧ entries.foldl Server.takeEntry log = log) ∨
      (¬ full <+: log ∧ entries.foldl Server.takeEntry log = full) := by
  have indexed : Indexed full := (records term).of_initial batch.begins
  -- entries of one term at one index are the same up to it
  have matching : Matching log full := fun _ _ _ =>
    recorded.take_eq ((safe.records term).of_initial batch.begins)
  obtain ⟨reaches, same⟩ := batch.agrees indexed own matching ok
  rw [batch.ends]
  exact foldl_takeEntry own indexed matching reaches same

end

/-- A follower accepts a batch: its log takes over what it lacks of the leader's, and what it
confirms is in the leader's log if it reports carefully. -/
theorem Network.Follows.accept (follows : net.Follows careful history) {leader : NodeId}
    (level : (net.nodes node).currentTerm = term) (won : history.leader term = some leader)
    (apart : leader ≠ node)
    (batch : Batch careful net.size history term prevLogIndex prevLogTerm entries leaderCommit
      full count) (ok : Server.consistent (net.nodes node).log prevLogIndex prevLogTerm = true)
    (settled : (net.nodes node).role ≠ .candidate)
    (taken : log = entries.foldl Server.takeEntry (net.nodes node).log)
    (reports : careful → BatchCovers (net.nodes node).log term prevLogIndex entries) :
    ∃ next, history.Grows next ∧ Retains net.size history next ∧
      (net.put node { net.nodes node with
        log := log
        commitIndex := if (net.nodes node).commitIndex < leaderCommit then
          min leaderCommit log.length else (net.nodes node).commitIndex }
        net.inbox).Follows careful next ∧
      (careful → log.length ≤ next.acked node term) := by
  have now := follows.servers node
  have safe := follows.safe
  have here : history.current node = term := now.current.trans level
  have recorded : history.Recorded LogEntry.term (net.nodes node).log :=
    now.log ▸ safe.logs node
  have either := batch.taken safe follows.records recorded now.indexed ok
  rw [← taken] at either
  have begins : full <+: log := by
    cases either with
    | inl kept => exact kept.2 ▸ kept.1
    | inr cut => exact cut.2 ▸ prefix_refl _
  have source : log = history.log node ∨ log <+: history.record (history.current node) := by
    cases either with
    | inl kept => exact Or.inl (kept.2.trans now.log.symm)
    | inr cut =>
      rw [cut.2, here]
      exact Or.inr batch.begins
  have keeps : ∀ start, start <+: history.log node →
      start <+: history.record (history.current node) → start <+: log := by
    intro start held shared
    rw [now.log] at held
    rw [here] at shared
    cases either with
    | inl kept => exact kept.2 ▸ held
    | inr cut =>
      cases prefix_or_prefix_of_prefix shared batch.begins with
      | inl shorter => exact cut.2 ▸ shorter
      | inr longer => exact absurd (longer.trans held) cut.1
  have result : history.Recorded LogEntry.term log := by
    cases source with
    | inl old => exact old ▸ safe.logs node
    | inr new => exact (safe.records _).of_initial new
  have shared : careful → log <+: history.record term := by
    intro cares
    rcases either with ⟨starts, kept⟩ | cut
    · rcases reports cares with within | ends | ⟨entry, mem, held, there, spot, other⟩
      · have indexed : Indexed full := (follows.records term).of_initial batch.begins
        have short := batch.batchEnd_le safe recorded indexed ok
        rw [now.indexed.lastIndexOf, ← kept] at within
        have same : full = log := begins.eq_of_length_le (within.trans short)
        exact same ▸ batch.begins
      · rw [← kept] at ends
        exact ends ▸ result.prefix_record
      · -- the log begins with the leader's, so it holds the entries of the batch
        rw [batch.ends] at mem
        have first := (now.indexed.getElem?_of_mem (starts.subset (mem_of_mem_drop mem))).2
        have second := (now.indexed.getElem?_of_mem there).2
        rw [spot, first, some_inj] at second
        exact absurd (congrArg LogEntry.term second.symm) other
    · exact cut.2 ▸ batch.begins
  obtain ⟨number, long, counted, enough⟩ : ∃ number, number ≤ log.length ∧
      log.take number <+: history.record (history.current node) ∧
      (careful → log.length ≤ number) := by
    rw [here]
    by_cases cares : careful
    · refine ⟨log.length, le_refl _, ?_, fun _ => le_refl _⟩
      rw [take_length]
      exact shared cares
    · refine ⟨full.length, begins.length_le, ?_, fun yes => absurd yes cares⟩
      rw [take_of_initial begins (le_refl _), take_length]
      exact batch.begins
  have leads : history.leader (history.current node) = some leader := here ▸ won
  have grows : history.Grows (history.accept node log number) := Ballots.grows_accept leads
  have elsewhere : Elsewhere history (history.accept node log number) node :=
    ⟨fun _ _ => rfl, fun other differs => update_of_ne differs _ _, fun _ _ _ => rfl,
      fun _ _ _ won => won⟩
  have indexed : Indexed log := by
    cases either with
    | inl kept => exact kept.2 ▸ now.indexed
    | inr cut => exact cut.2 ▸ (follows.records term).of_initial batch.begins
  have notLeader : (net.nodes node).role ≠ .leader := by
    intro leading
    have own := now.leads leading
    rw [level] at own
    exact apart (some.inj (won.symm.trans own))
  have committed : careful → (if (net.nodes node).commitIndex < leaderCommit then
      min leaderCommit log.length else (net.nodes node).commitIndex) ≤ log.length ∧
      Committed net.size history term (log.take
        (if (net.nodes node).commitIndex < leaderCommit then
          min leaderCommit log.length else (net.nodes node).commitIndex)) := by
    intro cares
    by_cases more : (net.nodes node).commitIndex < leaderCommit
    · rw [if_pos more]
      have reach := batch.reach cares
      have long := begins.length_le
      rw [min_eq_left (reach.trans long), take_of_initial begins reach]
      exact ⟨reach.trans long, batch.commit cares⟩
    · rw [if_neg more]
      have old := now.commit cares
      rw [level] at old
      have stays : (net.nodes node).log.take (net.nodes node).commitIndex <+: log := by
        refine keeps _ ?_ ?_
        · rw [now.log]
          exact take_prefix _ _
        · rw [here]
          exact safe.committed_record old (le_refl _) won
      have reach := stays.length_le
      have was := now.reach cares
      rw [length_take, min_eq_left was] at reach
      have same := take_of_initial stays (by rw [length_take, min_eq_left was])
      rw [take_take, min_self] at same
      rw [same]
      exact ⟨reach, old⟩
  refine ⟨history.accept node log number, grows, ?_, follows.move grows elsewhere rfl
    (safe.accept leads apart source keeps long counted) follows.records ?_
    (fun stands => absurd stands settled), fun cares => ?_⟩
  · intro other place start done reached held
    by_cases same : other = node
    · subst same
      simp only [Ballots.accept, update_self]
      exact keeps start held (safe.committed_record done reached leads)
    · simp only [Ballots.accept, update_of_ne same]
      exact held
  · exact { now with
      log := update_self _ _ _
      indexed := indexed
      next := fun leading => absurd leading notLeader
      stands := fun stands => absurd stands settled
      matched := fun _ leading => absurd leading notLeader
      reach := fun cares => (committed cares).1
      commit := fun cares => by
        have done := ((committed cares).2).grows grows
        rw [← level] at done
        exact done }
  · have acked : (history.accept node log number).acked node (history.current node) =
        max (history.acked node (history.current node)) number := Ballots.set_self _ _ _ _
    rw [← here, acked]
    exact (enough cares).trans (le_max_right _ _)

end
end LionFS.Cluster.Raft
