import LionFS.Cluster.Raft.Steps

/-!
# Safety of the cluster

Every run of the cluster has at most one leader a term and matching logs. What a
server takes to be committed is agreed on for ever in every run in which followers
report their matches carefully; they report the end of their own log, and a run
in which a follower's log ends in entries of an older leader lets a leader commit
what nobody else holds.
-/
namespace LionFS.Cluster.Raft
open List Option Machine
open Machine (Along Always run_keeps along_of_forall)

/-- No two servers lead in one term. -/
def Network.OneLeader (net : Network) : Prop :=
  ∀ first second, (net.nodes first).role = .leader → (net.nodes second).role = .leader →
    (net.nodes first).currentTerm = (net.nodes second).currentTerm → first = second

/-- Logs hold the indices from one on with non-decreasing terms, and two logs with an entry of
one term at an index are the same up to it. -/
structure Network.LogsMatch (net : Network) : Prop where
  indices : ∀ node, (net.nodes node).log.map LogEntry.index =
    range' 1 (net.nodes node).log.length
  terms : ∀ node, (net.nodes node).log.Pairwise fun first second => first.term ≤ second.term
  /-- Entries of one term at an index come after the same entries. -/
  same : ∀ first second index entry other,
    entryAt (net.nodes first).log index = some entry →
    entryAt (net.nodes second).log index = some other → entry.term = other.term →
    ∀ before ≤ index, entryAt (net.nodes first).log before =
      entryAt (net.nodes second).log before

/-- What servers take to be committed in one state is what they, or others, hold in a later one. -/
structure Network.Agrees (earlier later : Network) : Prop where
  /-- Entries that two servers take to be committed are equal. -/
  committed : ∀ first second index, 1 ≤ index → index ≤ (earlier.nodes first).commitIndex →
    index ≤ (later.nodes second).commitIndex →
    ∃ entry, entryAt (earlier.nodes first).log index = some entry ∧
      entryAt (later.nodes second).log index = some entry
  /-- A server neither truncates nor replaces what it took to be committed. -/
  kept : ∀ node index, 1 ≤ index → index ≤ (earlier.nodes node).commitIndex →
    entryAt (later.nodes node).log index = entryAt (earlier.nodes node).log index

variable {history : History} {careful : Prop}

theorem Network.Follows.oneLeader {net : Network} (follows : net.Follows careful history) :
    net.OneLeader := by
  intro first second one two same
  have won := (follows.servers first).leads one
  have also := (follows.servers second).leads two
  rw [same, also] at won
  exact (some.inj won).symm

theorem Indexed.map_index {log : List LogEntry} (indexed : Indexed log) :
    log.map LogEntry.index = range' 1 log.length := by
  refine ext_getElem? fun spot => ?_
  rw [getElem?_map]
  cases found : log[spot]? with
  | none =>
    have beyond := getElem?_eq_none_iff.mp found
    rw [map_none, getElem?_eq_none_iff.mpr]
    rw [length_range']
    exact beyond
  | some entry =>
    have mem := (List.getElem?_eq_some_iff.mp found).1
    rw [map_some, indexed spot entry found, getElem?_range' mem]
    congr 1
    omega

theorem Network.Follows.logsMatch {net : Network} (follows : net.Follows careful history) :
    net.LogsMatch := by
  have recorded : ∀ node, history.Recorded LogEntry.term (net.nodes node).log := fun node =>
    (follows.servers node).log ▸ follows.safe.logs node
  refine ⟨fun node => (follows.servers node).indexed.map_index, fun node => (recorded node).sorted,
    fun first second index entry other here there level before below => ?_⟩
  have one := (follows.servers first).indexed
  have two := (follows.servers second).indexed
  cases index with
  | zero =>
    rw [one.entryAt_zero] at here
    cases here
  | succ spot =>
    rw [one.entryAt] at here
    rw [two.entryAt] at there
    have same := (recorded first).take_eq (recorded second) here there level
    cases before with
    | zero => rw [one.entryAt_zero, two.entryAt_zero]
    | succ spot =>
      rw [one.entryAt, two.entryAt, ← getElem?_take_of_lt below, same, getElem?_take_of_lt below]

theorem follows_always {holds : Network → Prop}
    (implies : ∀ history net, Network.Follows careful history net → holds net)
    (size : Nat) {events : List Event} (along : Along Network.step
      (fun state event => careful → state.ReportsMatch event) events (Network.new size)) :
    Always Network.step holds events (Network.new size) := by
  refine @Machine.always_of_along _ _ Network.step _
    (fun net => ∃ history, Network.Follows careful history net) holds
    (fun state event next follows reports taken => ?_) (fun state follows => ?_) events _
    ⟨_, follows_new careful size⟩ along
  · obtain ⟨history, now⟩ := follows
    obtain ⟨later, -, -, then'⟩ := Network.follows_step now reports taken
    exact ⟨later, then'⟩
  · obtain ⟨history, now⟩ := follows
    exact implies history state now

/-- In every run no two servers ever lead in one term. -/
theorem elects_one_leader (size : Nat) (events : List Event) :
    Always Network.step Network.OneLeader events (Network.new size) :=
  follows_always (fun _ _ follows => follows.oneLeader) size
    (along_of_forall (fun _ _ => False.elim) events _)

/-- In every run the servers' logs match. -/
theorem logs_match (size : Nat) (events : List Event) :
    Always Network.step Network.LogsMatch events (Network.new size) :=
  follows_always (fun _ _ follows => follows.logsMatch) size
    (along_of_forall (fun _ _ => False.elim) events _)

/-- Runs of the cluster continue the history they start from. -/
theorem advances_of_run {net last : Network} {events : List Event}
    (follows : net.Follows True history)
    (along : Along Network.step Network.ReportsMatch events net)
    (ran : run Network.step events net = some last) :
    last.size = net.size ∧ last.Advances True history := by
  refine @run_keeps _ _ Network.step Network.ReportsMatch
    (fun state => state.size = net.size ∧ state.Advances True history)
    (fun state event next both reports taken => ?_) events net last
    ⟨rfl, follows.advances⟩ along ran
  have size := Network.step_size taken
  exact ⟨size.trans both.1, both.2.andThen size fun later now =>
    Network.follows_step now (fun _ => reports) taken⟩

theorem Server.Follows.entryAt_committed {size : Nat} {node : NodeId} {server : Server}
    (follows : server.Follows True size history node) {spot : Nat}
    (mem : spot < server.commitIndex) :
    ∃ entry, entryAt server.log (spot + 1) = some entry ∧
      (server.log.take server.commitIndex)[spot]? = some entry := by
  have within := mem.trans_le (follows.reach trivial)
  refine ⟨server.log[spot], ?_, ?_⟩
  · rw [follows.indexed.entryAt]
    exact getElem?_eq_getElem within
  · rw [getElem?_take_of_lt mem]
    exact getElem?_eq_getElem within

/-- In every run whose followers report carefully, what servers take to be committed is agreed on
from then on. -/
theorem committed_agrees (size : Nat) (before after : List Event) (earlier later : Network)
    (ran : run Network.step before (Network.new size) = some earlier)
    (goes : run Network.step after earlier = some later)
    (reported : Along Network.step Network.ReportsMatch before (Network.new size))
    (reports : Along Network.step Network.ReportsMatch after earlier) :
    earlier.Agrees later := by
  obtain ⟨-, past, -, -, now⟩ := advances_of_run (follows_new True size) reported ran
  obtain ⟨same, future, grows, retains, then'⟩ := advances_of_run now reports goes
  refine ⟨fun first second index positive here there => ?_, fun node index positive here => ?_⟩
  · obtain ⟨position, rfl⟩ : ∃ position, index = position + 1 := ⟨index - 1, by omega⟩
    obtain ⟨entry, at', held⟩ := (now.servers first).entryAt_committed here
    obtain ⟨other, found, holds⟩ := (then'.servers second).entryAt_committed there
    have one := ((now.servers first).commit trivial).grows grows
    have two := (then'.servers second).commit trivial
    rw [same] at two
    have safe := then'.safe
    rw [same] at safe
    have equal : entry = other := by
      cases safe.comparable one two with
      | inl shorter =>
        have both := getElem?_of_initial shorter held
        exact some.inj (both.symm.trans holds)
      | inr longer =>
        have both := getElem?_of_initial longer holds
        exact some.inj (held.symm.trans both)
    exact ⟨entry, at', equal ▸ found⟩
  · obtain ⟨position, rfl⟩ : ∃ position, index = position + 1 := ⟨index - 1, by omega⟩
    obtain ⟨entry, at', held⟩ := (now.servers node).entryAt_committed here
    have committed := (now.servers node).commit trivial
    rw [← same] at committed
    have begins : (earlier.nodes node).log.take (earlier.nodes node).commitIndex <+:
        future.log node := by
      refine retains node _ _ committed (now.servers node).current.ge ?_
      rw [(now.servers node).log]
      exact take_prefix _ _
    rw [(then'.servers node).log] at begins
    rw [at', (then'.servers node).indexed.entryAt]
    exact getElem?_of_initial begins held

/-- Server 0 of three wins the first term with the vote of server 1 and takes a command, which
server 1 copies. -/
def copiedCommand : List Event :=
  Network.ticks 3 150 ++ [.deliver 0, .drop 0, .deliver 0, .drop 0, .drop 0, .propose 0 [97]] ++
    Network.ticks 3 10 ++ [.deliver 0, .drop 0, .deliver 0]

/-- The next heartbeat of server 0 tells server 1. -/
def toldCommand : List Event := Network.ticks 3 60 ++ [.deliver 0]

/-- The cluster when server 0 has heard of the copy. -/
def copiedState : Network := reach Network.step copiedCommand (Network.new 3)

/-- The cluster when server 1 has heard of the commit. -/
def toldState : Network := reach Network.step toldCommand copiedState

/-- A command that a majority holds is committed on two servers. -/
theorem committed_agrees_copied :
    (copiedState.nodes 0).commitIndex = 1 ∧ (toldState.nodes 1).commitIndex = 1 ∧
      copiedState.Agrees toldState :=
  ⟨by decide +kernel, by decide +kernel, committed_agrees 3 copiedCommand toldCommand copiedState
    toldState (run_eq_reach (by decide +kernel)) (run_eq_reach (by decide +kernel))
    (by decide +kernel) (by decide +kernel)⟩

/-- In such a run a leader holds all that any server of its term or an earlier one took to be
committed before. -/
theorem leader_holds_committed (size : Nat) (before after : List Event) (earlier later : Network)
    (ran : run Network.step before (Network.new size) = some earlier)
    (goes : run Network.step after earlier = some later)
    (reported : Along Network.step Network.ReportsMatch before (Network.new size))
    (reports : Along Network.step Network.ReportsMatch after earlier) (node leader : NodeId)
    (leads : (later.nodes leader).role = .leader)
    (no_later : (earlier.nodes node).currentTerm ≤ (later.nodes leader).currentTerm) :
    (earlier.nodes node).log.take (earlier.nodes node).commitIndex <+:
      (later.nodes leader).log := by
  obtain ⟨-, past, -, -, now⟩ := advances_of_run (follows_new True size) reported ran
  obtain ⟨same, future, grows, -, then'⟩ := advances_of_run now reports goes
  have committed := ((now.servers node).commit trivial).grows grows
  rw [← same] at committed
  have winner := then'.servers leader
  rw [(winner.office then'.safe leads).1]
  exact then'.safe.committed_record committed no_later (winner.leads leads)

/-- Server 1 wins the second term with the vote of server 2, before it has heard of the commit. -/
def successor : Network :=
  reach Network.step [.tick 1 400, .deliver 1, .deliver 1] copiedState

/-- The next leader of a cluster with a copied entry. -/
theorem successor_holds_copied : (copiedState.nodes 0).commitIndex = 1 ∧
    (successor.nodes 1).commitIndex = 0 ∧
      (copiedState.nodes 0).log.take (copiedState.nodes 0).commitIndex <+:
        (successor.nodes 1).log :=
  ⟨by decide +kernel, by decide +kernel, leader_holds_committed 3 copiedCommand _ copiedState
    successor (run_eq_reach (by decide +kernel)) (run_eq_reach (by decide +kernel))
    (by decide +kernel) (by decide +kernel) 0 1 (by decide +kernel) (by decide +kernel)⟩

/-- Server 0 wins the first term and takes a command that is not copied. Server 2 wins the second
term with the vote of server 1; server 0 answers its heartbeat with the end of its own log, so
that server 2 takes its first command to be held by two servers. -/
def miscounted : List Event :=
  Network.ticks 3 150 ++ [.deliver 0, .deliver 0, .deliver 0, .drop 0, .drop 0, .drop 0,
    .propose 0 [98]] ++
  Network.ticks 3 174 ++ [.drop 0, .drop 0, .drop 0, .deliver 0, .deliver 0, .deliver 0, .drop 0,
    .deliver 0, .propose 2 [97]]

/-- Server 0 wins the third term with the vote of server 1, which copies its log, and commits a
command there. -/
def overruled : List Event :=
  Network.ticks 3 177 ++ [.deliver 0, .drop 0, .drop 0, .drop 0, .deliver 0, .deliver 0, .drop 0,
    .deliver 0, .deliver 0, .deliver 0, .propose 0 [99]] ++
  Network.ticks 3 0 ++ [.deliver 0, .drop 0, .deliver 0]

/-- Servers 2 and 0 take different entries with index one to be committed. -/
theorem commits_unshared_entry :
    ¬ ∀ (size : Nat) (before after : List Event) (earlier later : Network),
      run Network.step before (Network.new size) = some earlier →
      run Network.step after earlier = some later → earlier.Agrees later := by
  intro agrees
  let earlier := reach Network.step miscounted (Network.new 3)
  let later := reach Network.step overruled earlier
  have ran : run Network.step miscounted (Network.new 3) = some earlier :=
    run_eq_reach (by decide +kernel)
  have goes : run Network.step overruled earlier = some later :=
    run_eq_reach (by decide +kernel)
  have one : 1 ≤ (earlier.nodes 2).commitIndex := by decide +kernel
  have two : 1 ≤ (later.nodes 0).commitIndex := by decide +kernel
  obtain ⟨entry, here, there⟩ :=
    (agrees 3 miscounted overruled earlier later ran goes).committed 2 0 1 (by decide) one two
  have mine : entryAt (earlier.nodes 2).log 1 = some ⟨2, 1, [97]⟩ := by decide +kernel
  have other : entryAt (later.nodes 0).log 1 = some ⟨1, 1, [98]⟩ := by decide +kernel
  rw [mine] at here
  rw [other] at there
  exact absurd (here.trans there.symm) (by decide)

end LionFS.Cluster.Raft
