import LionFS.Cluster.Raft.Network

/-!
# Back-off of a leader

On a failed answer a leader lowers its next index for the follower and sends again
from there, and `build_append_for` subtracts one from that index. Several answers
to batches of one index may be under way, and each of them lowers the index once
more. The index stays positive exactly as long as no failed answer of the leader's
term arrives when the index is already one.
-/
namespace LionFS.Cluster.Raft
open Assoc Machine

/-- Leaders' next indices are positive. -/
def Network.NextPositive (net : Network) : Prop :=
  ∀ node, (net.nodes node).role = .leader → ∀ peer, 1 ≤ (net.nodes node).nextFor peer

/-- A failed answer of a leader's term arrives only when the index can be lowered. -/
def Server.CanBackOff (server : Server) (sender : NodeId) : RaftMessage → Prop
  | .appendEntriesReply term success _ =>
    server.role = .leader → term = server.currentTerm → success = false →
      2 ≤ server.nextFor sender
  | _ => True

instance (server : Server) (sender : NodeId) :
    (message : RaftMessage) → Decidable (server.CanBackOff sender message)
  | .appendEntriesReply _ _ _ => inferInstanceAs (Decidable (_ = _ → _ = _ → _ = _ → _ ≤ _))
  | .requestVote _ _ _ _ | .requestVoteReply _ _ | .appendEntries _ _ _ _ _ _ => .isTrue trivial

/-- A step lowers no next index of a leader below one. -/
def Network.CanBackOff (net : Network) : Event → Prop
  | .deliver position =>
    match net.inbox[position]? with
    | some envelope => (net.nodes envelope.dest).CanBackOff envelope.sender envelope.message
    | none => True
  | _ => True

/-- All next indices of a server are positive. -/
def Server.Ahead (server : Server) : Prop := ∀ peer, 1 ≤ server.nextFor peer

theorem Server.Ahead.of_nextIndex {server other : Server} (ahead : server.Ahead)
    (same : other.nextIndex = server.nextIndex) : other.Ahead := by
  intro peer
  unfold Server.nextFor
  rw [same]
  exact ahead peer

variable {server : Server}

/-- A new leader starts after the end of its log. -/
theorem Server.Ahead.winElection (ahead : server.Ahead) : server.winElection.Ahead := by
  intro peer
  unfold Server.nextFor Server.winElection
  rw [find_foldl_insert]
  by_cases mem : peer ∈ server.peers
  · rw [if_pos mem, Option.getD_some]
    exact Nat.succ_le_succ (Nat.zero_le _)
  · rw [if_neg mem]
    exact ahead peer

/-- Time that passes leaves positive next indices. -/
theorem Server.Ahead.tick (ahead : server.Ahead) (elapsed : Nat) :
    (server.tick elapsed).1.Ahead := by
  have standing := ahead.of_nextIndex rfl
  have election : (server.tickElection elapsed).1.Ahead := by
    unfold Server.tickElection
    by_cases due : server.electionTimeoutIn - elapsed = 0
    · by_cases enough : server.standForElection.quorum ≤ server.standForElection.votesReceived
      · simp only [due, enough, ↓reduceIte]
        exact standing.winElection
      · simp only [due, enough, ↓reduceIte]
        exact standing
    · simp only [due, ↓reduceIte]
      exact ahead.of_nextIndex rfl
  unfold Server.tick
  cases server.role with
  | leader =>
    unfold Server.tickLeader
    by_cases due : server.heartbeatDueIn - elapsed = 0
    · simp only [due, ↓reduceIte]
      exact ahead.of_nextIndex rfl
    · simp only [due, ↓reduceIte]
      exact ahead.of_nextIndex rfl
  | candidate => exact election
  | follower => exact election

theorem Server.Ahead.handle (ahead : server.Ahead) {sender : NodeId} {msg : RaftMessage}
    (able : server.CanBackOff sender msg) : (server.handle sender msg).1.Ahead := by
  have adopts : ∀ term, (server.becomeFollower term).Ahead := by
    refine fun term => ahead.of_nextIndex ?_
    unfold Server.becomeFollower
    split <;> rfl
  cases msg with
  | requestVote term cand lastLogIndex lastLogTerm =>
    simp only [Server.handle, Server.handleRequestVote]
    by_cases stale : term < server.currentTerm
    · rw [if_pos stale]
      exact ahead
    · rw [if_neg stale]
      refine (adopts term).of_nextIndex ?_
      unfold Server.castVote
      dsimp only
      split <;> rfl
  | requestVoteReply term granted =>
    simp only [Server.handle, Server.handleRequestVoteReply]
    split
    · exact adopts term
    · split
      · exact adopts term
      · split
        · have counted := ahead.of_nextIndex rfl
          split
          · exact counted.winElection
          · exact counted
        · exact ahead
  | appendEntries term leader prevLogIndex prevLogTerm entries leaderCommit =>
    simp only [Server.handle, Server.handleAppendEntries]
    by_cases stale : term < server.currentTerm
    · rw [if_pos stale]
      exact ahead
    · rw [if_neg stale]
      refine (adopts term).of_nextIndex ?_
      unfold Server.takeBatch
      split <;> rfl
  | appendEntriesReply term success matchIndex =>
    simp only [Server.handle, Server.handleAppendEntriesReply]
    by_cases other : server.role ≠ .leader
    · rw [if_pos other]
      exact adopts term
    · rw [if_neg other]
      by_cases later : server.currentTerm < term
      · rw [if_pos later]
        exact adopts term
      · rw [if_neg later]
        by_cases stale : term < server.currentTerm
        · rw [if_pos stale]
          exact ahead
        · rw [if_neg stale]
          by_cases yes : success = true
          · rw [if_pos yes]
            exact ahead.of_nextIndex rfl
          · rw [if_neg yes]
            have room : 2 ≤ server.nextFor sender :=
              able (not_not.mp other) (by omega) (Bool.eq_false_iff.mpr yes)
            intro peer
            unfold Server.nextFor at room ⊢
            dsimp only
            rw [find_insert]
            by_cases same : peer = sender
            · rw [if_pos same, Option.getD_some]
              omega
            · rw [if_neg same]
              exact ahead peer

theorem Server.nextFor_of_not_canBackOff {sender : NodeId} {msg : RaftMessage}
    (unable : ¬ server.CanBackOff sender msg) :
    (server.handle sender msg).1.role = .leader ∧
      (server.handle sender msg).1.nextFor sender = 0 := by
  cases msg with
  | requestVote => exact absurd trivial unable
  | requestVoteReply => exact absurd trivial unable
  | appendEntries => exact absurd trivial unable
  | appendEntriesReply term success matchIndex =>
    have facts : server.role = .leader ∧ term = server.currentTerm ∧ success = false ∧
        server.nextFor sender < 2 := by
      by_contra otherwise
      refine unable fun leading level failed => ?_
      by_contra less
      exact otherwise ⟨leading, level, failed, Nat.lt_of_not_le less⟩
    obtain ⟨leading, rfl, rfl, less⟩ := facts
    unfold Server.nextFor at less
    simp only [Server.handle, Server.handleAppendEntriesReply, leading, ne_eq, not_true_eq_false,
      ↓reduceIte, lt_irrefl, Bool.false_eq_true, Server.nextFor, find_insert,
      Option.getD_some, true_and]
    omega

variable {event : Event}

theorem ahead_step {net next : Network} (all : ∀ node, (net.nodes node).Ahead)
    (able : net.CanBackOff event) (taken : net.step event = some next) :
    ∀ node, (next.nodes node).Ahead := by
  obtain ⟨node, elapsed, rfl, -, rfl⟩ | ⟨spot, envelope, rfl, found, rfl⟩ |
    ⟨spot, rfl, -, rfl⟩ | ⟨node, command, rfl, -, -, rfl⟩ := Network.step_cases taken
  · exact Network.forall_put (fun _ => Server.Ahead) ((all node).tick elapsed) fun other _ =>
      all other
  · simp only [Network.CanBackOff, found] at able
    exact Network.forall_put (fun _ => Server.Ahead) ((all envelope.dest).handle able)
      fun other _ => all other
  · exact all
  · exact Network.forall_put (fun _ => Server.Ahead) ((all node).of_nextIndex rfl)
      fun other _ => all other

/-- After a step that cannot back off a leader's next index is zero. -/
theorem canBackOff_of_step {net next : Network} (pos : next.NextPositive)
    (taken : net.step event = some next) : net.CanBackOff event := by
  obtain ⟨node, elapsed, rfl, -, rfl⟩ | ⟨spot, envelope, rfl, found, rfl⟩ |
    ⟨spot, rfl, -, rfl⟩ | ⟨node, command, rfl, -, -, rfl⟩ := Network.step_cases taken
  · trivial
  · simp only [Network.CanBackOff, found]
    by_contra unable
    have lost := Server.nextFor_of_not_canBackOff unable
    have here := pos envelope.dest
    simp only [Network.served, Network.put, ↓reduceIte] at here
    have one := here lost.1 envelope.sender
    omega
  · trivial
  · trivial

theorem canBackOff_of_none {net : Network} (refused : net.step event = none) :
    net.CanBackOff event := by
  cases event with
  | deliver spot =>
    cases found : net.inbox[spot]? with
    | none => simp only [Network.CanBackOff, found]
    | some envelope => simp [Network.step, found] at refused
  | tick => trivial
  | drop => trivial
  | propose => trivial

/-- In every run the leaders' next indices stay positive exactly when no failed answer of a
leader's term arrives at an index that is already one. -/
theorem next_positive_iff (size : Nat) (events : List Event) :
    Machine.Always Network.step Network.NextPositive events (Network.new size) ↔
      Machine.Along Network.step Network.CanBackOff events (Network.new size) := by
  have initial : ∀ node, ((Network.new size).nodes node).Ahead := by
    intro node peer
    unfold Server.nextFor Network.new Server.new
    dsimp only
    rw [find_foldl_insert]
    split <;> simp [find]
  exact always_iff_along (fun net all node _ => all node)
    (fun net event next all taken =>
      ⟨fun able => ahead_step all able taken, fun positive => canBackOff_of_step positive taken⟩)
    (fun net event _ refused => canBackOff_of_none refused) initial

/-- Server 0 wins the first term, takes a command that is not copied, gives way to the second term
and wins the third. Its heartbeats on winning and on the next tick both name the command, which
server 1 lacks, so that two failed answers lower the next index from two. -/
def failedTwice : List Event :=
  Network.ticks 3 150 ++ [.deliver 0, .deliver 0, .deliver 0, .drop 0, .drop 0, .drop 0,
    .propose 0 [98]] ++
  Network.ticks 3 174 ++ [.drop 0, .drop 0, .deliver 0, .deliver 0, .drop 0, .drop 0] ++
  Network.ticks 3 177 ++ [.deliver 0, .drop 0, .deliver 0] ++
  Network.ticks 3 0 ++ [.deliver 0, .drop 0, .deliver 0, .drop 0, .deliver 0, .deliver 0]

/-- A leader's next index reaches zero, and the batch built from it names the last `u64` index. -/
theorem backs_off_below_one :
    ¬ ∀ (size : Nat) (events : List Event),
      Machine.Always Network.step Network.NextPositive events (Network.new size) := by
  intro positive
  have ran : run Network.step failedTwice (Network.new 3) =
      some (reach Network.step failedTwice (Network.new 3)) :=
    run_eq_reach (by decide +kernel)
  have last := (positive 3 failedTwice).last ran 0 (by decide +kernel) 1
  have zero : ((reach Network.step failedTwice (Network.new 3)).nodes 0).nextFor 1 = 0 := by
    decide +kernel
  omega

end LionFS.Cluster.Raft
