import LionFS.Cluster.Raft.Replication

/-!
# Every step follows the history

What a server does with a message or when time passes is a sequence of moves of
the history and of messages that are true of it. So every run from the initial
cluster follows a history of elections (`follows_step`). A step is careful when
no follower accepts a batch that ends before its log, unless the log ends in the
leader's term or conflicts with the batch: what it reports then is its own log.
-/
namespace LionFS.Cluster.Raft
open List

/-- A server that accepts a batch holds nothing behind it, except where its log ends with an entry
of the leader's term or is cut by the batch. -/
def Server.ReportsMatch (server : Server) : RaftMessage → Prop
  | .appendEntries term _ prevLogIndex prevLogTerm entries _ =>
    server.currentTerm ≤ term → Server.consistent server.log prevLogIndex prevLogTerm = true →
      BatchCovers server.log term prevLogIndex entries
  | _ => True

instance (server : Server) : (message : RaftMessage) → Decidable (server.ReportsMatch message)
  | .appendEntries _ _ _ _ _ _ =>
    inferInstanceAs (Decidable (_ ≤ _ → _ = _ → BatchCovers _ _ _ _))
  | .requestVote _ _ _ _ | .requestVoteReply _ _ | .appendEntriesReply _ _ _ => .isTrue trivial

variable (net : Network)

/-- A step reports matches carefully. -/
def Network.ReportsMatch : Event → Prop
  | .deliver position =>
    match net.inbox[position]? with
    | some envelope =>
      (net.nodes envelope.dest).ReportsMatch envelope.message
    | none => True
  | _ => True

instance : (event : Event) → Decidable (net.ReportsMatch event)
  | .deliver position =>
    match found : net.inbox[position]? with
    | some envelope => decidable_of_iff
        ((net.nodes envelope.dest).ReportsMatch envelope.message)
        (by simp only [Network.ReportsMatch, found])
    | none => .isTrue (by simp only [Network.ReportsMatch, found])
  | .tick _ _ | .drop _ | .propose _ _ => .isTrue trivial

variable (node : NodeId)

theorem Network.put_put (first second : Server) (before after : List Envelope) :
    (net.put node first before).put node second after = net.put node second after := by
  have same : (fun id => if id = node then second else
      (if id = node then first else net.nodes id)) =
      fun id => if id = node then second else net.nodes id := by
    funext id
    by_cases here : id = node
    · rw [if_pos here, if_pos here]
    · rw [if_neg here, if_neg here, if_neg here]
  unfold Network.put
  dsimp only
  rw [same]

theorem Network.served_put (server : Server) (done : Server × List Outgoing)
    (before after : List Envelope) :
    (net.put node server before).served node done after = net.served node done after :=
  put_put ..

theorem Network.served_back (out : List Outgoing) (inbox : List Envelope) :
    net.served node (net.nodes node, out) inbox = { net with inbox := inbox ++ sends node out } :=
  congrArg (fun other : Network => { other with inbox := inbox ++ sends node out })
    (net.put_self node)

theorem Network.served_silent (server : Server) (inbox : List Envelope) :
    net.served node (server, []) inbox = net.put node server inbox :=
  congrArg (net.put node server) (append_nil inbox)

@[simp] theorem Network.put_nodes (server : Server) (inbox : List Envelope) :
    (net.put node server inbox).nodes node = server := if_pos rfl

variable {term : Nat}

/-- The term after a higher or equal one is adopted. -/
theorem Server.becomeFollower_currentTerm {server : Server} (fresh : ¬ term < server.currentTerm) :
    (server.becomeFollower term).currentTerm = term := by
  unfold Server.becomeFollower
  by_cases later : server.currentTerm < term
  · rw [if_pos later]
  · rw [if_neg later]
    omega

namespace Network
variable {careful : Prop} {history : History} {net : Network} {node sender : NodeId}
  {rest : List Envelope} {envelope : Envelope}
section
variable (follows : net.Follows careful history)
include follows
section
variable (gone : net.inbox.Perm (envelope :: rest))
include gone

/-- A handled message without an answer. -/
theorem Follows.silent : Follows careful history { net with inbox := rest ++ sends node [] } :=
  (follows.lose gone).send nofun nofun

/-- A handled message with one answer. -/
theorem Follows.reply {dest : NodeId} {reply : RaftMessage}
    (genuine : Envelope.Genuine careful net.size history ⟨node, dest, reply⟩)
    (plain : reply.Plain) :
    Follows careful history { net with inbox := rest ++ sends node [(dest, reply)] } :=
  (follows.lose gone).send (forall_mem_singleton.mpr genuine) (forall_mem_singleton.mpr plain)

/-- A message to a server is true and comes from another one. -/
theorem Follows.arrives : envelope.Genuine careful net.size history :=
  follows.genuine envelope (gone.mem_iff.mpr mem_cons_self)

theorem Follows.adopts (term : Nat) :
    (net.served node ((net.nodes node).becomeFollower term, []) rest).Advances careful history :=
  (follows.becomeFollower node term).andThen rfl fun _ adopted =>
    (adopted.silent gone).advances

/-- A refusal is plain and true. -/
theorem Follows.refuse {dest : NodeId} {reply : RaftMessage}
    (routed : Envelope.Routed net.size ⟨node, dest, reply⟩)
    (refusal : reply = .requestVoteReply (net.nodes node).currentTerm false ∨
      ∃ index, reply = .appendEntriesReply (net.nodes node).currentTerm false index) :
    (net.served node (net.nodes node, [(dest, reply)]) rest).Advances careful history := by
  rw [served_back]
  rcases refusal with rfl | ⟨index, rfl⟩
  · exact (follows.reply gone ⟨routed, nofun⟩ rfl).advances
  · exact (follows.reply gone ⟨routed, nofun⟩ trivial).advances

end

/-- A server in the term of a request votes or refuses. -/
theorem Follows.castVote {cand lastLogIndex lastLogTerm : Nat}
    (level : (net.nodes node).currentTerm = term) (gone : net.inbox.Perm
      (⟨sender, node, .requestVote term cand lastLogIndex lastLogTerm⟩ :: rest)) :
    (net.served node ((net.nodes node).castVote cand lastLogIndex lastLogTerm) rest).Advances
      careful history := by
  obtain ⟨⟨known, member, apart⟩, rfl, first, reached, index, last⟩ := follows.arrives gone
  have now := follows.servers node
  unfold Server.castVote
  by_cases votes : (((net.nodes node).votedFor = none ∨
      (net.nodes node).votedFor = some cand) ∧
      ((net.nodes node).lastLogTerm < lastLogTerm ∨
        lastLogTerm = (net.nodes node).lastLogTerm ∧
        (net.nodes node).lastLogIndex ≤ lastLogIndex))
  · simp only [votes, and_self, ↓reduceIte]
    have asked := follows.requests cand term node
    have one : net.inbox.countP (Envelope.isRequest cand term node) =
        rest.countP (Envelope.isRequest cand term node) + 1 := by
      rw [gone.countP_eq, countP_cons]
      simp [Envelope.isRequest]
    have unvoted : history.vote node term ≠ some cand := by
      intro cast
      rw [if_pos cast] at asked
      omega
    rw [if_neg unvoted] at asked
    have free : (net.nodes node).votedFor = none := by
      cases votes.1 with
      | inl none => exact none
      | inr voted =>
        rw [← now.vote, level] at voted
        exact absurd voted unvoted
    have lastIndex : (net.nodes node).lastLogIndex = (net.nodes node).log.length :=
      now.indexed.lastIndexOf
    have upToDate : Ballots.UpToDate LogEntry.term (history.standing cand term)
        (net.nodes node).log := by
      have check := votes.2
      rw [lastIndex, index, last] at check
      exact check
    have unasked : rest.countP (Envelope.isRequest cand term node) = 0 := by omega
    rw [← level] at unasked first reached upToDate
    exact (follows.lose gone).grant member known apart.symm free unasked first reached upToDate rfl
  · simp only [votes, ↓reduceIte]
    exact follows.refuse gone ⟨member, known, apart.symm⟩ (Or.inl rfl)

theorem Follows.handleRequestVote {cand lastLogIndex lastLogTerm : Nat} (gone : net.inbox.Perm
      (⟨sender, node, .requestVote term cand lastLogIndex lastLogTerm⟩ :: rest)) :
    (net.served node ((net.nodes node).handleRequestVote term cand lastLogIndex lastLogTerm)
      rest).Advances careful history := by
  unfold Server.handleRequestVote
  by_cases stale : term < (net.nodes node).currentTerm
  · rw [if_pos stale]
    obtain ⟨⟨known, member, apart⟩, rfl, -⟩ := follows.arrives gone
    exact follows.refuse gone ⟨member, known, apart.symm⟩ (Or.inl rfl)
  · rw [if_neg stale]
    refine (follows.becomeFollower node term).andThen rfl fun next adopted => ?_
    have level : ((net.put node ((net.nodes node).becomeFollower term)
        net.inbox).nodes node).currentTerm = term := by
      rw [put_nodes]
      exact Server.becomeFollower_currentTerm stale
    have cast := adopted.castVote level gone
    rwa [put_nodes, served_put] at cast

theorem Follows.heartbeats (member : node < net.size) (leading : (net.nodes node).role = .leader) :
    Follows careful history { net with
      inbox := net.inbox ++ sends node (net.nodes node).heartbeats } := by
  have now := follows.servers node
  refine follows.send (fun msg isOut => ?_) (fun msg isOut => ?_)
  · obtain ⟨peer, mem, rfl⟩ := mem_map.mp isOut
    have other := Server.mem_peers.mp mem
    rw [now.cluster, now.self] at other
    exact ⟨⟨member, other.1, other.2.symm⟩, now.holds_append follows.safe leading other.1 other.2⟩
  · obtain ⟨peer, mem, rfl⟩ := mem_map.mp isOut
    trivial

theorem Follows.countVote (stood : (net.nodes node).role = .candidate)
    (gone : net.inbox.Perm
      (⟨sender, node, .requestVoteReply (net.nodes node).currentTerm true⟩ :: rest)) :
    (net.put node { net.nodes node with
      votesReceived := (net.nodes node).votesReceived + 1 } rest).Follows careful history := by
  have now := follows.servers node
  have counted := follows.counted node stood
  have one : net.inbox.countP (Envelope.isGrant (net.nodes node).currentTerm node) =
      rest.countP (Envelope.isGrant (net.nodes node).currentTerm node) + 1 := by
    rw [gone.countP_eq, countP_cons]
    simp [Envelope.isGrant]
  refine (follows.lose gone).replace ?_ fun _ => ?_
  · exact { now with self := now.self }
  · dsimp only
    omega

end

variable {server : Server}
section
variable (follows : (net.put node server rest).Follows careful history)
include follows

theorem Follows.put_winElection
    (stood : server.role = .candidate) (enough : server.quorum ≤ server.votesReceived) :
    (net.put node server.winElection rest).Advances careful history := by
  have same := net.put_nodes node server rest
  have wins := follows.winElection (same.symm ▸ stood) (same.symm ▸ enough)
  rwa [same, put_put] at wins

theorem Follows.put_heartbeats (member : node < net.size) (leading : server.role = .leader) :
    (net.put node server (rest ++ sends node server.heartbeats)).Follows careful
      history := by
  have same := net.put_nodes node server rest
  have sent := follows.heartbeats member (same.symm ▸ leading)
  rwa [same] at sent

theorem Follows.put_recognize : (net.put node server.recognize rest).Advances careful history := by
  have same := net.put_nodes node server rest
  have now := follows.servers node
  rw [same] at now
  have roles : server.recognize.role = server.role ∨ server.recognize.role = .follower := by
    unfold Server.recognize
    by_cases stood : server.role = .candidate
    · simp [stood]
    · simp [stood]
  have settled : ((net.put node server rest).put node server.recognize
      (net.put node server rest).inbox).Advances careful history := by
    refine follows.settle ?_ ?_ (fun leading => ?_)
    · rw [same]
      rfl
    · rw [same]
      exact roles
    · cases roles with
      | inl kept => exact now.next (kept.symm.trans leading)
      | inr gave =>
        rw [gave] at leading
        cases leading
  rwa [put_put] at settled

end

theorem Follows.handleRequestVoteReply (follows : net.Follows careful history) {granted : Bool}
    (gone : net.inbox.Perm (⟨sender, node, .requestVoteReply term granted⟩ :: rest)) :
    (net.served node ((net.nodes node).handleRequestVoteReply term granted) rest).Advances careful
      history := by
  obtain ⟨⟨-, member, -⟩, -⟩ := follows.arrives gone
  unfold Server.handleRequestVoteReply
  by_cases other : (net.nodes node).role ≠ .candidate
  · rw [if_pos other]
    exact follows.adopts gone term
  · rw [if_neg other]
    by_cases later : (net.nodes node).currentTerm < term
    · rw [if_pos later]
      exact follows.adopts gone term
    · rw [if_neg later]
      by_cases counts : term = (net.nodes node).currentTerm ∧ granted = true
      · rw [if_pos counts]
        obtain ⟨rfl, rfl⟩ := counts
        have stood := not_not.mp other
        have counted := follows.countVote stood gone
        by_cases enough : ({ net.nodes node with
            votesReceived := (net.nodes node).votesReceived + 1 } : Server).quorum ≤
            (net.nodes node).votesReceived + 1
        · simp only [enough, ↓reduceIte]
          have wins := counted.put_winElection stood enough
          refine wins.andThen rfl fun next won => ?_
          exact (won.put_heartbeats member rfl).advances
        · simp only [enough, ↓reduceIte]
          rw [served_silent]
          exact counted.advances
      · rw [if_neg counts, served_back]
        exact (follows.silent gone).advances

theorem Follows.takeBatch (follows : net.Follows careful history)
    {prevLogIndex prevLogTerm leaderCommit : Nat} {leader : NodeId} {entries : List LogEntry}
    (level : (net.nodes node).currentTerm = term) (settled : (net.nodes node).role ≠ .candidate)
    (gone : net.inbox.Perm (⟨sender, node, .appendEntries term leader prevLogIndex prevLogTerm
      entries leaderCommit⟩ :: rest))
    (reports : careful → Server.consistent (net.nodes node).log prevLogIndex prevLogTerm = true →
      BatchCovers (net.nodes node).log term prevLogIndex entries) :
    (net.served node
      ((net.nodes node).takeBatch leader prevLogIndex prevLogTerm entries leaderCommit)
      rest).Advances careful history := by
  obtain ⟨⟨known, member, apart⟩, rfl, won, full, count, batch⟩ := follows.arrives gone
  have now := follows.servers node
  unfold Server.takeBatch
  by_cases ok : Server.consistent (net.nodes node).log prevLogIndex prevLogTerm = true
  · simp only [ok, ↓reduceIte]
    have recorded : history.Recorded LogEntry.term (net.nodes node).log :=
      now.log ▸ follows.safe.logs node
    have indexed : Indexed (entries.foldl Server.takeEntry (net.nodes node).log) := by
      cases batch.taken follows.safe follows.records recorded now.indexed ok with
      | inl kept => exact kept.2.symm ▸ now.indexed
      | inr cut => exact cut.2.symm ▸ (follows.records term).of_initial batch.begins
    rw [indexed.lastIndexOf]
    obtain ⟨next, grows, retains, accepted, confirmed⟩ := follows.accept level won apart batch ok
      settled rfl (fun cares => reports cares ok)
    refine ⟨next, grows, retains, accepted.reply gone ⟨⟨member, known, apart.symm⟩, ?_⟩ trivial⟩
    rw [level]
    exact fun cares _ => confirmed cares
  · simp only [ok, Bool.false_eq_true, ↓reduceIte]
    exact follows.refuse gone ⟨member, known, apart.symm⟩ (Or.inr ⟨_, rfl⟩)

section
variable (follows : net.Follows careful history)
include follows

theorem Follows.handleAppendEntries {prevLogIndex prevLogTerm leaderCommit : Nat} {leader : NodeId}
    {entries : List LogEntry}
    (gone : net.inbox.Perm (⟨sender, node, .appendEntries term leader prevLogIndex prevLogTerm
      entries leaderCommit⟩ :: rest)) (reports : careful → (net.nodes node).ReportsMatch
      (.appendEntries term leader prevLogIndex prevLogTerm entries leaderCommit)) :
    (net.served node ((net.nodes node).handleAppendEntries term leader prevLogIndex prevLogTerm
      entries leaderCommit) rest).Advances careful history := by
  unfold Server.handleAppendEntries
  by_cases stale : term < (net.nodes node).currentTerm
  · rw [if_pos stale]
    obtain ⟨⟨known, member, apart⟩, rfl, -⟩ := follows.arrives gone
    exact follows.refuse gone ⟨member, known, apart.symm⟩ (Or.inr ⟨_, rfl⟩)
  · rw [if_neg stale]
    refine (follows.becomeFollower node term).andThen rfl fun next adopted => ?_
    have now := adopted.servers node
    rw [put_nodes] at now
    have level := Server.becomeFollower_currentTerm stale
    have held : ((net.nodes node).becomeFollower term).log = (net.nodes node).log := by
      unfold Server.becomeFollower
      split_ifs <;> rfl
    generalize (net.nodes node).becomeFollower term = server at adopted now level held ⊢
    have recognized := adopted.put_recognize
    refine recognized.andThen rfl fun later settled => ?_
    have role : server.recognize.role ≠ .candidate := by
      unfold Server.recognize
      by_cases stood : server.role = .candidate
      · simp [stood]
      · simp [stood]
    have taken := settled.takeBatch (by rw [put_nodes]; exact level)
      (by rw [put_nodes]; exact role) gone (fun cares ok => ?_)
    · rwa [put_nodes, served_put] at taken
    · rw [put_nodes] at ok ⊢
      change BatchCovers server.log _ _ _
      rw [held]
      exact reports cares (not_lt.mp stale) (held ▸ ok)

theorem Follows.handleAppendEntriesReply {matchIndex : Nat} {success : Bool}
    (gone : net.inbox.Perm (⟨sender, node, .appendEntriesReply term success matchIndex⟩ :: rest)) :
    (net.served node ((net.nodes node).handleAppendEntriesReply sender term success matchIndex)
      rest).Advances careful history := by
  obtain ⟨⟨known, member, apart⟩, confirmed⟩ := follows.arrives gone
  have now := follows.servers node
  unfold Server.handleAppendEntriesReply
  by_cases other : (net.nodes node).role ≠ .leader
  · rw [if_pos other]
    exact follows.adopts gone term
  · rw [if_neg other]
    have leading := not_not.mp other
    have settled : (net.nodes node).role ≠ .candidate := by
      rw [leading]
      decide
    by_cases later : (net.nodes node).currentTerm < term
    · rw [if_pos later]
      exact follows.adopts gone term
    · rw [if_neg later]
      by_cases stale : term < (net.nodes node).currentTerm
      · rw [if_pos stale, served_back]
        exact (follows.silent gone).advances
      · rw [if_neg stale]
        have level : term = (net.nodes node).currentTerm := by omega
        by_cases yes : success = true
        · rw [if_pos yes]
          have noted := now.noteMatch known apart (fun cares => level ▸ confirmed cares yes)
          have advanced := noted.advanceCommit follows.safe leading member
          exact ((follows.replace advanced fun stood => absurd stood settled).silent gone).advances
        · rw [if_neg yes]
          have backed : Server.Follows careful net.size history node
              { net.nodes node with
                nextIndex := Assoc.insert sender
                  (max ((Assoc.find sender (net.nodes node).nextIndex).getD 1) 1 - 1)
                  (net.nodes node).nextIndex } := { now with
            next := fun _ peer below differs => by
              have next := now.next leading peer below differs
              unfold Server.nextFor at next ⊢
              rw [Assoc.find_insert]
              by_cases same : peer = sender
              · subst same
                rw [if_pos rfl, Option.getD_some]
                dsimp only
                omega
              · rw [if_neg same]
                exact next }
          exact ((follows.replace backed fun stood => absurd stood settled).reply gone
            ⟨⟨member, known, apart.symm⟩, backed.holds_append follows.safe leading known apart⟩
            trivial).advances

theorem Follows.waits (same : server = { net.nodes node with
      electionTimeoutIn := server.electionTimeoutIn
      heartbeatDueIn := server.heartbeatDueIn }) :
    (net.put node server net.inbox).Advances careful history := by
  have now := follows.servers node
  rw [same]
  exact follows.settle rfl (Or.inl rfl) now.next

section
variable (member : node < net.size)
include member

/-- A server that is not a leader waits, or stands and may win. -/
theorem Follows.tickElection (elapsed : Nat) :
    (net.served node ((net.nodes node).tickElection elapsed) net.inbox).Advances careful
      history := by
  unfold Server.tickElection
  by_cases due : (net.nodes node).electionTimeoutIn - elapsed = 0
  · simp only [due, ↓reduceIte]
    refine (follows.stand member).andThen rfl fun next stood => ?_
    by_cases enough : (net.nodes node).standForElection.quorum ≤
        (net.nodes node).standForElection.votesReceived
    · simp only [enough, ↓reduceIte]
      exact stood.put_winElection rfl enough
    · simp only [enough, ↓reduceIte]
      exact stood.advances
  · simp only [due, ↓reduceIte]
    rw [served_silent]
    exact follows.waits rfl

theorem Follows.tickLeader (leading : (net.nodes node).role = .leader) (elapsed : Nat) :
    (net.served node ((net.nodes node).tickLeader elapsed) net.inbox).Advances careful
      history := by
  unfold Server.tickLeader
  by_cases due : (net.nodes node).heartbeatDueIn - elapsed = 0
  · simp only [due, ↓reduceIte]
    have armed : (net.put node { net.nodes node with heartbeatDueIn := 50 }
        net.inbox).Advances careful history := follows.waits rfl
    refine armed.andThen rfl fun next waits => ?_
    exact (waits.put_heartbeats member leading).advances
  · simp only [due, ↓reduceIte]
    rw [served_silent]
    exact follows.waits rfl

theorem Follows.tick (elapsed : Nat) :
    (net.served node ((net.nodes node).tick elapsed) net.inbox).Advances careful history := by
  unfold Server.tick
  cases role : (net.nodes node).role with
  | leader => exact follows.tickLeader member role elapsed
  | candidate => exact follows.tickElection member elapsed
  | follower => exact follows.tickElection member elapsed

theorem Follows.propose (leading : (net.nodes node).role = .leader) (command : List UInt8) :
    (net.put node { (net.nodes node).appendLocal command with heartbeatDueIn := 0 }
      net.inbox).Advances careful history := by
  have last : (net.nodes node).lastLogIndex = (net.nodes node).log.length :=
    (follows.servers node).indexed.lastIndexOf
  let entry : LogEntry :=
    ⟨(net.nodes node).currentTerm, (net.nodes node).lastLogIndex + 1, command⟩
  have index : entry.index = (net.nodes node).log.length + 1 := congrArg (· + 1) last
  have term : entry.term = (net.nodes node).currentTerm := rfl
  refine (follows.append leading term index).andThen rfl fun next longer => ?_
  have now := longer.servers node
  rw [put_nodes] at now
  have advanced := now.advanceCommit longer.safe leading member
  have settled : (net.nodes node).role ≠ .candidate := by
    rw [leading]
    decide
  have replaced := longer.replace advanced fun stood => absurd stood settled
  rw [put_put] at replaced
  have waits : ((net.put node ((net.nodes node).appendLocal command) net.inbox).put node
      { (net.nodes node).appendLocal command with heartbeatDueIn := 0 }
      net.inbox).Advances careful next := by
    refine replaced.waits ?_
    rw [put_nodes]
    rfl
  rwa [put_put] at waits

end

theorem Follows.handle {msg : RaftMessage} (gone : net.inbox.Perm (⟨sender, node, msg⟩ :: rest))
    (reports : careful → (net.nodes node).ReportsMatch msg) :
    (net.served node ((net.nodes node).handle sender msg) rest).Advances careful history := by
  cases msg with
  | requestVote => exact follows.handleRequestVote gone
  | requestVoteReply => exact follows.handleRequestVoteReply gone
  | appendEntries => exact follows.handleAppendEntries gone reports
  | appendEntriesReply => exact follows.handleAppendEntriesReply gone

/-- Every step of the cluster continues the history. -/
theorem follows_step {event : Event} {after : Network}
    (reports : careful → net.ReportsMatch event) (taken : net.step event = some after) :
    after.Advances careful history := by
  obtain ⟨node, elapsed, rfl, member, rfl⟩ | ⟨spot, envelope, rfl, found, rfl⟩ |
    ⟨spot, rfl, mem, rfl⟩ | ⟨node, command, rfl, member, leading, rfl⟩ :=
    step_cases taken
  · exact follows.tick member elapsed
  · obtain ⟨mem, here⟩ := List.getElem?_eq_some_iff.mp found
    have gone : net.inbox.Perm (envelope :: net.inbox.eraseIdx spot) := by
      rw [← here]
      exact (getElem_cons_eraseIdx_perm mem).symm
    have covered : careful → (net.nodes envelope.dest).ReportsMatch envelope.message := by
      intro cares
      have reported := reports cares
      simpa only [ReportsMatch, found] using reported
    exact follows.handle gone covered
  · exact (follows.lose (getElem_cons_eraseIdx_perm mem).symm).advances
  · exact follows.propose member leading command

end
end Network
end LionFS.Cluster.Raft
