import LionFS.Data.Assoc
import Mathlib.Algebra.Group.Nat.Defs

/-!
# One Raft server

`Server` of the metadata plane with its log, its timers and its view of the
peers. `tick` lets logical time pass, `handle` takes one message and `appendLocal`
one client command; each returns the server afterwards and the messages it sends.
Terms and log indices are natural numbers; the one subtraction that a `u64` cannot
always take, `next - 1`, wraps as in a release build.
-/
namespace LionFS.Cluster.Raft
open Assoc

/-- Position of a server in the cluster. -/
abbrev NodeId := Nat

/-- One replicated log entry with an opaque command. -/
structure LogEntry where
  /-- Term of the leader that took the command. -/
  term : Nat
  /-- Position in the log, from one. -/
  index : Nat
  /-- Bytes of the command. -/
  command : List UInt8
  deriving DecidableEq, Repr

/-- `RaftMessage`. -/
inductive RaftMessage
  /-- A candidate asks for a vote and describes the end of its log. -/
  | requestVote (term : Nat) (candidate : NodeId) (lastLogIndex lastLogTerm : Nat)
  /-- The answer to a request for a vote. -/
  | requestVoteReply (term : Nat) (voteGranted : Bool)
  /-- A leader sends the end of its log, or a heartbeat. -/
  | appendEntries (term : Nat) (leader : NodeId) (prevLogIndex prevLogTerm : Nat)
      (entries : List LogEntry) (leaderCommit : Nat)
  /-- The answer to a leader. -/
  | appendEntriesReply (term : Nat) (success : Bool) (matchIndex : Nat)
  deriving DecidableEq, Repr

/-- `Role`. -/
inductive Role
  /-- Follows the leader it knows of. -/
  | follower
  /-- Asks for votes. -/
  | candidate
  /-- Takes commands and replicates its log. -/
  | leader
  deriving DecidableEq, Repr

/-- `Server`, with the maps over peers as ordered bindings. -/
structure Server where
  /-- Own position. -/
  selfId : NodeId
  /-- Current role. -/
  role : Role
  /-- Latest term seen. -/
  currentTerm : Nat
  /-- Candidate voted for in the current term. -/
  votedFor : Option NodeId
  /-- Votes counted in the current candidacy. -/
  votesReceived : Nat
  /-- Replicated log. -/
  log : List LogEntry
  /-- Greatest index known to be committed. -/
  commitIndex : Nat
  /-- Index of the next entry to send to each peer. -/
  nextIndex : List (NodeId × Nat)
  /-- Index up to which each peer is known to hold the log. -/
  matchIndex : List (NodeId × Nat)
  /-- Time until the next candidacy. -/
  electionTimeoutIn : Nat
  /-- Value the election timer is armed with. -/
  electionTimeout : Nat
  /-- Time until the next heartbeat. -/
  heartbeatDueIn : Nat
  /-- Number of servers. -/
  clusterSize : Nat
  /-- State of the generator of timeouts. -/
  rngState : UInt64
  deriving DecidableEq, Repr

/-- A message with its destination. -/
abbrev Outgoing := NodeId × RaftMessage

/-- Index of the last entry of a log. -/
def lastIndexOf (log : List LogEntry) : Nat := (log.getLast?.map LogEntry.index).getD 0

/-- Term of the last entry of a log. -/
def lastTermOf (log : List LogEntry) : Nat := (log.getLast?.map LogEntry.term).getD 0

/-- The first entry of a log with an index. -/
def entryAt (log : List LogEntry) (index : Nat) : Option LogEntry :=
  log.find? fun entry => entry.index == index

/-- `next - 1` on `u64`, which wraps at zero. -/
def indexBefore (next : Nat) : Nat := if next = 0 then 2 ^ 64 - 1 else next - 1

namespace Server
variable (server : Server)

/-- The other servers of the cluster. -/
def peers : List NodeId :=
  (List.range server.clusterSize).filter fun peer => peer ≠ server.selfId

/-- `Server::new`. -/
def new (id : NodeId) (clusterSize : Nat) : Server :=
  let others := (List.range clusterSize).filter fun peer => peer ≠ id
  { selfId := id
    role := .follower
    currentTerm := 0
    votedFor := none
    votesReceived := 0
    log := []
    commitIndex := 0
    nextIndex := others.foldl (fun table peer => insert peer 1 table) []
    matchIndex := others.foldl (fun table peer => insert peer 0 table) []
    electionTimeoutIn := 150 + (id * 37) % 50
    electionTimeout := 150 + (id * 37) % 50
    heartbeatDueIn := 0
    clusterSize := clusterSize
    rngState := (UInt64.ofNat id * 6364136223846793005 + 1442695040888963407) ||| 1 }

/-- `quorum`. -/
def quorum : Nat := server.clusterSize / 2 + 1

/-- `last_log_index`. -/
def lastLogIndex : Nat := lastIndexOf server.log

/-- `last_log_term`. -/
def lastLogTerm : Nat := lastTermOf server.log

/-- `next_rand`: the generator after one step, which is also the number drawn. -/
def nextRand (state : UInt64) : UInt64 :=
  let first := state ^^^ (state <<< 13)
  let second := first ^^^ (first >>> 7)
  second ^^^ (second <<< 17)

/-- `next_index` of a peer as `build_append_for` reads it. -/
def nextFor (peer : NodeId) : Nat :=
  (find peer server.nextIndex).getD 1

/-- `build_append_for`. -/
def buildAppendFor (peer : NodeId) : RaftMessage :=
  let next := server.nextFor peer
  let prevIndex := indexBefore next
  let prevTerm := ((entryAt server.log prevIndex).map LogEntry.term).getD 0
  let entries := server.log.filter fun entry => next ≤ entry.index
  .appendEntries server.currentTerm server.selfId prevIndex prevTerm entries server.commitIndex

/-- One append for every peer. -/
def heartbeats : List Outgoing :=
  server.peers.map fun peer => (peer, server.buildAppendFor peer)

/-- `become_follower`: adopt a higher term. -/
def becomeFollower (term : Nat) : Server :=
  if server.currentTerm < term then
    { server with
      currentTerm := term
      votedFor := none
      role := .follower
      votesReceived := 0
      electionTimeoutIn := server.electionTimeout }
  else server

/-- What a candidate does on reaching the quorum. -/
def winElection : Server :=
  let last := server.lastLogIndex
  { server with
    role := .leader
    heartbeatDueIn := 0
    nextIndex := server.peers.foldl (fun table peer => insert peer (last + 1) table)
      server.nextIndex
    matchIndex := server.peers.foldl (fun table peer => insert peer 0 table)
      server.matchIndex }

/-- The candidacy that an election timeout starts. -/
def standForElection : Server :=
  let drawn := nextRand server.rngState
  let timeout := 150 + (drawn % 75).toNat
  { server with
    role := .candidate
    currentTerm := server.currentTerm + 1
    votedFor := some server.selfId
    votesReceived := 1
    rngState := drawn
    electionTimeout := timeout
    electionTimeoutIn := timeout }

/-- The requests of a candidate. -/
def voteRequests : List Outgoing :=
  server.peers.map fun peer => (peer, .requestVote server.currentTerm server.selfId
    server.lastLogIndex server.lastLogTerm)

/-- `tick` of a leader. -/
def tickLeader (elapsed : Nat) : Server × List Outgoing :=
  let due := server.heartbeatDueIn - elapsed
  if due = 0 then
    let armed := { server with heartbeatDueIn := 50 }
    (armed, armed.heartbeats)
  else ({ server with heartbeatDueIn := due }, [])

/-- `tick` of a follower or a candidate. -/
def tickElection (elapsed : Nat) : Server × List Outgoing :=
  let left := server.electionTimeoutIn - elapsed
  if left = 0 then
    let standing := server.standForElection
    let out := standing.voteRequests
    if standing.quorum ≤ standing.votesReceived then (standing.winElection, out)
    else (standing, out)
  else ({ server with electionTimeoutIn := left }, [])

/-- `tick`. -/
def tick (elapsed : Nat) : Server × List Outgoing :=
  match server.role with
  | .leader => server.tickLeader elapsed
  | _ => server.tickElection elapsed

/-- A server in the term of a request votes or refuses. -/
def castVote (candidate : NodeId) (lastLogIndex lastLogTerm : Nat) : Server × List Outgoing :=
  let upToDate := server.lastLogTerm < lastLogTerm ∨
    lastLogTerm = server.lastLogTerm ∧ server.lastLogIndex ≤ lastLogIndex
  let canVote := server.votedFor = none ∨ server.votedFor = some candidate
  if canVote ∧ upToDate then
    ({ server with
      votedFor := some candidate
      electionTimeoutIn := server.electionTimeout },
      [(candidate, .requestVoteReply server.currentTerm true)])
  else (server, [(candidate, .requestVoteReply server.currentTerm false)])

/-- `handle` on a request for a vote. -/
def handleRequestVote (term : Nat) (candidate : NodeId) (lastLogIndex lastLogTerm : Nat) :
    Server × List Outgoing :=
  if term < server.currentTerm then
    (server, [(candidate, .requestVoteReply server.currentTerm false)])
  else (server.becomeFollower term).castVote candidate lastLogIndex lastLogTerm

/-- `handle` on the answer of a voter. -/
def handleRequestVoteReply (term : Nat) (voteGranted : Bool) : Server × List Outgoing :=
  if server.role ≠ .candidate then (server.becomeFollower term, [])
  else if server.currentTerm < term then (server.becomeFollower term, [])
  else if term = server.currentTerm ∧ voteGranted then
    let counted := { server with votesReceived := server.votesReceived + 1 }
    if counted.quorum ≤ counted.votesReceived then
      let won := counted.winElection
      (won, won.heartbeats)
    else (counted, [])
  else (server, [])

/-- A follower takes one entry: it skips an entry it holds, cuts its log at a conflicting one,
appends the next one and ignores a gap. -/
def takeEntry (log : List LogEntry) (entry : LogEntry) : List LogEntry :=
  match log.findIdx? fun held => held.index == entry.index with
  | some position =>
    if (log[position]?.map LogEntry.term) = some entry.term then log
    else log.take position ++ [entry]
  | none => if entry.index = lastIndexOf log + 1 then log ++ [entry] else log

/-- Whether a log holds the entry before a batch. -/
def consistent (log : List LogEntry) (prevLogIndex prevLogTerm : Nat) : Bool :=
  prevLogIndex == 0 ||
    match entryAt log prevLogIndex with
    | some entry => entry.term == prevLogTerm
    | none => false

/-- A server in the term of a batch recognises the leader. -/
def recognize : Server :=
  { server with
    role := if server.role = .candidate then .follower else server.role
    electionTimeoutIn := server.electionTimeout }

/-- A server that has recognised the leader takes a batch or refuses it. -/
def takeBatch (leader : NodeId) (prevLogIndex prevLogTerm : Nat) (entries : List LogEntry)
    (leaderCommit : Nat) : Server × List Outgoing :=
  if consistent server.log prevLogIndex prevLogTerm then
    let log := entries.foldl takeEntry server.log
    ({ server with
      log := log
      commitIndex := if server.commitIndex < leaderCommit then min leaderCommit (lastIndexOf log)
        else server.commitIndex },
      [(leader, .appendEntriesReply server.currentTerm true (lastIndexOf log))])
  else (server, [(leader, .appendEntriesReply server.currentTerm false server.lastLogIndex)])

/-- `handle` on a batch of entries. -/
def handleAppendEntries (term : Nat) (leader : NodeId) (prevLogIndex prevLogTerm : Nat)
    (entries : List LogEntry) (leaderCommit : Nat) : Server × List Outgoing :=
  if term < server.currentTerm then
    (server, [(leader, .appendEntriesReply server.currentTerm false server.lastLogIndex)])
  else (server.becomeFollower term).recognize.takeBatch leader prevLogIndex prevLogTerm entries
    leaderCommit

/-- Copies of an entry that a leader counts: its own and those of the matching peers. -/
def replicas (index : Nat) : Nat :=
  1 + (server.matchIndex.filter fun binding => index ≤ binding.2).length

/-- The commit index after one index is looked at. -/
def commitStep (committed index : Nat) : Nat :=
  if ((entryAt server.log index).map LogEntry.term).getD 0 ≠ server.currentTerm then committed
  else if server.quorum ≤ server.replicas index then index
  else committed

/-- `advance_commit`: entries of the current term with a quorum of copies are committed. -/
def advanceCommit : Server :=
  { server with
    commitIndex :=
      (List.range' (server.commitIndex + 1) (server.lastLogIndex - server.commitIndex)).foldl
        server.commitStep server.commitIndex }

/-- `handle` on the answer of a follower. -/
def handleAppendEntriesReply (sender : NodeId) (term : Nat) (success : Bool) (matchIndex : Nat) :
    Server × List Outgoing :=
  if server.role ≠ .leader then (server.becomeFollower term, [])
  else if server.currentTerm < term then (server.becomeFollower term, [])
  else if term < server.currentTerm then (server, [])
  else if success then
    let known := (find sender server.matchIndex).getD 0
    let matched : Server := { server with
      matchIndex := insert sender (max known matchIndex) server.matchIndex }
    (matched.advanceCommit, [])
  else
    let next := (find sender server.nextIndex).getD 1
    let backed := { server with
      nextIndex := insert sender (max next 1 - 1) server.nextIndex }
    (backed, [(sender, backed.buildAppendFor sender)])

/-- `handle`. -/
def handle (sender : NodeId) : RaftMessage → Server × List Outgoing
  | .requestVote term candidate lastLogIndex lastLogTerm =>
    server.handleRequestVote term candidate lastLogIndex lastLogTerm
  | .requestVoteReply term voteGranted => server.handleRequestVoteReply term voteGranted
  | .appendEntries term leader prevLogIndex prevLogTerm entries leaderCommit =>
    server.handleAppendEntries term leader prevLogIndex prevLogTerm entries leaderCommit
  | .appendEntriesReply term success matchIndex =>
    server.handleAppendEntriesReply sender term success matchIndex

/-- `append_local`: a leader takes a command. -/
def appendLocal (command : List UInt8) : Server :=
  let appended : Server := { server with
    log := server.log ++ [⟨server.currentTerm, server.lastLogIndex + 1, command⟩] }
  appended.advanceCommit

end Server
end LionFS.Cluster.Raft
