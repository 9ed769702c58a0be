import LionFS.Cluster.Raft.Log
import LionFS.Cluster.Raft.Network
import LionFS.Data.Elections

/-!
# The cluster follows a history of elections

A state of the cluster is explained by a history: every server's term, vote and
log are the history's, and every message under way states something that is true of
it. Requests and granted votes under way are counted, since a candidate counts
answers and not voters. The facts about confirmed and committed entries are only
kept where followers report carefully (`careful`); the others always are.
-/
namespace LionFS.Cluster.Raft
open List

/-- A history of elections over logs of this cluster. -/
abbrev History := Ballots LogEntry

/-- A message is a candidate's request to a voter in a term. -/
def Envelope.isRequest (candidate term voter : Nat) (envelope : Envelope) : Bool :=
  envelope.dest == voter &&
    match envelope.message with
    | .requestVote at' from' _ _ => at' == term && from' == candidate
    | _ => false

/-- A message is a vote granted to a candidate in a term. -/
def Envelope.isGrant (term candidate : Nat) (envelope : Envelope) : Bool :=
  envelope.dest == candidate &&
    match envelope.message with
    | .requestVoteReply at' granted => at' == term && granted
    | _ => false

/-- Servers that voted for a candidate in a term. -/
def voters (size : Nat) (history : History) (term candidate : Nat) : Finset Nat :=
  (Finset.range size).filter fun voter => history.vote voter term = some candidate

section
variable (careful : Prop) (size : Nat) (history : History)

/-- A list is committed in a term of the history. -/
abbrev Committed (term : Nat) (list : List LogEntry) : Prop :=
  history.Committed LogEntry.term size term list

/-- What is true of a server. -/
structure Server.Follows (node : NodeId) (server : Server) : Prop where
  self : server.selfId = node
  cluster : server.clusterSize = size
  current : history.current node = server.currentTerm
  log : history.log node = server.log
  vote : history.vote node server.currentTerm = server.votedFor
  indexed : Indexed server.log
  leads : server.role = .leader → history.leader server.currentTerm = some node
  /-- A leader's next entries for its peers are in its log or the one to come. -/
  next : server.role = .leader → ∀ peer, peer < size → peer ≠ node →
    server.nextFor peer ≤ server.log.length + 1
  /-- A candidate has not won and stands with its log. -/
  stands : server.role = .candidate → history.leader server.currentTerm ≠ some node ∧
    history.standing node server.currentTerm = server.log
  peers : Assoc.Ordered server.matchIndex ∧
    ∀ binding ∈ server.matchIndex, binding.1 < size ∧ binding.1 ≠ node
  /-- Peers have confirmed what a leader takes them to hold. -/
  matched : careful → server.role = .leader → ∀ binding ∈ server.matchIndex,
    binding.2 ≤ history.acked binding.1 server.currentTerm
  /-- What a server takes to be committed is in its log. -/
  reach : careful → server.commitIndex ≤ server.log.length
  commit : careful →
    Committed size history server.currentTerm (server.log.take server.commitIndex)

/-- What is true of the end of a leader's log in a message. -/
structure Batch (term prevLogIndex prevLogTerm : Nat) (entries : List LogEntry)
    (leaderCommit : Nat) (full : List LogEntry) (count : Nat) : Prop where
  begins : full <+: history.record term
  ends : entries = full.drop count
  /-- They start at the beginning or after the entry that is named. -/
  place : count = 0 ∨ count = prevLogIndex
  inside : count ≤ full.length
  named : prevLogTerm = ((entryAt full prevLogIndex).map LogEntry.term).getD 0
  /-- What the leader took to be committed is in its log. -/
  reach : careful → leaderCommit ≤ full.length
  commit : careful → Committed size history term (full.take leaderCommit)

/-- What is true of a message under way. -/
def Envelope.Holds (envelope : Envelope) : Prop :=
  match envelope.message with
  | .requestVote term candidate lastLogIndex lastLogTerm =>
    candidate = envelope.sender ∧ 0 < term ∧ term ≤ history.current candidate ∧
      lastLogIndex = (history.standing candidate term).length ∧
      lastLogTerm = Ballots.lastTerm LogEntry.term (history.standing candidate term)
  | .requestVoteReply term granted =>
    granted = true → history.vote envelope.sender term = some envelope.dest
  | .appendEntries term leader prevLogIndex prevLogTerm entries leaderCommit =>
    leader = envelope.sender ∧ history.leader term = some leader ∧
      ∃ full count, Batch careful size history term prevLogIndex prevLogTerm entries leaderCommit
        full count
  | .appendEntriesReply term success matchIndex =>
    careful → success = true → matchIndex ≤ history.acked envelope.sender term

/-- A message is between two servers of the cluster. -/
def Envelope.Routed (envelope : Envelope) : Prop :=
  envelope.sender < size ∧ envelope.dest < size ∧ envelope.sender ≠ envelope.dest

/-- A message is true and between two servers of the cluster. -/
def Envelope.Genuine (envelope : Envelope) : Prop :=
  envelope.Routed size ∧ envelope.Holds careful size history

/-- A candidate has at least as many voters as it has counted and will count. -/
def Server.Tallied (inbox : List Envelope) (node : NodeId) (server : Server) : Prop :=
  server.role = .candidate →
    server.votesReceived + inbox.countP (Envelope.isGrant server.currentTerm node) ≤
      (voters size history server.currentTerm node).card

end

/-- What is true of the cluster. -/
structure Network.Follows (careful : Prop) (history : History) (net : Network) : Prop where
  safe : history.Safe LogEntry.term net.size
  records : ∀ term, Indexed (history.record term)
  servers : ∀ node, Server.Follows careful net.size history node (net.nodes node)
  routed : ∀ envelope ∈ net.inbox, envelope.Routed net.size
  holds : ∀ envelope ∈ net.inbox, envelope.Holds careful net.size history
  /-- A voter that is asked has not voted for the candidate, and is asked once. -/
  requests : ∀ candidate term voter,
    net.inbox.countP (Envelope.isRequest candidate term voter) ≤
      if history.vote voter term = some candidate then 0 else 1
  /-- A candidate has at least as many voters as it has counted and will count. -/
  counted : ∀ node, (net.nodes node).role = .candidate →
    (net.nodes node).votesReceived +
        net.inbox.countP (Envelope.isGrant (net.nodes node).currentTerm node) ≤
      (voters net.size history (net.nodes node).currentTerm node).card

/-- A move of one member changes nothing of the others. -/
structure Elsewhere (history next : History) (node : NodeId) : Prop where
  current : ∀ other, other ≠ node → next.current other = history.current other
  log : ∀ other, other ≠ node → next.log other = history.log other
  vote : ∀ other, other ≠ node → ∀ term, next.vote other term = history.vote other term
  leader : ∀ other, other ≠ node → ∀ term, next.leader term = some other →
    history.leader term = some other

variable {server : Server} {term : Nat}
section
variable {careful : Prop} {size : Nat} {history next : History}

/-- What is true of a server stays true when another one moves. -/
theorem Server.Follows.elsewhere {node other : NodeId}
    (follows : server.Follows careful size history other) (grows : history.Grows next)
    (elsewhere : Elsewhere history next node) (apart : other ≠ node) :
    server.Follows careful size next other := { follows with
  current := (elsewhere.current other apart).trans follows.current
  log := (elsewhere.log other apart).trans follows.log
  vote := (elsewhere.vote other apart _).trans follows.vote
  leads leading := grows.leader (follows.leads leading)
  stands cand := by
    refine ⟨fun won => (follows.stands cand).1 (elsewhere.leader other apart _ won), ?_⟩
    rw [grows.standing follows.current.ge]
    exact (follows.stands cand).2
  matched cares leading binding mem :=
    (follows.matched cares leading binding mem).trans (grows.acked _ _)
  commit cares := (follows.commit cares).grows grows }

/-- What a message states stays true. -/
theorem Envelope.Holds.grows {envelope : Envelope} (holds : envelope.Holds careful size history)
    (grows : history.Grows next) : envelope.Holds careful size next := by
  obtain ⟨sender, dest, msg⟩ := envelope
  cases msg with
  | requestVote term cand lastLogIndex lastLogTerm =>
    obtain ⟨own, first, reached, index, last⟩ := holds
    refine ⟨own, first, reached.trans (grows.current cand), ?_, ?_⟩
    · rw [grows.standing reached, index]
    · rw [grows.standing reached, last]
  | requestVoteReply term granted => exact fun yes => grows.vote (holds yes)
  | appendEntries term leader prevLogIndex prevLogTerm entries leaderCommit =>
    obtain ⟨own, won, full, count, batch⟩ := holds
    exact ⟨own, grows.leader won, full, count, { batch with
      begins := batch.begins.trans (grows.record term)
      commit := fun cares => (batch.commit cares).grows grows }⟩
  | appendEntriesReply term success matchIndex =>
    exact fun cares yes => (holds cares yes).trans (grows.acked _ _)

/-- Votes only add voters. -/
theorem voters_subset (grows : history.Grows next) (term cand : Nat) :
    voters size history term cand ⊆ voters size next term cand := by
  intro voter mem
  unfold voters at mem ⊢
  rw [Finset.mem_filter] at mem ⊢
  exact ⟨mem.1, grows.vote mem.2⟩

theorem Server.Tallied.grows {inbox more : List Envelope} {node : NodeId}
    (tallied : server.Tallied size history inbox node) (grows : history.Grows next)
    (fewer : more.countP (Envelope.isGrant server.currentTerm node) ≤
      inbox.countP (Envelope.isGrant server.currentTerm node)) :
    server.Tallied size next more node := by
  intro stood
  exact ((Nat.add_le_add_left fewer _).trans (tallied stood)).trans
    (Finset.card_le_card (voters_subset grows _ _))

end

theorem Server.mem_peers {peer : NodeId} :
    peer ∈ server.peers ↔ peer < server.clusterSize ∧ peer ≠ server.selfId := by
  simp [Server.peers]

/-- The initial cluster follows the empty history. -/
theorem follows_new (careful : Prop) (size : Nat) :
    (Network.new size).Follows careful Ballots.start where
  safe := Ballots.safe_start
  records _ := indexed_nil
  servers node := {
    self := rfl
    cluster := rfl
    current := rfl
    log := rfl
    vote := rfl
    indexed := indexed_nil
    leads := nofun
    next := nofun
    stands := nofun
    peers := by
      have empty : Assoc.Ordered ([] : List (NodeId × Nat)) := List.Pairwise.nil
      refine ⟨empty.foldl_insert _ 0, fun binding mem => ?_⟩
      cases Assoc.mem_foldl_insert empty mem with
      | inl new =>
        have peer := mem_filter.mp new.1
        exact ⟨mem_range.mp peer.1, by simpa using peer.2⟩
      | inr old => cases old.1
    matched := nofun
    reach := fun _ => Nat.le_refl _
    commit := fun _ => Or.inl rfl }
  routed _ mem := by cases mem
  holds _ mem := by cases mem
  requests _ _ _ := Nat.zero_le _
  counted _ cand := by cases cand

/-- Members keep what is committed in a term they have reached. -/
def Retains (size : Nat) (history next : History) : Prop :=
  ∀ node term start, Committed size history term start → term ≤ history.current node →
    start <+: history.log node → start <+: next.log node

variable {next : History}

theorem retains_of_log {size : Nat} {history : History} (same : next.log = history.log) :
    Retains size history next := by
  intro node term start _ _ held
  rw [same]
  exact held

/-- A state of the cluster follows some continuation of a history. -/
def Network.Advances (careful : Prop) (history : History) (net : Network) : Prop :=
  ∃ next, history.Grows next ∧ Retains net.size history next ∧ net.Follows careful next

variable {inbox : List Envelope} {out : List Outgoing}
section
variable {careful : Prop} {history : History} {net : Network}

theorem Network.Follows.advances (follows : net.Follows careful history) :
    net.Advances careful history :=
  ⟨history, Ballots.Grows.refl, retains_of_log rfl, follows⟩

theorem Network.Advances.andThen {other : Network} (advances : net.Advances careful history)
    (size : other.size = net.size)
    (goes : ∀ next, net.Follows careful next → other.Advances careful next) :
    other.Advances careful history := by
  obtain ⟨next, grows, retains, follows⟩ := advances
  obtain ⟨last, more, keeps, done⟩ := goes next follows
  refine ⟨last, grows.trans more, ?_, done⟩
  rw [size] at keeps ⊢
  intro node term start committed reached held
  exact keeps node term start (committed.grows grows) (reached.trans (grows.current node))
    (retains node term start committed reached held)

theorem Network.Follows.genuine (follows : net.Follows careful history) :
    ∀ envelope ∈ net.inbox, envelope.Genuine careful net.size history :=
  fun envelope mem => ⟨follows.routed envelope mem, follows.holds envelope mem⟩

/-- The messages under way change: what is new is true, and no more requests and granted votes
are under way. -/
theorem Network.Follows.withInbox (follows : net.Follows careful history)
    (genuine : ∀ envelope ∈ inbox, envelope.Genuine careful net.size history)
    (requests : ∀ cand term voter,
      inbox.countP (Envelope.isRequest cand term voter) ≤
        net.inbox.countP (Envelope.isRequest cand term voter))
    (grants : ∀ term cand, inbox.countP (Envelope.isGrant term cand) ≤
      net.inbox.countP (Envelope.isGrant term cand)) :
    Network.Follows careful history { net with inbox := inbox } := { follows with
  routed := fun envelope mem => (genuine envelope mem).1
  holds := fun envelope mem => (genuine envelope mem).2
  requests cand term voter :=
    (requests cand term voter).trans (follows.requests cand term voter)
  counted node := Server.Tallied.grows (follows.counted node) Ballots.Grows.refl (grants _ _) }

/-- Messages may be lost. -/
theorem Network.Follows.lose (follows : net.Follows careful history) {envelope : Envelope}
    (gone : net.inbox.Perm (envelope :: inbox)) :
    Network.Follows careful history { net with inbox := inbox } := by
  have fewer : ∀ test : Envelope → Bool, inbox.countP test ≤ net.inbox.countP test := by
    intro test
    rw [gone.countP_eq, countP_cons]
    exact Nat.le_add_right _ _
  exact follows.withInbox
    (fun other mem => follows.genuine other (gone.mem_iff.mpr (mem_cons_of_mem _ mem)))
    (fun _ _ _ => fewer _) (fun _ _ => fewer _)

/-- A message is neither a request nor a granted vote. -/
def RaftMessage.Plain : RaftMessage → Prop
  | .requestVote _ _ _ _ => False
  | .requestVoteReply _ granted => granted = false
  | _ => True

theorem RaftMessage.Plain.not_counted {sender dest : NodeId} {msg : RaftMessage}
    (plain : msg.Plain) :
    (∀ cand term voter, Envelope.isRequest cand term voter ⟨sender, dest, msg⟩ = false) ∧
      ∀ term cand, Envelope.isGrant term cand ⟨sender, dest, msg⟩ = false := by
  cases msg with
  | requestVote => exact plain.elim
  | requestVoteReply term granted =>
    have refused : granted = false := plain
    simp [Envelope.isRequest, Envelope.isGrant, refused]
  | _ => simp [Envelope.isRequest, Envelope.isGrant]

variable {node : NodeId}

/-- The old messages and those that a server sends. -/
theorem Network.forall_mem_sends {fact : Envelope → Prop} (old : ∀ envelope ∈ inbox, fact envelope)
    (new : ∀ msg ∈ out, fact ⟨node, msg.1, msg.2⟩) :
    ∀ envelope ∈ inbox ++ sends node out, fact envelope :=
  forall_mem_append.mpr ⟨old, forall_mem_map.mpr new⟩

variable (follows : net.Follows careful history)
include follows

/-- A server sends plain messages that are true. -/
theorem Network.Follows.send
    (genuine : ∀ msg ∈ out, Envelope.Genuine careful net.size history ⟨node, msg.1, msg.2⟩)
    (plain : ∀ msg ∈ out, msg.2.Plain) : Network.Follows careful history
      { net with inbox := net.inbox ++ Network.sends node out } := by
  have none : ∀ test : Envelope → Bool, (∀ msg ∈ out, test ⟨node, msg.1, msg.2⟩ = false) →
      (net.inbox ++ Network.sends node out).countP test ≤ net.inbox.countP test := by
    intro test fails
    have zero : (Network.sends node out).countP test = 0 := by
      rw [countP_eq_zero]
      intro envelope mem
      obtain ⟨msg, isOut, rfl⟩ := mem_map.mp mem
      rw [fails msg isOut]
      exact Bool.false_ne_true
    rw [countP_append, zero]
    exact Nat.le_refl _
  exact follows.withInbox (forall_mem_sends follows.genuine genuine)
    (fun cand term voter => none _ fun msg isOut =>
      (plain msg isOut).not_counted.1 cand term voter)
    (fun term cand => none _ fun msg isOut =>
      (plain msg isOut).not_counted.2 term cand)

theorem Network.Follows.change (grows : history.Grows next)
    (elsewhere : Elsewhere history next node) (safe : next.Safe LogEntry.term net.size)
    (records : ∀ term, Indexed (next.record term))
    (changed : server.Follows careful net.size next node)
    (genuine : ∀ msg ∈ out, Envelope.Genuine careful net.size next ⟨node, msg.1, msg.2⟩)
    (requests : ∀ cand term voter,
      (net.inbox ++ sends node out).countP (Envelope.isRequest cand term voter) ≤
        if next.vote voter term = some cand then 0 else 1)
    (own : server.Tallied net.size next (net.inbox ++ sends node out) node)
    (others : ∀ other, (net.nodes other).Tallied net.size next
      (net.inbox ++ sends node out) other) :
    (net.put node server (net.inbox ++ sends node out)).Follows careful next := by
  have sent := forall_mem_sends (fun envelope old =>
    ⟨follows.routed envelope old, (follows.holds envelope old).grows grows⟩) genuine
  exact {
    safe := safe
    records := records
    servers := forall_put (Server.Follows careful net.size next) changed fun other apart =>
      (follows.servers other).elsewhere grows elsewhere apart
    routed := fun envelope mem => (sent envelope mem).1
    holds := fun envelope mem => (sent envelope mem).2
    requests := requests
    counted := forall_put (Server.Tallied net.size next _) own fun other _ => others other }

theorem Network.Follows.move (grows : history.Grows next) (elsewhere : Elsewhere history next node)
    (votes : next.vote = history.vote) (safe : next.Safe LogEntry.term net.size)
    (records : ∀ term, Indexed (next.record term))
    (moved : server.Follows careful net.size next node)
    (tallied : server.Tallied net.size history net.inbox node) :
    (net.put node server net.inbox).Follows careful next := by
  have nothing : net.inbox ++ sends node [] = net.inbox := append_nil _
  rw [← nothing]
  refine follows.change grows elsewhere safe records moved nofun (fun cand term voter => ?_) ?_
    fun other => ?_
  · rw [nothing, votes]
    exact follows.requests cand term voter
  · rw [nothing]
    exact tallied.grows grows le_rfl
  · rw [nothing]
    exact Server.Tallied.grows (follows.counted other) grows le_rfl

/-- A server changes, and the history does not. -/
theorem Network.Follows.replace (changed : server.Follows careful net.size history node)
    (tallied : server.Tallied net.size history net.inbox node) :
    (net.put node server net.inbox).Follows careful history :=
  follows.move Ballots.Grows.refl
    ⟨fun _ _ => rfl, fun _ _ => rfl, fun _ _ _ => rfl, fun _ _ _ won => won⟩ rfl follows.safe
    follows.records changed tallied

theorem Network.Follows.countP_isRequest_ahead {cand : Nat} (ahead : history.current cand < term)
    (voter : NodeId) : net.inbox.countP (Envelope.isRequest cand term voter) = 0 := by
  rw [countP_eq_zero]
  intro envelope mem asks
  have holds := follows.holds envelope mem
  obtain ⟨sender, dest, msg⟩ := envelope
  cases msg with
  | requestVote at' from' index last =>
    simp only [Envelope.isRequest, Bool.and_eq_true, beq_iff_eq] at asks
    obtain ⟨-, -, reached, -⟩ := holds
    rw [asks.2.1, asks.2.2] at reached
    omega
  | _ => simp [Envelope.isRequest] at asks

theorem Network.Follows.countP_isGrant_ahead {cand : Nat} (ahead : history.current cand < term) :
    net.inbox.countP (Envelope.isGrant term cand) = 0 := by
  rw [countP_eq_zero]
  intro envelope mem grants
  have holds := follows.holds envelope mem
  obtain ⟨sender, dest, msg⟩ := envelope
  cases msg with
  | requestVoteReply at' granted =>
    simp only [Envelope.isGrant, Bool.and_eq_true, beq_iff_eq] at grants
    have cast : history.vote sender at' = some dest := holds grants.2.2
    rw [grants.2.1, grants.1] at cast
    have past := (follows.safe.voted cast).2
    omega
  | _ => simp [Envelope.isGrant] at grants

end
end LionFS.Cluster.Raft
