import LionFS.Cluster.Raft.Follows

/-!
# Terms and votes follow the history

Adopting a term, standing, voting, counting a vote and winning are moves of the
history. A candidate that counts a quorum of answers has a quorum of voters, so
it is the only one to win its term.
-/
namespace LionFS.Cluster.Raft
open List Nat Function

theorem Network.put_self (net : Network) (node : NodeId) :
    net.put node (net.nodes node) net.inbox = net := by
  have same : (fun id => if id = node then net.nodes node else net.nodes id) =
      net.nodes := by
    funext id
    by_cases here : id = node
    · rw [if_pos here, here]
    · rw [if_neg here]
  unfold Network.put
  rw [same]

namespace Network
variable {careful : Prop} {history : History} {net : Network} {node : NodeId}

/-- A server's timers and its next entries for peers may change, and a candidate may give up. -/
theorem Follows.settle (follows : net.Follows careful history) {server : Server}
    (same : server = { net.nodes node with
      role := server.role
      nextIndex := server.nextIndex
      electionTimeoutIn := server.electionTimeoutIn
      electionTimeout := server.electionTimeout
      heartbeatDueIn := server.heartbeatDueIn
      rngState := server.rngState })
    (role : server.role = (net.nodes node).role ∨ server.role = .follower)
    (next : server.role = .leader → ∀ peer, peer < net.size → peer ≠ node →
      server.nextFor peer ≤ server.log.length + 1) :
    (net.put node server net.inbox).Advances careful history := by
  have now := follows.servers node
  have kept : ∀ kind, kind ≠ .follower → server.role = kind →
      (net.nodes node).role = kind := by
    intro kind busy is
    cases role with
    | inl old => exact old.symm.trans is
    | inr gave => exact absurd (is.symm.trans gave) busy
  refine (follows.replace ?_ ?_).advances
  · rw [same] at next ⊢
    exact { now with
      leads := fun leading => now.leads (kept _ (by decide) leading)
      next := next
      stands := fun cand => now.stands (kept _ (by decide) cand)
      matched := fun cares leading => now.matched cares (kept _ (by decide) leading) }
  · intro cand
    have counted := follows.counted node (kept _ (by decide) cand)
    rw [same]
    exact counted

theorem Follows.becomeFollower (follows : net.Follows careful history)
    (node : NodeId) (term : Nat) :
    (net.put node ((net.nodes node).becomeFollower term) net.inbox).Advances careful
      history := by
  unfold Server.becomeFollower
  by_cases later : (net.nodes node).currentTerm < term
  · rw [if_pos later]
    have now := follows.servers node
    have less : history.current node < term := now.current ▸ later
    have grows := Ballots.grows_adopt less.le
    refine ⟨history.adopt node term, grows, retains_of_log rfl, follows.move grows
      ⟨fun other apart => update_of_ne apart _ _, fun _ _ => rfl, fun _ _ _ => rfl,
        fun _ _ _ won => won⟩ rfl (follows.safe.adopt less) follows.records ?_
      nofun⟩
    have unvoted : history.vote node term = none := by
      cases cast : history.vote node term with
      | none => rfl
      | some cand =>
        have past := (follows.safe.voted cast).1
        omega
    exact { now with
      current := update_self _ _ _
      vote := unvoted
      leads := nofun
      next := nofun
      stands := nofun
      matched := nofun
      commit := fun cares => ((now.commit cares).grows grows).later later.le }
  · rw [if_neg later, put_self]
    exact follows.advances

/-- A server is asked in at most one message of a candidacy. -/
theorem countP_voteRequests (server : Server) (node cand term voter : Nat) :
    (sends node server.voteRequests).countP (Envelope.isRequest cand term voter) ≤
      if voter ≠ server.selfId ∧ cand = server.selfId ∧ term = server.currentTerm then 1
      else 0 := by
  have distinct : server.peers.Nodup := List.Nodup.filter _ nodup_range
  have count : (sends node server.voteRequests).countP (Envelope.isRequest cand term voter) =
      if cand = server.selfId ∧ term = server.currentTerm then server.peers.count voter
      else 0 := by
    unfold sends Server.voteRequests
    rw [map_map, countP_map]
    by_cases own : cand = server.selfId ∧ term = server.currentTerm
    · rw [if_pos own, count_eq_countP]
      refine countP_congr fun peer _ => ?_
      simp [Envelope.isRequest, own.1, own.2]
    · rw [if_neg own, countP_eq_zero]
      intro peer _
      simp only [comp_apply, Envelope.isRequest, Bool.and_eq_true, beq_iff_eq, not_and]
      exact fun _ at' who => own ⟨who.symm, at'.symm⟩
  rw [count]
  by_cases own : cand = server.selfId ∧ term = server.currentTerm
  · rw [if_pos own]
    by_cases self : voter = server.selfId
    · rw [count_eq_zero_of_not_mem fun mem => (Server.mem_peers.mp mem).2 self]
      exact zero_le _
    · rw [if_pos ⟨self, own⟩]
      exact nodup_iff_count_le_one.mp distinct voter
  · rw [if_neg own]
    exact zero_le _

theorem countP_isGrant_voteRequests (server : Server) (node term cand : Nat) :
    (sends node server.voteRequests).countP (Envelope.isGrant term cand) = 0 := by
  rw [countP_eq_zero]
  intro envelope mem
  obtain ⟨msg, isOut, rfl⟩ := mem_map.mp mem
  obtain ⟨peer, -, rfl⟩ := mem_map.mp isOut
  simp [Envelope.isGrant]

variable (follows : net.Follows careful history)
include follows

/-- A server that is not a leader stands in the next term. -/
theorem Follows.stand (member : node < net.size) : (net.put node (net.nodes node).standForElection
      (net.inbox ++ sends node
        (net.nodes node).standForElection.voteRequests)).Advances careful history := by
  have now := follows.servers node
  have safe := follows.safe
  have grows := Ballots.grows_stand safe node
  have unvoted : ∀ voter, history.vote voter (history.current node + 1) ≠ some node := by
    intro voter cast
    have past := (safe.voted cast).2
    omega
  have term : (net.nodes node).standForElection.currentTerm = history.current node + 1 := by
    rw [now.current]
    rfl
  have elsewhere : Elsewhere history (history.stand node) node :=
    ⟨fun other apart => update_of_ne apart _ _, fun _ _ => rfl,
      fun other apart _ => Ballots.set_of_ne (Or.inl apart), fun _ _ _ won => won⟩
  have server : (net.nodes node).standForElection.Follows careful net.size
      (history.stand node) node := { now with
    current := (update_self _ _ _).trans term.symm
    vote := by
      rw [term]
      exact (Ballots.set_self _ _ _ _).trans (congrArg some now.self.symm)
    leads := nofun
    next := nofun
    stands := fun _ => by
      rw [term]
      refine ⟨fun won => ?_, (Ballots.set_self _ _ _ _).trans now.log⟩
      have led := safe.led won
      omega
    matched := nofun
    commit := fun cares => ((now.commit cares).grows grows).later (le_succ _) }
  refine ⟨history.stand node, grows, retains_of_log rfl, follows.change grows elsewhere
    (safe.stand node)
    follows.records server (fun msg isOut => ?_) (fun cand at' voter => ?_) (fun _ => ?_)
    fun other => ?_⟩
  · obtain ⟨peer, isPeer, rfl⟩ := mem_map.mp isOut
    have other := Server.mem_peers.mp isPeer
    rw [server.self, server.cluster] at other
    have stood := (server.stands rfl).2
    have last : (net.nodes node).standForElection.lastLogIndex =
        (net.nodes node).standForElection.log.length := server.indexed.lastIndexOf
    refine ⟨⟨member, other.1, other.2.symm⟩, server.self, ?_, ?_, ?_, ?_⟩
    · rw [term]
      exact succ_pos _
    · rw [server.self, server.current]
    · rw [server.self, stood, last]
    · rw [server.self, stood]
      rfl
  · have old := follows.requests cand at' voter
    have asked := countP_voteRequests (net.nodes node).standForElection node cand at' voter
    rw [server.self, term] at asked
    rw [countP_append]
    by_cases own : cand = node ∧ at' = history.current node + 1
    · obtain ⟨rfl, rfl⟩ := own
      rw [follows.countP_isRequest_ahead (lt_succ_self _), zero_add]
      by_cases self : voter = cand
      · subst self
        rw [if_neg (fun all => all.1 rfl)] at asked
        exact asked.trans (zero_le _)
      · rw [if_pos ⟨self, rfl, rfl⟩] at asked
        have vote : (history.stand cand).vote voter (history.current cand + 1) ≠ some cand := by
          rw [elsewhere.vote voter self]
          exact unvoted voter
        rw [if_neg vote]
        exact asked
    · rw [if_neg fun all => own all.2] at asked
      rw [le_zero.mp asked, add_zero]
      refine old.trans ?_
      by_cases here : voter = node ∧ at' = history.current node + 1
      · obtain ⟨rfl, rfl⟩ := here
        have vote : (history.stand voter).vote voter (history.current voter + 1) = some voter :=
          Ballots.set_self _ _ _ _
        have other : some voter ≠ some cand := fun same =>
          own ⟨(Option.some.inj same).symm, rfl⟩
        rw [vote, if_neg other]
        split <;> omega
      · have vote : (history.stand node).vote voter at' = history.vote voter at' :=
          Ballots.set_of_ne (not_and_or.mp here)
        rw [vote]
  · rw [countP_append, countP_isGrant_voteRequests, add_zero, term,
      follows.countP_isGrant_ahead (lt_succ_self _)]
    have self : node ∈ voters net.size (history.stand node) (history.current node + 1) node := by
      unfold voters
      rw [Finset.mem_filter]
      exact ⟨Finset.mem_range.mpr member, Ballots.set_self _ _ _ _⟩
    exact Finset.card_pos.mpr ⟨node, self⟩
  · refine Server.Tallied.grows (follows.counted other) grows ?_
    rw [countP_append, countP_isGrant_voteRequests, add_zero]

theorem Follows.grant {cand : NodeId} (member : node < net.size) (known : cand < net.size)
    (apart : node ≠ cand) (free : (net.nodes node).votedFor = none)
    (unasked : net.inbox.countP (Envelope.isRequest cand (net.nodes node).currentTerm node) = 0)
    (first : 0 < (net.nodes node).currentTerm)
    (stands : (net.nodes node).currentTerm ≤ history.current cand)
    (upToDate : Ballots.UpToDate LogEntry.term
      (history.standing cand (net.nodes node).currentTerm) (net.nodes node).log) {server : Server}
    (voted : server = { net.nodes node with
      votedFor := some cand
      electionTimeoutIn := server.electionTimeoutIn }) :
    (net.put node server (net.inbox ++ sends node
      [(cand, .requestVoteReply server.currentTerm true)])).Advances careful history := by
  have now := follows.servers node
  have safe := follows.safe
  have term : server.currentTerm = history.current node := by
    rw [voted]
    exact now.current.symm
  rw [← now.current] at unasked first stands upToDate
  rw [← now.log] at upToDate
  have unvoted : history.vote node (history.current node) = none := by
    rw [now.current]
    exact now.vote.trans free
  have grows : history.Grows (history.grant node cand) := Ballots.grows_grant (Or.inl unvoted)
  have elsewhere : Elsewhere history (history.grant node cand) node :=
    ⟨fun _ _ => rfl, fun _ _ => rfl, fun other differs _ => Ballots.set_of_ne (Or.inl differs),
      fun _ _ _ won => won⟩
  have cast : (history.grant node cand).vote node (history.current node) = some cand :=
    Ballots.set_self _ _ _ _
  have tallied : ∀ other, (net.nodes other).Tallied net.size (history.grant node cand)
      (net.inbox ++ sends node [(cand, .requestVoteReply server.currentTerm true)]) other := by
    intro other stood
    rw [countP_append]
    have old := follows.counted other stood
    by_cases mine : other = cand ∧ (net.nodes other).currentTerm = history.current node
    · obtain ⟨rfl, level⟩ := mine
      have one : (sends node [(other, .requestVoteReply server.currentTerm true)]).countP
          (Envelope.isGrant (net.nodes other).currentTerm other) ≤ 1 :=
        countP_le_length
      have more : (voters net.size history (net.nodes other).currentTerm other).card <
          (voters net.size (history.grant node other)
            (net.nodes other).currentTerm other).card := by
        refine Finset.card_lt_card (Finset.ssubset_iff_of_subset (voters_subset grows _ _) |>.mpr
          ⟨node, ?_, ?_⟩)
        · unfold voters
          rw [Finset.mem_filter, level]
          exact ⟨Finset.mem_range.mpr member, cast⟩
        · unfold voters
          rw [Finset.mem_filter, level, unvoted]
          rintro ⟨-, some⟩
          cases some
      omega
    · have none : (sends node [(cand, .requestVoteReply server.currentTerm true)]).countP
          (Envelope.isGrant (net.nodes other).currentTerm other) = 0 := by
        rw [countP_eq_zero]
        intro envelope mem grants
        rw [mem_singleton.mp mem] at grants
        simp only [Envelope.isGrant, Bool.and_eq_true, beq_iff_eq, and_true] at grants
        exact mine ⟨grants.1.symm, grants.2.symm.trans term⟩
      rw [none, add_zero]
      exact old.trans (Finset.card_le_card (voters_subset grows _ _))
  refine ⟨history.grant node cand, grows, retains_of_log rfl, follows.change grows elsewhere
    (safe.grant (Or.inl unvoted) first stands upToDate) follows.records ?_
    (fun msg isOut => ?_) (fun other at' voter => ?_) ?_ tallied⟩
  · rw [voted] at term ⊢
    exact { now with
      vote := by
        rw [term]
        exact cast
      commit := fun cares => (now.commit cares).grows grows }
  · rw [mem_singleton.mp isOut]
    refine ⟨⟨member, known, apart⟩, fun _ => ?_⟩
    rw [term]
    exact cast
  · have old := follows.requests other at' voter
    have none : (sends node [(cand, .requestVoteReply server.currentTerm true)]).countP
        (Envelope.isRequest other at' voter) = 0 := by
      simp [sends, Envelope.isRequest]
    rw [countP_append, none, add_zero]
    by_cases here : voter = node ∧ at' = history.current node
    · obtain ⟨rfl, rfl⟩ := here
      rw [cast]
      by_cases same : cand = other
      · subst same
        rw [unasked]
        exact zero_le _
      · rw [if_neg fun equal => same (Option.some.inj equal)]
        rw [unvoted] at old
        simpa using old
    · have same : (history.grant node cand).vote voter at' = history.vote voter at' :=
        Ballots.set_of_ne (not_and_or.mp here)
      rw [same]
      exact old
  · have mine := tallied node
    generalize net.inbox ++ sends node _ = inbox at mine ⊢
    rw [voted]
    exact mine

theorem Follows.winElection (stood : (net.nodes node).role = .candidate)
    (enough : (net.nodes node).quorum ≤ (net.nodes node).votesReceived) :
    (net.put node (net.nodes node).winElection net.inbox).Advances careful
      history := by
  have now := follows.servers node
  have safe := follows.safe
  have many : Majority net.size fun voter =>
      history.vote voter (history.current node) = some node := by
    refine ⟨voters net.size history (history.current node) node, Finset.filter_subset _ _, ?_,
      fun voter mem => (Finset.mem_filter.mp mem).2⟩
    have counted := follows.counted node stood
    rw [← now.current] at counted
    have quorum : (net.nodes node).quorum = net.size / 2 + 1 := by
      unfold Server.quorum
      rw [now.cluster]
    omega
  have vacant : history.leader (history.current node) = none := by
    cases won : history.leader (history.current node) with
    | none => rfl
    | some winner =>
      obtain ⟨member, one, two⟩ := (safe.majority won).meet many
      have same : winner = node := Option.some_inj.mp (one.symm.trans two)
      rw [same, now.current] at won
      exact absurd won (now.stands stood).1
  have stands : history.standing node (history.current node) = history.log node := by
    rw [now.current, now.log]
    exact (now.stands stood).2
  have grows := Ballots.grows_win safe vacant
  have elsewhere : Elsewhere history (history.win node) node := by
    refine ⟨fun _ _ => rfl, fun _ _ => rfl, fun _ _ _ => rfl, fun other apart term won => ?_⟩
    by_cases here : term = history.current node
    · subst here
      have same : node = other := by simpa [Ballots.win] using won
      exact absurd same.symm apart
    · simpa [Ballots.win, here] using won
  refine ⟨history.win node, grows, retains_of_log rfl, follows.move grows elsewhere rfl
    (safe.win vacant many stands) (fun term => ?_) ?_ (fun cand => by cases cand)⟩
  · by_cases here : term = history.current node
    · subst here
      simp only [Ballots.win, update_self]
      rw [now.log]
      exact now.indexed
    · simp only [Ballots.win, update_of_ne here]
      exact follows.records term
  · have last : (net.nodes node).lastLogIndex = (net.nodes node).log.length :=
      now.indexed.lastIndexOf
    have isPeer : ∀ {peer}, peer < net.size → peer ≠ node →
        peer ∈ (net.nodes node).peers := fun below apart =>
      Server.mem_peers.mpr ⟨now.cluster.symm ▸ below, now.self.symm ▸ apart⟩
    exact { now with
      leads := fun _ => by
        show (history.win node).leader (net.nodes node).currentTerm = some node
        rw [← now.current]
        exact update_self _ _ _
      next := fun _ peer below apart => by
        unfold Server.nextFor Server.winElection
        rw [Assoc.find_foldl_insert, if_pos (isPeer below apart), last]
        exact le_refl _
      stands := fun cand => by cases cand
      peers := by
        refine ⟨now.peers.1.foldl_insert _ _, fun binding mem => ?_⟩
        cases Assoc.mem_foldl_insert now.peers.1 mem with
        | inl new =>
          have peer := Server.mem_peers.mp new.1
          rwa [now.cluster, now.self] at peer
        | inr old => exact now.peers.2 binding old.1
      matched := fun _ _ binding mem => by
        cases Assoc.mem_foldl_insert now.peers.1 mem with
        | inl new =>
          rw [new.2]
          exact zero_le _
        | inr old =>
          have peer := now.peers.2 binding old.1
          exact absurd (isPeer peer.1 peer.2) old.2
      commit := fun cares => (now.commit cares).grows grows }

end Network
end LionFS.Cluster.Raft
