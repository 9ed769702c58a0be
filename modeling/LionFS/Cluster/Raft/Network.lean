import LionFS.Cluster.Raft.Server
import LionFS.Data.Machine

/-!
# The cluster and its network

`Network`: the servers and the messages under way. Any server's clock may
advance, any message may be delivered or lost, and the leader may be given a
command; `step` takes one such event. `Network::tick` is one tick of every
server in turn, and `Network::step` delivers the pending messages one by one.
-/
namespace LionFS.Cluster.Raft

/-- A message with its sender and its destination. -/
structure Envelope where
  sender : NodeId
  /-- Destination. -/
  dest : NodeId
  message : RaftMessage
  deriving DecidableEq, Repr

/-- `Network`, without the drop probabilities of its links. -/
structure Network where
  /-- Number of servers. -/
  size : Nat
  /-- The servers; those below the size take part. -/
  nodes : NodeId → Server
  /-- Messages under way, oldest first. -/
  inbox : List Envelope

/-- What can happen next. -/
inductive Event
  /-- Time passes at one server. -/
  | tick (node : NodeId) (elapsed : Nat)
  /-- One of the messages under way is handled. -/
  | deliver (position : Nat)
  /-- One of the messages under way is lost. -/
  | drop (position : Nat)
  /-- A client hands a command to a server. -/
  | propose (node : NodeId) (command : List UInt8)
  deriving DecidableEq, Repr

namespace Network

/-- `Network::new`. -/
def new (size : Nat) : Network :=
  { size := size, nodes := fun id => Server.new id size, inbox := [] }

/-- The messages of a server, tagged with their sender. -/
def sends (node : NodeId) (out : List Outgoing) : List Envelope :=
  out.map fun message => ⟨node, message.1, message.2⟩

/-- One server and the messages under way change. -/
def put (net : Network) (node : NodeId) (server : Server) (inbox : List Envelope) : Network :=
  { net with
    nodes := fun id => if id = node then server else net.nodes id
    inbox := inbox }

/-- What is true of the server that is put and of the others is true of all. -/
theorem forall_put {net : Network} {node : NodeId} {server : Server} {inbox : List Envelope}
    (fact : NodeId → Server → Prop) (here : fact node server)
    (others : ∀ other, other ≠ node → fact other (net.nodes other)) (other : NodeId) :
    fact other ((net.put node server inbox).nodes other) := by
  unfold put
  dsimp only
  by_cases same : other = node
  · rwa [if_pos same, same]
  · rw [if_neg same]
    exact others other same

/-- A server is in a new state and sends messages. -/
def served (net : Network) (node : NodeId) (done : Server × List Outgoing)
    (inbox : List Envelope) : Network :=
  net.put node done.1 (inbox ++ sends node done.2)

/-- One event; none when it cannot happen. -/
def step (net : Network) : Event → Option Network
  | .tick node elapsed =>
    if node < net.size then
      let (server, out) := (net.nodes node).tick elapsed
      some (net.put node server (net.inbox ++ sends node out))
    else none
  | .deliver position =>
    match net.inbox[position]? with
    | some envelope =>
      let (server, out) := (net.nodes envelope.dest).handle envelope.sender envelope.message
      some (net.put envelope.dest server
        (net.inbox.eraseIdx position ++ sends envelope.dest out))
    | none => none
  | .drop position =>
    if position < net.inbox.length then
      some { net with inbox := net.inbox.eraseIdx position }
    else none
  | .propose node command =>
    if node < net.size ∧ (net.nodes node).role = .leader then
      let server := { (net.nodes node).appendLocal command with heartbeatDueIn := 0 }
      some (net.put node server net.inbox)
    else none

/-- What each event does. -/
theorem step_cases {net next : Network} {event : Event} (taken : net.step event = some next) :
    (∃ node elapsed, event = .tick node elapsed ∧ node < net.size ∧
      next = net.served node ((net.nodes node).tick elapsed) net.inbox) ∨
    (∃ spot envelope, event = .deliver spot ∧ net.inbox[spot]? = some envelope ∧
      next = net.served envelope.dest
        ((net.nodes envelope.dest).handle envelope.sender envelope.message)
        (net.inbox.eraseIdx spot)) ∨
    (∃ spot, event = .drop spot ∧ spot < net.inbox.length ∧
      next = { net with inbox := net.inbox.eraseIdx spot }) ∨
    ∃ node command, event = .propose node command ∧ node < net.size ∧
      (net.nodes node).role = .leader ∧
      next = net.put node
        { (net.nodes node).appendLocal command with heartbeatDueIn := 0 } net.inbox := by
  unfold step at taken
  cases event with
  | tick node elapsed =>
    by_cases member : node < net.size
    · simp only [member, ↓reduceIte, Option.some.injEq] at taken
      exact Or.inl ⟨node, elapsed, rfl, member, taken.symm⟩
    · simp [member] at taken
  | deliver spot =>
    cases found : net.inbox[spot]? with
    | none => simp [found] at taken
    | some envelope =>
      simp only [found, Option.some.injEq] at taken
      exact Or.inr (Or.inl ⟨spot, envelope, rfl, found, taken.symm⟩)
  | drop spot =>
    by_cases mem : spot < net.inbox.length
    · simp only [mem, ↓reduceIte, Option.some.injEq] at taken
      exact Or.inr (Or.inr (Or.inl ⟨spot, rfl, mem, taken.symm⟩))
    · simp [mem] at taken
  | propose node command =>
    by_cases leads : node < net.size ∧ (net.nodes node).role = .leader
    · simp only [leads, and_self, ↓reduceIte, Option.some.injEq] at taken
      exact Or.inr (Or.inr (Or.inr ⟨node, command, rfl, leads.1, leads.2, taken.symm⟩))
    · simp only [leads, ↓reduceIte] at taken
      cases taken

/-- No event changes the number of servers. -/
theorem step_size {net next : Network} {event : Event}
    (taken : net.step event = some next) : next.size = net.size := by
  obtain ⟨_, _, -, -, rfl⟩ | ⟨_, _, -, -, rfl⟩ | ⟨_, -, -, rfl⟩ | ⟨_, _, -, -, -, rfl⟩ :=
    step_cases taken
  · rfl
  · rfl
  · rfl
  · rfl

/-- `Network::tick`: every server ticks in turn. -/
def ticks (size elapsed : Nat) : List Event :=
  (List.range size).map fun node => .tick node elapsed

end Network
end LionFS.Cluster.Raft
