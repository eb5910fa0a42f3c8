import Chainname.Net.Receivable

/-!
# The peer-to-peer runtime

The runtime gives the state machine sockets and a clock. Each connection is a task that reads
frames, hands what they decode to to `on_message` and dispatches the actions that come back;
another task writes what is queued for the peer. The ticker and the miner make calls of their
own and dispatch what comes of them.

Tasks take their turns one locked section at a time, in any order: a call on the state machine,
a change of the registry. `P2pNode.step` is one such section.
-/

namespace Chainname

/-- How many messages may queue for a peer before it is considered stuck. -/
def peerSendQueue : ℕ := 1024

/-- An outbound channel: what is queued, and whether the write loop has gone. -/
structure Channel where
  queue : List Message
  closed : Bool

namespace Channel

/-- A fresh channel. -/
def new : Channel := ⟨[], false⟩

/-- Queues a message, if there is room and somebody to write it. -/
def trySend (channel : Channel) (message : Message) : Option Channel :=
  if channel.closed || peerSendQueue ≤ channel.queue.length then none
  else some { channel with queue := channel.queue ++ [message] }

/-- The write loop takes a message off the queue. -/
def written (channel : Channel) : Channel :=
  if channel.closed then channel else { channel with queue := channel.queue.tail }

end Channel

/-- Outbound channels, one per connected peer. -/
abbrev Registry := Map PeerId Channel

namespace Registry

/-- The sends of a batch of actions, and the peers that are stuck or to be disconnected. -/
def sendAll : List Action → Registry → List PeerId → Registry × List PeerId
  | [], table, stuck => (table, stuck)
  | .send peer message :: actions, table, stuck =>
    match table.lookup peer with
    | none => sendAll actions table stuck
    | some channel =>
      match channel.trySend message with
      | some channel => sendAll actions (table.insert peer channel) stuck
      | none => sendAll actions table (stuck ++ [peer])
  | .disconnect peer _ :: actions, table, stuck => sendAll actions table (stuck ++ [peer])

/-- Applies a batch of actions produced by the state machine. The lock of the registry is released
between the sends and the removals. This is one step, as what another task does in between leaves
the same registry when it comes after: it adds other peers, removes some, or queues messages in a
channel that is removed anyway. -/
def dispatch (registry : Registry) (actions : List Action) : Registry :=
  (sendAll actions registry []).2.foldl (fun table peer => table.erase peer)
    (sendAll actions registry []).1

end Registry

/-- Where the task of a connection stands. -/
inductive ConnectionTask where
  /-- Not yet in the registry. -/
  | spawned
  /-- In the registry, before `on_connect`. -/
  | registered
  /-- With actions to dispatch. -/
  | dispatching (actions : List Action)
  /-- Waiting for a frame. -/
  | reading
  /-- Out of the read loop, still in the registry. -/
  | left
  /-- Out of the registry, before `on_disconnect`. -/
  | removed

/-- A running peer-to-peer node. -/
structure P2pNode where
  sync : DagSync
  registry : Registry
  nextPeerId : PeerId
  connections : Map PeerId ConnectionTask
  /-- The batches that the ticker and the miner have yet to dispatch. -/
  batches : List (List Action)

/-- What may happen next. -/
inductive P2pEvent where
  /-- A connection is accepted, or a dial succeeds. -/
  | connection
  /-- The task of a connection goes on, as far as it can without a frame. -/
  | resume (peer : PeerId)
  /-- A frame arrives on a connection. -/
  | frame (peer : PeerId) (bytes : List UInt8) (now : ℕ)
  /-- The stream of a connection ends or fails. -/
  | finish (peer : PeerId)
  | tick (now : ℕ)
  | localBlock (block : BlockPayload)
  /-- The ticker or the miner dispatches one of its batches. -/
  | dispatch (n : ℕ)
  /-- The write loop of a connection writes a message. -/
  | written (peer : PeerId)
  /-- The write loop of a connection fails. -/
  | writeFailed (peer : PeerId)

namespace P2pNode

/-- A node over a state machine. -/
def new (sync : DagSync) : P2pNode where
  sync := sync
  registry := ∅
  nextPeerId := 0
  connections := ∅
  batches := []

section Step

variable (node : P2pNode)

/-- The task of a connection moves on. -/
def continueAs (peer : PeerId) (task : ConnectionTask) : P2pNode :=
  { node with connections := node.connections.insert peer task }

/-- The next section of the task of a connection. -/
def resume (peer : PeerId) : P2pNode :=
  match node.connections.lookup peer with
  | none => node
  | some .spawned =>
    { node with registry := node.registry.insert peer .new }.continueAs peer .registered
  | some .registered =>
    let connected := node.sync.onConnect peer
    { node with sync := connected.1 }.continueAs peer (.dispatching connected.2)
  | some (.dispatching actions) =>
    { node with registry := node.registry.dispatch actions }.continueAs peer .reading
  | some .reading => node
  | some .left => { node with registry := node.registry.erase peer }.continueAs peer .removed
  | some .removed =>
    { node with
      sync := node.sync.onDisconnect peer
      connections := node.connections.erase peer }

/-- A message is handed to the state machine. -/
def receive [HeaderHash] (peer : PeerId) (message : Message) (now : ℕ) : P2pNode :=
  let handled := node.sync.onMessage peer message now
  { node with sync := handled.1 }.continueAs peer (.dispatching handled.2)

/-- `read_frame` refuses an empty frame and one that is too large, and the loop ends when the
bytes do not decode. -/
def readFrame [HeaderHash] (peer : PeerId) (bytes : List UInt8) (now : ℕ) : P2pNode :=
  if bytes = [] ∨ maxFrameBytes < bytes.length then node.continueAs peer .left
  else
    match Message.decodeFromSlice bytes with
    | .ok message => node.receive peer message now
    | .error _ => node.continueAs peer .left

/-- A connection that waits for a frame. -/
def isReading (peer : PeerId) : Bool := node.connections.lookup peer matches some .reading

/-- One locked section of one task. -/
def step [HeaderHash] : P2pEvent → P2pNode
  | .connection =>
    { node with nextPeerId := node.nextPeerId + 1 }.continueAs node.nextPeerId .spawned
  | .resume peer => node.resume peer
  | .frame peer bytes now => if node.isReading peer then node.readFrame peer bytes now else node
  | .finish peer => if node.isReading peer then node.continueAs peer .left else node
  | .tick now =>
    let ticked := node.sync.onTick now
    { node with sync := ticked.1, batches := node.batches ++ [ticked.2] }
  | .localBlock block =>
    let announced := node.sync.onLocalBlock block
    { node with sync := announced.1, batches := node.batches ++ [announced.2] }
  | .dispatch n =>
    { node with
      registry := node.registry.dispatch (node.batches.getD n [])
      batches := node.batches.eraseIdx n }
  | .written peer =>
    match node.registry.lookup peer with
    | none => node
    | some channel => { node with registry := node.registry.insert peer channel.written }
  | .writeFailed peer =>
    match node.registry.lookup peer with
    | none => node
    | some channel =>
      { node with registry := node.registry.insert peer { channel with closed := true } }

/-- The actions that an event dispatches. -/
def dispatched : P2pEvent → List Action
  | .resume peer =>
    match node.connections.lookup peer with
    | some (.dispatching actions) => actions
    | _ => []
  | .dispatch n => node.batches.getD n []
  | _ => []

end Step

end P2pNode

end Chainname
