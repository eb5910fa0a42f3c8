import Chainname.Ghostdag.Mining
import Chainname.Net.Message

/-!
# DAG synchronisation

The state machine a node runs against its peers. It takes messages in and returns actions
out; time arrives as a parameter.

A block whose parents have not arrived is held as an orphan in a bounded pool, and
`waiting_on` leads from a missing parent to the orphans that wait for it. When a block joins
the DAG, `resolveOrphansOf` works through a queue of blocks that have joined: the orphans
waiting on the block at the head are tried, and those that join are appended.

The queue is bounded by the orphans held, as each block appended to it was one of them
(`resolve_induct`).
-/

namespace Chainname

/-- Something the caller must do. -/
inductive Action where
  | send (peer : PeerId) (message : Message)
  | disconnect (peer : PeerId) (reason : String)
  deriving DecidableEq

/-- Tunable limits. -/
structure SyncConfig where
  /-- Largest number of orphans held at once. -/
  maxOrphans : ℕ
  /-- How long to wait for a requested block before asking someone else. -/
  requestTimeoutMs : ℕ
  genesis : BlockHash

/-- A block waiting for its parents, and the peer that supplied it. -/
structure Orphan where
  header : Header
  sender : PeerId

/-- The synchronisation state machine. -/
structure DagSync where
  dag : DagStore
  /-- A cheap, context-free header check. -/
  gate : Header → Except String Unit
  config : SyncConfig
  peers : Map PeerId PeerState
  orphans : Map BlockHash Orphan
  /-- Insertion order, for oldest-first eviction. -/
  orphanOrder : List BlockHash
  /-- Missing parent to the orphans waiting on it. -/
  waitingOn : Map BlockHash (Finset BlockHash)
  /-- Hashes requested from some peer, with the time of the request. -/
  requested : Map BlockHash (PeerId × ℕ)
  /-- Block bodies. -/
  bodies : Map BlockHash (List Bytes)
  /-- Blocks accepted. -/
  accepted : List BlockHash
  /-- Rotating offset for spreading retries across peers. -/
  retryCursor : ℕ

namespace DagSync

/-- A state machine over an existing DAG. -/
def new (dag : DagStore) (gate : Header → Except String Unit) (config : SyncConfig) : DagSync where
  dag := dag
  gate := gate
  config := config
  peers := ∅
  orphans := ∅
  orphanOrder := []
  waitingOn := ∅
  requested := ∅
  bodies := ∅
  accepted := []
  retryCursor := 0

section Peers

variable (S : DagSync)

/-- `if let Some(state) = self.peers.get_mut(&peer)`, with what is done to the state. -/
def modifyPeer (peer : PeerId) (f : PeerState → PeerState) : DagSync :=
  match S.peers.lookup peer with
  | none => S
  | some state => { S with peers := S.peers.insert peer (f state) }

/-- The peers whose state passes a test, in order. -/
def peersWith (test : PeerState → Bool) : List PeerId :=
  (((Maps.toList S.peers).map Prod.snd).filter test).map PeerState.id

/-- The opening message. -/
def versionMessage : Message :=
  .version protocolVersion S.config.genesis S.dag.sortedTips

/-- Penalises a peer, and drops it when its score has run out. -/
def penalise (peer : PeerId) (what : Misbehaviour) (reason : String) : DagSync × List Action :=
  match S.peers.lookup peer with
  | none => (S, [])
  | some state =>
    ({ S with peers := S.peers.insert peer (state.penalise what).1 },
      if (state.penalise what).2 then [.disconnect peer reason] else [])

/-- Tells every ready peer, except `exclude`, that we have `hash`. -/
def announce (hash : BlockHash) (exclude : Option PeerId) : DagSync × List Action :=
  let targets := S.peersWith fun p => p.isReady && some p.id ≠ exclude && hash ∉ p.knownBlocks
  (targets.foldl (fun S target => S.modifyPeer target (·.noteKnown hash)) S,
    targets.map fun peer => .send peer (.invBlocks [hash]))

end Peers

/-! ### Requests -/

section Requests

variable (S : DagSync)

/-- Issues a `GetBlocks`, skipping anything already in flight. -/
def requestFrom (peer : PeerId) (hashes : List BlockHash) (now : ℕ) : DagSync × List Action :=
  -- what is beyond one message is dropped, not kept for a second one
  let wanted := (hashes.filter fun h => h ∉ S.requested).take maxInvEntries
  if wanted = [] then (S, [])
  else
    ({ S with
        requested := wanted.foldl (fun requested h => requested.insert h (peer, now)) S.requested },
      [.send peer (.getBlocks wanted)])

/-- A block that is in the DAG or held as an orphan. -/
def holds (hash : BlockHash) : Bool := hash ∈ S.dag.headers || hash ∈ S.orphans

/-- Requests the subset of `hashes` we neither have nor have already asked for. -/
def requestUnknown (peer : PeerId) (hashes : List BlockHash) (now : ℕ) : DagSync × List Action :=
  S.requestFrom peer (hashes.filter fun h => !S.holds h) now

end Requests

/-! ### Orphans -/

section Orphans

/-- An evicted orphan no longer waits on its parents. -/
def unwait (hash : BlockHash) (parents : List BlockHash)
    (waitingOn : Map BlockHash (Finset BlockHash)) : Map BlockHash (Finset BlockHash) :=
  parents.foldl
    (fun waitingOn parent =>
      match waitingOn.lookup parent with
      | none => waitingOn
      | some set =>
        if set.erase hash = ∅ then waitingOn.erase parent
        else waitingOn.insert parent (set.erase hash))
    waitingOn

/-- The eviction loop, over the insertion order: the oldest orphans go until there is room. -/
def evict : List BlockHash → DagSync → DagSync
  | [], S => { S with orphanOrder := [] }
  | oldest :: rest, S =>
    if S.orphans.keys.card < S.config.maxOrphans then { S with orphanOrder := oldest :: rest }
    else
      match S.orphans.lookup oldest with
      | none => evict rest S
      | some evicted =>
        evict rest { S with
          orphans := S.orphans.erase oldest
          waitingOn := unwait oldest evicted.header.parents S.waitingOn }

/-- An orphan waits on those of its parents that are not in the DAG. -/
def wait (S : DagSync) (hash : BlockHash) (parents : List BlockHash) :
    Map BlockHash (Finset BlockHash) :=
  (parents.filter fun p => p ∉ S.dag.headers).foldl
    (fun waitingOn parent =>
      waitingOn.insert parent (insert hash ((waitingOn.lookup parent).getD ∅)))
    S.waitingOn

/-- Holds a block as an orphan, evicting the oldest first. -/
def storeOrphan (S : DagSync) (hash : BlockHash) (header : Header) (sender : PeerId) : DagSync :=
  let S := evict S.orphanOrder S
  { S with
    waitingOn := S.wait hash header.parents
    orphans := S.orphans.insert hash ⟨header, sender⟩
    orphanOrder := S.orphanOrder ++ [hash] }

variable [HeaderHash]

/-- Tries the orphans that waited on a block, in hash order; those that join are appended to
the queue. -/
def tryChildren : List BlockHash → DagSync → List Action → List BlockHash →
    DagSync × List Action × List BlockHash
  | [], S, actions, queue => (S, actions, queue)
  | child :: children, S, actions, queue =>
    match S.orphans.lookup child with
    | none => tryChildren children S actions queue
    | some orphan =>
      -- only once every parent is present
      if orphan.header.parents.all fun p => p ∈ S.dag.headers then
        let joined := S.dag.addBlock orphan.header
        let S := { S with
          dag := joined.1
          orphans := S.orphans.erase child
          orphanOrder := S.orphanOrder.filter (· ≠ child) }
        match joined.2 with
        | .ok _ =>
          let announced :=
            ({ S with accepted := S.accepted ++ [child] } : DagSync).announce child
              (some orphan.sender)
          tryChildren children announced.1 (actions ++ announced.2) (queue ++ [child])
        -- the orphan has left the pool and is dropped
        | .error _ => tryChildren children S actions queue
      else tryChildren children S actions queue

/-- The loop of `resolve_orphans_of`, for at most `n` blocks of the queue. -/
def resolve : ℕ → List BlockHash → DagSync → List Action → DagSync × List Action
  | 0, _, S, actions => (S, actions)
  | _ + 1, [], S, actions => (S, actions)
  | n + 1, parent :: queue, S, actions =>
    match S.waitingOn.lookup parent with
    | none => resolve n queue S actions
    | some children =>
      let tried := tryChildren (Maps.sortedKeys children)
        { S with waitingOn := S.waitingOn.erase parent } actions queue
      resolve n tried.2.2 tried.1 tried.2.1

/-- After `hash` joins the DAG, admits any orphans that were waiting on it. -/
def resolveOrphansOf (S : DagSync) (hash : BlockHash) : DagSync × List Action :=
  resolve (S.orphans.keys.card + 1) [hash] S []

end Orphans

/-! ### Blocks -/

section Blocks

variable [HeaderHash]

/-- Adds a validated header to the DAG, or holds it as an orphan. -/
def admitBlock (S : DagSync) (header : Header) (sender : PeerId) (now : ℕ) : DagSync × List Action :=
  let hash := header.hash
  let joined := S.dag.addBlock header
  let S := { S with dag := joined.1 }
  match joined.2 with
  | .ok _ =>
    let S := ({ S with accepted := S.accepted ++ [hash] } : DagSync).modifyPeer sender fun state =>
      { state with blocksDelivered := state.blocksDelivered + 1 }.reward 1
    let announced := S.announce hash (some sender)
    let resolved := announced.1.resolveOrphansOf hash
    (resolved.1, announced.2 ++ resolved.2)
  | .error (.missingParent _ _) =>
    let missing := header.parents.filter fun p => !S.holds p
    (S.storeOrphan hash header sender).requestFrom sender missing now
  | .error _ => (S, [])

/-- The loop of `on_blocks`, with the actions so far. -/
def deliver (peer : PeerId) (now : ℕ) :
    List BlockPayload → DagSync → List Action → DagSync × List Action
  | [], S, actions => (S, actions)
  | block :: blocks, S, actions =>
    let hash := block.hash
    -- the request is answered, whoever it was made of
    let S := ({ S with requested := S.requested.erase hash } : DagSync).modifyPeer peer
      (·.noteKnown hash)
    -- redundant data is normal under flood relay
    if S.holds hash then deliver peer now blocks S actions
    else
      match S.gate block.header with
      | .error _ =>
        let penalised := S.penalise peer .invalidBlock "invalid block"
        let actions := actions ++ penalised.2
        if actions.any fun a => a matches .disconnect _ _ then (penalised.1, actions)
        else deliver peer now blocks penalised.1 actions
      | .ok _ =>
        -- the body is kept before the header has been admitted
        let admitted := ({ S with bodies := S.bodies.insert hash block.transactions } : DagSync).admitBlock
          block.header peer now
        deliver peer now blocks admitted.1 (actions ++ admitted.2)

/-- Blocks that a peer delivers. -/
def onBlocks (S : DagSync) (peer : PeerId) (blocks : List BlockPayload) (now : ℕ) :
    DagSync × List Action :=
  deliver peer now blocks S []

/-- The blocks a peer asks for, as far as we have them. -/
def onGetBlocks (S : DagSync) (peer : PeerId) (hashes : List BlockHash) : DagSync × List Action :=
  let blocks : List BlockPayload := (hashes.take maxBlockBatch).filterMap fun hash =>
    (S.dag.headers.lookup hash).map fun header => ⟨header, (S.bodies.lookup hash).getD []⟩
  if blocks = [] then (S, [])
  else
    (S.modifyPeer peer fun state => blocks.foldl (fun state block => state.noteKnown block.hash) state,
      [.send peer (.blocks blocks)])

/-- A locally mined block. -/
def onLocalBlock (S : DagSync) (block : BlockPayload) : DagSync × List Action :=
  let hash := block.hash
  let joined := S.dag.addBlock block.header
  let S := { S with bodies := S.bodies.insert hash block.transactions, dag := joined.1 }
  match joined.2 with
  | .ok _ =>
    let announced := ({ S with accepted := S.accepted ++ [hash] } : DagSync).announce hash none
    let resolved := announced.1.resolveOrphansOf hash
    (resolved.1, announced.2 ++ resolved.2)
  | .error _ => (S, [])

end Blocks

/-! ### Messages and ticks -/

section Calls

/-- Registers a new connection and opens the handshake. -/
def onConnect (S : DagSync) (peer : PeerId) : DagSync × List Action :=
  ({ S with peers := S.peers.insert peer (.new peer) }, [.send peer S.versionMessage])

/-- Forgets a peer and releases anything it owed us. -/
def onDisconnect (S : DagSync) (peer : PeerId) : DagSync :=
  { S with
    peers := S.peers.erase peer
    requested := Maps.retain (fun _ request => request.1 ≠ peer) S.requested }

/-- The opening message of a peer. -/
def onVersion (S : DagSync) (peer : PeerId) (version : UInt32) (genesis : BlockHash)
    (tips : List BlockHash) (now : ℕ) : DagSync × List Action :=
  if version ≠ protocolVersion then S.penalise peer .wrongVersion "protocol version mismatch"
  else if genesis ≠ S.config.genesis then S.penalise peer .wrongGenesis "different network"
  else if peer ∉ S.peers then (S, [])
  else
    let S := S.modifyPeer peer fun state =>
      tips.foldl PeerState.noteKnown { state with handshake := .ready }
    let requested := S.requestUnknown peer tips now
    (requested.1, .send peer .verack :: requested.2)

/-- Blocks a peer announces. -/
def onInvBlocks (S : DagSync) (peer : PeerId) (hashes : List BlockHash) (now : ℕ) :
    DagSync × List Action :=
  (S.modifyPeer peer fun state => hashes.foldl PeerState.noteKnown state).requestUnknown
    peer hashes now

/-- Whether a peer is connected and has completed the handshake. -/
def isReady (S : DagSync) (peer : PeerId) : Bool := (S.peers.lookup peer).any PeerState.isReady

/-- Handles a decoded message. -/
def onMessage [HeaderHash] (S : DagSync) (peer : PeerId) (message : Message) (now : ℕ) :
    DagSync × List Action :=
  if peer ∉ S.peers then (S, [.disconnect peer "message from unknown peer"])
  else if !S.isReady peer && !message.isHandshake then (S, [.send peer S.versionMessage])
  else
    match message with
    | .version version genesis tips => S.onVersion peer version genesis tips now
    | .verack => (S.modifyPeer peer fun state => { state with handshake := .ready }, [])
    | .ping nonce => (S, [.send peer (.pong nonce)])
    | .pong _ => (S, [])
    | .getTips => (S, [.send peer (.tips S.dag.sortedTips)])
    | .tips hashes => S.requestUnknown peer hashes now
    | .invBlocks hashes => S.onInvBlocks peer hashes now
    | .getBlocks hashes => S.onGetBlocks peer hashes
    | .blocks blocks => S.onBlocks peer blocks now
    | .invTxs _ => (S, [])
    | .getTxs _ => (S, [])

/-- The requests that have timed out, in hash order. -/
def stale (S : DagSync) (now : ℕ) : List BlockHash :=
  ((Maps.toList S.requested).filter fun request =>
    S.config.requestTimeoutMs < now - request.2.2).map Prod.fst

/-- The hashes of the `j`th of `n` buckets, filled in turn from `start`. -/
def bucket (hashes : List BlockHash) (start n j : ℕ) : List BlockHash :=
  (hashes.zipIdx.filter fun entry => (start + entry.2) % n = j).map Prod.fst

/-- Asks each peer for its bucket. -/
def requestBuckets (now : ℕ) : List (PeerId × List BlockHash) → DagSync → List Action →
    DagSync × List Action
  | [], S, actions => (S, actions)
  | (peer, hashes) :: buckets, S, actions =>
    if hashes = [] then requestBuckets now buckets S actions
    else
      let requested := S.requestFrom peer hashes now
      requestBuckets now buckets requested.1 (actions ++ requested.2)

/-- Periodic work: handshakes are retried, timed-out blocks are requested again from other
peers, and every ready peer is asked for its tips. -/
def onTick (S : DagSync) (now : ℕ) : DagSync × List Action :=
  let stale := S.stale now
  let S := { S with requested := stale.foldl (fun requested hash => requested.erase hash) S.requested }
  let ready := S.peersWith PeerState.isReady
  let unready := S.peersWith fun p => !p.isReady
  let greetings := unready.map fun peer => Action.send peer S.versionMessage
  let retried :=
    if stale = [] ∨ ready = [] then (S, [])
    else
      let S := { S with retryCursor := (S.retryCursor + 1) % 2 ^ 64 }
      let start := S.retryCursor % ready.length
      requestBuckets now
        (ready.zipIdx.map fun entry => (entry.1, bucket stale start ready.length entry.2)) S []
  (retried.1, greetings ++ retried.2 ++ ready.map fun peer => Action.send peer .getTips)

end Calls

end DagSync

/-- What may happen to a node: a peer connects or leaves, a message or the timer arrives, or
a block is mined. -/
inductive SyncCall where
  | connect (peer : PeerId)
  | disconnect (peer : PeerId)
  | message (peer : PeerId) (message : Message) (now : ℕ)
  | tick (now : ℕ)
  | localBlock (block : BlockPayload)

/-- One call. -/
def DagSync.call [HeaderHash] (S : DagSync) : SyncCall → DagSync × List Action
  | .connect peer => S.onConnect peer
  | .disconnect peer => (S.onDisconnect peer, [])
  | .message peer message now => S.onMessage peer message now
  | .tick now => S.onTick now
  | .localBlock block => S.onLocalBlock block

/-- The state after one call. -/
def DagSync.step [HeaderHash] (S : DagSync) (call : SyncCall) : DagSync := (S.call call).1

end Chainname
