import Chainname.Consensus.Validate
import Chainname.Execution.Genesis
import Chainname.Library.Agenda
import Chainname.Testkit.Network
import Chainname.Testkit.Rng
import Chainname.Testkit.Wallet

/-!
# The simulation

An event queue over virtual time drives nodes that each run the synchronisation state machine,
mine at an easy target, and execute what they accept. Events are ordered by time and, at the same
time, by the number they were given, so that a run is a function of its seed.

Messages are lost or delayed on the way; nothing else can go wrong between two nodes. A node that
cannot follow its selected chain stops the run, which is the one error there is.

Virtual time is a natural number of milliseconds, where a simulation counts in 64 bits; the two
agree until a time reaches `2 ^ 64`, which `run_returns` excludes for every event of a run. What is
drawn from the generator, and the intervals it is drawn from, are 64-bit.
-/

namespace Chainname.Testkit

open DagStore

/-! ### Parameters -/

/-- Genesis timestamp shared by every simulated network. -/
def genesisMs : ℕ := 1700000000000

/-- Mining target for simulations: about 16 hashes per block. -/
def simTarget : ℕ := U256.max >>> 4

def simBits : UInt32 := CompactTarget.fromTarget simTarget

/-- Quality of the link between two nodes. -/
structure LinkQuality where
  minLatencyMs : UInt64
  maxLatencyMs : UInt64
  /-- Probability a message is dropped, in parts per thousand. -/
  lossPermille : UInt64
  deriving DecidableEq

/-- Simulation parameters. -/
structure SimConfig where
  nodes : ℕ
  seed : UInt64
  k : UInt16
  mergesetLimit : ℕ
  /-- Mean interval between blocks, network-wide. -/
  blockIntervalMs : UInt64
  link : LinkQuality
  /-- How often each node runs its periodic work. -/
  tickIntervalMs : UInt64
  /-- Transactions a node puts in each block it mines. -/
  txsPerBlock : ℕ
  deriving DecidableEq

def walletsPerNode : ℕ := 4

/-- Starting balance for every test wallet, in wei. -/
def walletBalanceWei : B256 := 1000000000000000000000

/-- The genesis header every simulated node starts from. -/
def simGenesis : Header where
  version := headerVersion
  parents := []
  timestampMs := UInt64.ofNat genesisMs
  bits := simBits
  nonce := 0
  miner := 0
  txsRoot := emptyRootHash
  deferredHeight := 0
  deferredStateRoot := 0
  deferredReceiptsRoot := emptyRootHash
  deferredGasUsed := 0

/-- The parameters of the network at one block per second. -/
def testnet1bps : ChainParams where
  chainId := 7717
  targetBlockIntervalMs := msPerSecond
  ghostdagK := 18
  asertHalflifeSeconds := 2 * 60 * 60
  targetGasPerSecond := 30000000

/-- The text of a compact target, `0x` and eight digits. -/
def compactText (raw : UInt32) : String :=
  let digits := String.ofList (Nat.toDigits 16 raw.toNat)
  "compact target 0x" ++ String.ofList (List.replicate (8 - digits.length) '0') ++ digits

/-- The text of a target that could not be decoded. -/
def compactErrorText : CompactError → String
  | .negativeTarget raw => compactText raw ++ " has the sign bit set"
  | .zeroTarget raw => compactText raw ++ " encodes zero"
  | .overflow raw => compactText raw ++ " overflows 256 bits"

/-- Header checks a simulated node applies: structure and proof of work. -/
def structureAndPow (pow : PowHash) (header : Header) : Except String Unit :=
  match header.validateStructure with
  | .error e => .error e.text
  | .ok _ =>
    match CompactTarget.toTarget header.bits with
    | .error e => .error (compactErrorText e)
    | .ok target =>
      if target < (pow.hashHeader header).val then .error "insufficient work" else .ok ()

/-! ### State -/

/-- What is going to happen. -/
inductive EventKind (n : ℕ) where
  | deliver (receiver sender : Fin n) (message : Message)
  | mine (node : Fin n)
  | tick (node : Fin n)

/-- One simulated node. -/
structure SimNode extends Replica where
  miner : Address
  /-- Next nonce for each wallet this node owns. -/
  nonces : Map Address UInt64
  /-- The wallets this node owns. -/
  wallets : Fin walletsPerNode → Wallet

/-- A running simulation. -/
structure Simulation (config : SimConfig) where
  nodes : Fin config.nodes → SimNode
  queue : Agenda (EventKind config.nodes)
  rng : Lcg
  nowMs : ℕ
  /-- Messages dropped by simulated packet loss. -/
  dropped : ℕ
  /-- Messages delivered. -/
  delivered : ℕ
  /-- Blocks mined across all nodes. -/
  mined : ℕ
  /-- Chain reorganisations observed across all nodes. -/
  reorgs : ℕ
  /-- The deepest reorganisation seen, in chain blocks undone. -/
  deepestReorg : ℕ
  /-- When false, nothing is mined. -/
  miningEnabled : Bool
  /-- When any node last accepted a block. -/
  lastChangeMs : ℕ
  /-- When each block was first noted, by how many nodes, and how long it took to reach all. -/
  propagation : Map BlockHash (ℕ × ℕ × ℕ)
  /-- Completed propagation delays. -/
  delays : List ℕ

/-- Maps a peer id to a node index, rejecting anything out of range. -/
def nodeIndex (peer : PeerId) (n : ℕ) : Option (Fin n) :=
  if h : peer < n then some ⟨peer, h⟩ else none

namespace Simulation

variable {config : SimConfig}

/-! ### Events -/

section Queue

variable (sim : Simulation config)

/-- Enters an event in the queue. -/
def push (time : ℕ) (kind : EventKind config.nodes) : Simulation config :=
  { sim with queue := sim.queue.enter time kind }

/-- Sets the network layer of a node. -/
def setSync (node : Fin config.nodes) (S : DagSync) : Simulation config :=
  { sim with nodes := Function.update sim.nodes node { sim.nodes node with sync := S } }

/-- Schedules a node's next block, so that the network mines one per interval on average. -/
def scheduleNextMine (node : Fin config.nodes) : Simulation config :=
  let mean := config.blockIntervalMs * UInt64.ofNat config.nodes
  let delay := sim.rng.between (mean / 5) (mean * 2)
  { sim with rng := delay.2 }.push (sim.nowMs + max delay.1.toNat 1) (.mine node)

/-- Schedules a node's next periodic work. -/
def scheduleTick (node : Fin config.nodes) : Simulation config :=
  sim.push (sim.nowMs + config.tickIntervalMs.toNat) (.tick node)

/-- Sends one message, unless it is lost. -/
def send (sender receiver : Fin config.nodes) (message : Message) : Simulation config :=
  let lost := sim.rng.chancePermille config.link.lossPermille
  if lost.1 then { sim with rng := lost.2, dropped := sim.dropped + 1 }
  else
    let latency := lost.2.between config.link.minLatencyMs config.link.maxLatencyMs
    { sim with rng := latency.2 }.push (sim.nowMs + latency.1.toNat)
      (.deliver receiver sender message)

/-- Closes a connection at both ends, as a real socket close would. -/
def disconnect (sender : Fin config.nodes) (peer : PeerId) : Simulation config :=
  let sim := sim.setSync sender ((sim.nodes sender).sync.onDisconnect peer)
  match nodeIndex peer config.nodes with
  | none => sim
  | some receiver => sim.setSync receiver ((sim.nodes receiver).sync.onDisconnect sender.val)

/-- One action of a node. -/
def perform (sender : Fin config.nodes) : Action → Simulation config
  | .send peer message =>
    match nodeIndex peer config.nodes with
    | none => sim
    | some receiver => sim.send sender receiver message
  | .disconnect peer _ => sim.disconnect sender peer

/-- Turns a node's actions into scheduled deliveries, applying loss and latency. -/
def dispatch (sender : Fin config.nodes) (actions : List Action) : Simulation config :=
  actions.foldl (fun sim action => sim.perform sender action) sim

end Queue

/-! ### Blocks -/

section Blocks

variable (sim : Simulation config)

/-- Notes that one more node now holds a block, and records the delay once every node does. -/
def recordPropagation (hash : BlockHash) : Simulation config :=
  let entry := (sim.propagation.lookup hash).getD (sim.nowMs, 0, 0)
  let count := entry.2.1 + 1
  if count = config.nodes then
    { sim with
      propagation := sim.propagation.insert hash (entry.1, count, sim.nowMs - entry.1)
      delays := sim.delays ++ [sim.nowMs - entry.1] }
  else { sim with propagation := sim.propagation.insert hash (entry.1, count, entry.2.2) }

/-- Absorbs newly accepted blocks of a node and advances its execution. A failure stops the
run. -/
def noteChanges [TxCodec] [Evm] [Trie] [FeeRule] (node : Fin config.nodes) :
    Except ExecutionError (Simulation config) :=
  let accepted := (sim.nodes node).sync.accepted
  if accepted = [] then .ok sim
  else
    let sim := accepted.foldl recordPropagation { sim with lastChangeMs := sim.nowMs }
    let noted := (sim.nodes node).toReplica.noteChanges
    match noted.2 with
    | .error e => .error e
    | .ok depth => .ok { sim with
        nodes := Function.update sim.nodes node { sim.nodes node with toReplica := noted.1 }
        reorgs := if 0 < depth then sim.reorgs + 1 else sim.reorgs
        deepestReorg := max sim.deepestReorg depth }

/-- Signs a transfer from a wallet of a node to any wallet of the network. -/
def makeTransaction [Signer] (node : Fin config.nodes) : Simulation config × Bytes :=
  let walletIndex := sim.rng.below (UInt64.ofNat walletsPerNode)
  let recipient := walletIndex.2.below (UInt64.ofNat config.nodes * UInt64.ofNat walletsPerNode)
  let value := recipient.2.between 1 1000
  let wallet := (sim.nodes node).wallets
    ⟨walletIndex.1.toNat % walletsPerNode, Nat.mod_lt _ (by decide)⟩
  let nonce := ((sim.nodes node).nonces.lookup wallet.address).getD 0
  ({ sim with
      rng := value.2
      nodes := Function.update sim.nodes node { sim.nodes node with
        nonces := (sim.nodes node).nonces.insert wallet.address (nonce + 1) } },
    wallet.signedTransfer testnet1bps.chainId nonce (Wallet.fromIndex recipient.1).address value.1
      100000000000 1)

/-- Signs so many transactions for a block this node is about to mine. -/
def makeTransactions [Signer] (node : Fin config.nodes) :
    ℕ → Simulation config → Simulation config × List Bytes
  | 0, sim => (sim, [])
  | count + 1, sim =>
    let made := sim.makeTransaction node
    let rest := makeTransactions node count made.1
    (rest.1, made.2 :: rest.2)

/-- The nonces that are tried. -/
def nonceTries : ℕ := 100000

/-- The first of so many nonces, from one on, under which the hash meets the target. -/
def searchNonce (pow : PowHash) (header : Header) : ℕ → UInt64 → Option Header
  | 0, _ => none
  | tries + 1, nonce =>
    if (pow.hashHeader { header with nonce := nonce }).val ≤ simTarget then
      some { header with nonce := nonce }
    else searchNonce pow header tries (nonce + 1)

/-- The header a node mines on, before a nonce has been found. -/
def template (node : Fin config.nodes) : Header where
  version := headerVersion
  parents := (sim.nodes node).sync.dag.miningParents
  timestampMs := UInt64.ofNat sim.nowMs
  bits := simBits
  nonce := 0
  miner := (sim.nodes node).miner
  txsRoot := emptyRootHash
  deferredHeight := 0
  deferredStateRoot := 0
  deferredReceiptsRoot := emptyRootHash
  deferredGasUsed := 0

/-- The header a node mines, if it finds one. -/
def minedHeader (pow : PowHash) (node : Fin config.nodes) : Option Header :=
  if (sim.nodes node).sync.dag.miningParents = [] then none
  else searchNonce pow (sim.template node) nonceTries 0

variable [HeaderHash] [TxCodec] [Evm] [Trie] [FeeRule] [Signer]

/-- Mines one block on a node's current tips. -/
def mineOne (pow : PowHash) (node : Fin config.nodes) : Except ExecutionError (Simulation config) :=
  match sim.minedHeader pow node with
  | none => .ok sim
  | some header =>
    let made := makeTransactions node config.txsPerBlock sim
    let sim := { made.1 with mined := made.1.mined + 1 }
    let done := (sim.nodes node).sync.onLocalBlock ⟨header, made.2⟩
    ((sim.setSync node done.1).dispatch node done.2).noteChanges node

/-- Handles one event. -/
def handle (pow : PowHash) : EventKind config.nodes → Except ExecutionError (Simulation config)
  | .deliver receiver sender message =>
    let sim := { sim with delivered := sim.delivered + 1 }
    let done := (sim.nodes receiver).sync.onMessage sender.val message sim.nowMs
    ((sim.setSync receiver done.1).dispatch receiver done.2).noteChanges receiver
  | .mine node =>
    -- always rescheduled, also while mining is suspended
    if sim.miningEnabled then (sim.mineOne pow node).map fun sim => sim.scheduleNextMine node
    else .ok (sim.scheduleNextMine node)
  | .tick node =>
    let done := (sim.nodes node).sync.onTick sim.nowMs
    .ok (((sim.setSync node done.1).dispatch node done.2).scheduleTick node)

end Blocks

/-! ### Runs -/

section Run

variable [HeaderHash] [Trie] [FeeRule] [CodeHash] [Signer]

/-- A funded account of the genesis allocation. -/
def fundedAccount : GenesisAccount := ⟨walletBalanceWei, none, none, none⟩

/-- Every node starts from the same genesis allocation. -/
def genesisAlloc (config : SimConfig) : Map Address GenesisAccount :=
  (List.range (config.nodes * walletsPerNode)).foldl
    (fun alloc index =>
      alloc.insert (Wallet.fromIndex (UInt64.ofNat index)).address fundedAccount) ∅

/-- An address of twenty equal bytes. -/
def repeatByte (byte : ℕ) : Address := Fin.ofNat _ ((List.range 20).foldl (fun n _ => n * 256 + byte) 0)

/-- A node at the start, over a genesis state. -/
def newNode (pow : PowHash) (config : SimConfig) (genesisState : WorldState)
    (i : Fin config.nodes) : SimNode where
  sync := .new (.new simGenesis config.k config.mergesetLimit) (structureAndPow pow)
    ⟨4096, 2000, simGenesis.hash⟩
  executor := .new testnet1bps genesisState simGenesis.hash
  bodies := ∅
  -- distinct, so that two nodes mining on the same tips at the same instant make different blocks
  miner := repeatByte (i.val % 255 + 1)
  nonces := ∅
  wallets j := Wallet.fromIndex (UInt64.ofNat (i.val * walletsPerNode + j.val))

/-- Nodes that have not met. -/
def initial (pow : PowHash) (config : SimConfig) (genesisState : WorldState) :
    Simulation config where
  nodes := newNode pow config genesisState
  queue := .empty
  rng := .new config.seed
  nowMs := genesisMs
  dropped := 0
  delivered := 0
  mined := 0
  reorgs := 0
  deepestReorg := 0
  miningEnabled := true
  lastChangeMs := genesisMs
  propagation := ∅
  delays := []

omit [HeaderHash] [Trie] [FeeRule] [CodeHash] [Signer] in
/-- One node connects to another. -/
def connect (sim : Simulation config) (i j : Fin config.nodes) : Simulation config :=
  let done := (sim.nodes i).sync.onConnect j.val
  (sim.setSync i done.1).dispatch i done.2

omit [HeaderHash] [Trie] [FeeRule] [CodeHash] [Signer] in
/-- Every node connects to every other. -/
def connectAll (sim : Simulation config) : Simulation config :=
  ((List.finRange config.nodes).flatMap fun i =>
    ((List.finRange config.nodes).filter fun j => i ≠ j).map fun j => (i, j)).foldl
    (fun sim pair => sim.connect pair.1 pair.2) sim

omit [HeaderHash] [Trie] [FeeRule] [CodeHash] [Signer] in
def scheduleInitialEvents (sim : Simulation config) : Simulation config :=
  (List.finRange config.nodes).foldl
    (fun sim node => (sim.scheduleNextMine node).scheduleTick node) sim

/-- Builds a simulation with every node connected to every other. -/
def new (pow : PowHash) (config : SimConfig) : Except GenesisError (Simulation config) :=
  (WorldState.loadGenesis (genesisAlloc config)).map fun genesisState =>
    (initial pow config genesisState).connectAll.scheduleInitialEvents

variable [TxCodec] [Evm] (pow : PowHash)

/-- The next event that is due by the deadline is handled, if there is one. -/
def turn (deadline : ℕ) (sim : Simulation config) :
    Option (Except ExecutionError (Simulation config)) :=
  match sim.queue.next with
  | none => none
  | some (event, queue) =>
    -- an event that is not due goes back to its place
    if deadline < event.time then none
    else some ({ sim with queue := queue, nowMs := event.time }.handle pow event.what)

/-- The loop of `run_for`, for at most `n` events. There is no answer if events are left. -/
def runUntil (deadline : ℕ) : ℕ → Simulation config →
    Option (Except ExecutionError (Simulation config))
  | 0, _ => none
  | n + 1, sim =>
    match sim.turn pow deadline with
    | none => some (.ok { sim with nowMs := deadline })
    | some (.error e) => some (.error e)
    | some (.ok sim) => runUntil deadline n sim

/-- Runs for so many milliseconds of virtual time. -/
def runFor (n : ℕ) (sim : Simulation config) (durationMs : ℕ) :
    Option (Except ExecutionError (Simulation config)) :=
  sim.runUntil pow (sim.nowMs + durationMs) n

omit [HeaderHash] [Trie] [FeeRule] [CodeHash] [Signer] [TxCodec] [Evm] in
/-- How long the network must be quiet before it counts as settled. -/
def settleWindowMs (config : SimConfig) : ℕ :=
  (config.tickIntervalMs + 3 * config.link.maxLatencyMs).toNat

omit [HeaderHash] [Trie] [FeeRule] [CodeHash] [Signer] [TxCodec] [Evm] in
/-- Nothing is outstanding, and no node has accepted a block for a while. -/
def settled (sim : Simulation config) : Bool :=
  !(List.finRange config.nodes).any (fun i =>
      0 < (sim.nodes i).sync.orphans.keys.card || 0 < (sim.nodes i).sync.requested.keys.card)
    && settleWindowMs config ≤ sim.nowMs - sim.lastChangeMs

/-- The loop of `quiesce`, for at most `n` events. -/
def quiesceUntil (deadline : ℕ) : ℕ → Simulation config →
    Option (Except ExecutionError (Simulation config × Bool))
  | 0, _ => none
  | n + 1, sim =>
    if deadline ≤ sim.nowMs then some (.ok (sim, sim.settled))
    else if sim.settled then some (.ok (sim, true))
    else
      match sim.turn pow deadline with
      | none => some (.ok (sim, sim.settled))
      | some (.error e) => some (.error e)
      | some (.ok sim) => quiesceUntil deadline n sim

/-- Stops mining and runs until the network has settled, or for so many milliseconds. Tells
whether it has settled. -/
def quiesce (n : ℕ) (sim : Simulation config) (maxMs : ℕ) :
    Option (Except ExecutionError (Simulation config × Bool)) :=
  (quiesceUntil pow (sim.nowMs + maxMs) n { sim with miningEnabled := false }).map fun result =>
    result.map fun done => ({ done.1 with miningEnabled := true }, done.2)

end Run

end Simulation

/-! ### Two nodes -/

namespace TwoNodes

open Chainname.Wallet WorldState.EmptyAccount
open Sample (easyPow)

/-- A hash that tells the time and the miner. -/
scoped instance stampHash : HeaderHash :=
  ⟨fun header => Fin.ofNat _ (header.timestampMs.toNat * 2 ^ 160 + header.miner.val)⟩

/-- Wallets from account 7 on, whose transactions are encoded as their nonce. -/
scoped instance indexSigner : Signer where
  key index := Fin.ofNat _ (index.toNat + 7)
  address key := Fin.ofNat _ key.val
  sign _ tx := [UInt8.ofNat tx.nonce.toNat]

/-- Two nodes with a transaction in each block, on a link that loses a message in fifty. -/
def twoNodes : SimConfig where
  nodes := 2
  seed := 7
  k := 18
  mergesetLimit := 180
  blockIntervalMs := 1000
  link := ⟨50, 250, 20⟩
  tickIntervalMs := 500
  txsPerBlock := 1

/-- The nodes after five and a half seconds. -/
def ran : Option (Simulation twoNodes) :=
  match Simulation.new easyPow twoNodes with
  | .error _ => none
  | .ok sim => (sim.runFor easyPow 300 5500).bind Except.toOption

end TwoNodes

end Chainname.Testkit
