import Chainname.Ghostdag.BluePast
import Chainname.Library.Numbering
import Chainname.Rpc.Backend
import Chainname.Rpc.Json

/-!
# Logs and receipts over RPC

Two methods report logs. `getLogs` scans the blocks of a range and numbers the logs of a block
through its transactions; `getTransactionReceipt` numbers those of one receipt.

Hashes, addresses and numbers are given as they are here, in the response they are hexadecimal
texts. One call reads one state.

The numbered logs of a block (`blockLogs`) are what a scan goes through: it keeps those that pass
the filter (`getLogs_of_accepts`).
-/

namespace Chainname

open Json (Value)

/-- An error object of the RPC. -/
structure RpcError where
  code : Int
  message : String
  deriving DecidableEq

/-- Invalid parameters. -/
def invalidParams (message : String) : RpcError := ⟨-32602, message⟩

/-- Texts of addresses and hashes, the addresses of new contracts, blooms and the text of a JSON
value, which are library code. -/
class EthPrimitives where
  parseAddress : String → Option Address
  parseB256 : String → Option B256
  /-- The contract that an account creates under a nonce. -/
  create : Address → UInt64 → Address
  logsBloom : List Log → BitVec 2048
  display : Value → String

/-- The `eth_*` methods over a node. -/
structure EthApiImpl where
  backend : NodeState
  /-- The bytes of the transactions that the node has seen. -/
  txBytes : Map B256 (List UInt8)

/-- A log, as both methods report it. -/
structure LogView where
  address : Address
  topics : List B256
  data : List UInt8
  blockHash : BlockHash
  blockNumber : ℕ
  transactionHash : B256
  transactionIndex : ℕ
  logIndex : ℕ
  removed : Bool
  deriving DecidableEq

/-- The log that is reported. -/
def LogView.log (view : LogView) : Log := ⟨view.address, view.topics, view.data⟩

/-- A log of a chain block: its transaction, the place of that, and its number. -/
def renderLog (outcome : ChainBlockOutcome) (height : ℕ) (txHash : B256) (txIndex logIndex : ℕ)
    (log : Log) : LogView where
  address := log.address
  topics := log.topics
  data := log.data
  blockHash := outcome.hash
  blockNumber := height
  transactionHash := txHash
  transactionIndex := txIndex
  logIndex := logIndex
  removed := false

/-- What a receipt says of a transaction. -/
structure TransactionReceipt where
  transactionHash : B256
  transactionIndex : ℕ
  blockHash : BlockHash
  blockNumber : ℕ
  fromAddress : Address
  toAddress : Option Address
  cumulativeGasUsed : ℕ
  gasUsed : ℕ
  contractAddress : Option Address
  logs : List LogView
  logsBloom : BitVec 2048
  status : Bool
  effectiveGasPrice : ℕ
  type : ℕ
  /-- Blue-score depth: how deep the block is buried. -/
  blueScoreDepth : ℕ
  deriving DecidableEq

section Parse

variable [EthPrimitives]

/-- An address, if the value is the text of one. -/
def asAddress (value : Value) : Option Address := value.asStr.bind EthPrimitives.parseAddress

/-- A hash, if the value is the text of one. -/
def asB256 (value : Value) : Option B256 := value.asStr.bind EthPrimitives.parseB256

/-- Parses a filter's `address` field, which may be absent, one address, or a list. -/
def parseAddresses : Option Value → List Address
  | none | some .null => []
  | some (.string one) => (EthPrimitives.parseAddress one).toList
  | some (.array many) => many.filterMap asAddress
  | _ => []

/-- The constraint of one position. `none` means any topic; a position may list alternatives. -/
def parseTopic : Value → Option (List B256)
  | .null => none
  | .string one => (EthPrimitives.parseB256 one).map fun topic => [topic]
  | .array many => some (many.filterMap asB256)
  | _ => none

/-- Parses a filter's `topics` field into the constraints of the positions. -/
def parseTopics : Option Value → List (Option (List B256))
  | some (.array positions) => positions.map parseTopic
  | _ => []

/-- The log's topics satisfy the constraints of the positions. -/
def topicsMatch (wanted : List (Option (List B256))) (actual : List B256) : Bool :=
  wanted.zipIdx.all fun entry =>
    match entry.1 with
    | none => true
    | some allowed =>
      match actual[entry.2]? with
      | none => false
      | some topic => allowed.contains topic

/-- The log passes both filters. No address at all stands for every address. -/
def logMatches (addresses : List Address) (topics : List (Option (List B256))) (log : Log) :
    Bool :=
  (addresses.isEmpty || addresses.contains log.address) && topicsMatch topics log.topics

end Parse

namespace EthApiImpl

section Methods

variable [EthPrimitives]

/-- Resolves a block tag or number to a selected-chain height. -/
def resolveHeight (api : EthApiImpl) : Option Value → Except RpcError ℕ
  | none => .ok api.backend.executor.height
  | some .null => .ok api.backend.executor.height
  | some (.string tag) =>
    -- nothing is final on this chain, so these tags mean the tip
    if tag = "latest" ∨ tag = "pending" ∨ tag = "safe" ∨ tag = "finalized" then
      .ok api.backend.executor.height
    else if tag = "earliest" then .ok 0
    else (Json.parseHeight tag).elim (.error (invalidParams ("bad block tag " ++ tag))) .ok
  | some (.number n) => n.asU64.elim (.error (invalidParams "block number out of range")) .ok
  | some (.object entries) =>
    -- an object without a number, such as one with a block hash, means the tip as well
    match (Value.object entries).get "blockNumber" with
    | some (.string n) => (Json.parseHeight n).elim (.error (invalidParams "bad blockNumber")) .ok
    | _ => .ok api.backend.executor.height
  | some other =>
    .error (invalidParams ("unsupported block parameter " ++ EthPrimitives.display other))

/-- The logs of one transaction, behind a counter that runs through the block. -/
def scanReceipt (addresses : List Address) (topics : List (Option (List B256)))
    (outcome : ChainBlockOutcome) (height : ℕ) (st : ℕ × List LogView) (entry : Receipt × ℕ) :
    ℕ × List LogView :=
  let txHash := outcome.transactionHashes[entry.2]?.getD 0
  entry.1.logs.foldl (fun st log =>
    -- a log takes its number whether or not it is wanted
    (st.1 + 1,
      if logMatches addresses topics log then
        st.2 ++ [renderLog outcome height txHash entry.2 st.1 log]
      else st.2)) st

/-- The logs of one block, if there is one at the height. -/
def scanBlock (api : EthApiImpl) (addresses : List Address) (topics : List (Option (List B256)))
    (out : List LogView) (height : ℕ) : List LogView :=
  match api.backend.executor.results.lookup height with
  | none => out
  | some outcome =>
    -- the counter is set back for every block
    (outcome.receipts.zipIdx.foldl (scanReceipt addresses topics outcome height) (0, out)).2

/-- The most blocks, less one, that are scanned. -/
def maxRange : ℕ := 10000

/-- Logs matching a filter. -/
def getLogs (api : EthApiImpl) (filter : Value) : Except RpcError (List LogView) :=
  let tip := api.backend.executor.height
  match api.resolveHeight (filter.get "fromBlock") with
  | .error e => .error e
  | .ok lo =>
    match api.resolveHeight (filter.get "toBlock") with
    | .error e => .error e
    | .ok hi =>
      -- both bounds are cut at the tip before they are compared
      let first := min lo tip
      let last := min hi tip
      if last < first then .error (invalidParams "fromBlock is after toBlock")
      else if maxRange < last - first then
        .error (invalidParams ("block range " ++ toString (last - first) ++ " exceeds the "
          ++ toString maxRange ++ " block limit"))
      else
        let addresses := parseAddresses (filter.get "address")
        let topics := parseTopics (filter.get "topics")
        .ok ((List.range' first (last + 1 - first)).foldl (api.scanBlock addresses topics) [])

end Methods

section Receipts

variable [EthPrimitives] [TxCodec]

/-- The sender, the account called, and the contract created by a transaction. The sender is
zero where the bytes are missing or do not decode, and where the signature does not recover. -/
def parties (api : EthApiImpl) (hash : B256) : Address × Option Address × Option Address :=
  match api.txBytes.lookup hash with
  | none => (0, none, none)
  | some bytes =>
    match TxCodec.decode2718 bytes with
    | .error _ => (0, none, none)
    | .ok envelope =>
      let signer := (TxCodec.recoverSigner envelope).toOption.getD 0
      let tx := (TxCodec.recovered envelope signer).tx
      match tx.kind with
      | some address => (signer, some address, none)
      | none => (signer, none, some (EthPrimitives.create signer tx.nonce))

/-- The gas used by the transactions before a place of the block. -/
def previousCumulative (outcome : ChainBlockOutcome) (index : ℕ) : ℕ :=
  if index = 0 then 0 else outcome.receipts[index - 1]?.elim 0 Receipt.cumulativeGasUsed

/-- How much higher the tip scores than a block. -/
def blueDepth (api : EthApiImpl) (hash : BlockHash) : ℕ :=
  api.backend.dag.blueScore api.backend.dag.virtualSelectedParent - api.backend.dag.blueScore hash

/-- The receipt of an executed transaction. -/
def getTransactionReceipt (api : EthApiImpl) (hash : B256) : Option TransactionReceipt :=
  (api.backend.receipt hash).map fun (location, receipt, outcome) =>
    { transactionHash := hash
      transactionIndex := location.index
      blockHash := outcome.hash
      blockNumber := location.height
      fromAddress := (api.parties hash).1
      toAddress := (api.parties hash).2.1
      cumulativeGasUsed := receipt.cumulativeGasUsed
      gasUsed := receipt.cumulativeGasUsed - previousCumulative outcome location.index
      contractAddress := (api.parties hash).2.2
      -- numbered through this receipt only
      logs := receipt.logs.zipIdx.map fun entry =>
        renderLog outcome location.height hash location.index entry.2 entry.1
      logsBloom := EthPrimitives.logsBloom receipt.logs
      status := receipt.status
      effectiveGasPrice := outcome.baseFeePerGas
      type := 2
      blueScoreDepth := api.blueDepth outcome.hash }

end Receipts

/-! ### The logs of a block -/

/-- A numbered log of a chain block. -/
def viewLog (outcome : ChainBlockOutcome) (height : ℕ) (numbered : Numbering.Numbered Log) :
    LogView :=
  renderLog outcome height (outcome.transactionHashes[numbered.group]?.getD 0) numbered.group
    numbered.index numbered.item

/-- The logs of a chain block, numbered through its transactions. -/
def outcomeLogs (outcome : ChainBlockOutcome) (height : ℕ) : List LogView :=
  (Numbering.number 0 0 (outcome.receipts.map Receipt.logs)).map (viewLog outcome height)

/-- The logs of the block at a height. -/
def blockLogs (api : EthApiImpl) (height : ℕ) : List LogView :=
  (api.backend.executor.results.lookup height).elim [] fun outcome => outcomeLogs outcome height

theorem map_log_outcomeLogs (outcome : ChainBlockOutcome) (height : ℕ) :
    (outcomeLogs outcome height).map LogView.log = outcome.receipts.flatMap Receipt.logs := by
  unfold outcomeLogs
  rw [List.map_map]
  exact Numbering.map_item_number 0 0 _

section Scan

variable {api : EthApiImpl} {addresses : List Address} {topics : List (Option (List B256))}

theorem scanBlock_eq (out : List LogView) (height : ℕ) :
    api.scanBlock addresses topics out height
      = out ++ (api.blockLogs height).filter fun view => logMatches addresses topics view.log := by
  unfold scanBlock blockLogs
  cases api.backend.executor.results.lookup height with
  | none => exact (List.append_nil out).symm
  | some outcome =>
    -- the two loops over a block are those of a numbering
    have hloop := Numbering.foldl_number (logMatches addresses topics) (viewLog outcome height)
      Receipt.logs 0 0 out outcome.receipts
    refine (congrArg Prod.snd hloop).trans ?_
    show _ = out ++ (outcomeLogs outcome height).filter _
    unfold outcomeLogs
    rw [List.filter_map]
    rfl

/-- **A scan** keeps what passes the filter. -/
theorem foldl_scanBlock (heights : List ℕ) (out : List LogView) :
    heights.foldl (api.scanBlock addresses topics) out
      = out ++ (heights.flatMap api.blockLogs).filter fun view =>
          logMatches addresses topics view.log := by
  induction heights generalizing out with
  | nil => exact (List.append_nil out).symm
  | cons height heights ih =>
    rw [List.foldl_cons, ih, scanBlock_eq, List.flatMap_cons, List.filter_append,
      List.append_assoc]

/-- The heights that are scanned for a range. -/
def scanned (api : EthApiImpl) (lo hi : ℕ) : List ℕ :=
  let first := min lo api.backend.executor.height
  List.range' first (min hi api.backend.executor.height + 1 - first)

theorem mem_scanned {lo hi height : ℕ} :
    height ∈ api.scanned lo hi ↔ min lo api.backend.executor.height ≤ height ∧
      height ≤ min hi api.backend.executor.height := by
  unfold scanned
  rw [List.mem_range'_1]
  omega

variable [EthPrimitives]

/-- The filter is accepted, with bounds that it resolves to. -/
structure Accepts (api : EthApiImpl) (filter : Value) (lo hi : ℕ) : Prop where
  lower : api.resolveHeight (filter.get "fromBlock") = .ok lo
  upper : api.resolveHeight (filter.get "toBlock") = .ok hi
  ordered : min lo api.backend.executor.height ≤ min hi api.backend.executor.height
  in_range : min hi api.backend.executor.height - min lo api.backend.executor.height ≤ maxRange

/-- The log passes the tests that are made for the filter. -/
def passes (filter : Value) (log : Log) : Bool :=
  logMatches (parseAddresses (filter.get "address")) (parseTopics (filter.get "topics")) log

variable {filter : Value} {lo hi : ℕ} {logs : List LogView}

/-- **What an accepted filter returns.** -/
theorem getLogs_of_accepts (h : api.Accepts filter lo hi) :
    api.getLogs filter = .ok (((api.scanned lo hi).flatMap api.blockLogs).filter fun view =>
      passes filter view.log) := by
  unfold getLogs
  rw [h.lower, h.upper]
  dsimp only
  rw [if_neg (Nat.not_lt.mpr h.ordered), if_neg (Nat.not_lt.mpr h.in_range), foldl_scanBlock,
    List.nil_append]
  rfl

/-- No other filter returns logs. -/
theorem accepts_of_getLogs (h : api.getLogs filter = .ok logs) :
    ∃ lo hi, api.Accepts filter lo hi := by
  unfold getLogs at h
  dsimp only at h
  -- each error of the source is excluded in turn
  split at h
  · cases h
  · next lo hlower =>
    split at h
    · cases h
    · next hi hupper =>
      split at h
      · cases h
      · next hordered =>
        split at h
        · cases h
        · next hrange =>
          exact ⟨lo, hi, hlower, hupper, Nat.not_lt.mp hordered, Nat.not_lt.mp hrange⟩

end Scan

end EthApiImpl

/-! ### A node to evaluate on -/

namespace Events

open Sample
open Wallet (call funded)

/-- An EVM for plain calls that send nothing, each of which emits a log. -/
scoped instance emittingEvm : Evm where
  transact params ctx beneficiary tx s :=
    (Wallet.walletEvm.transact params ctx beneficiary tx s).map fun ran =>
      ({ ran.1 with logs := [⟨8, [], []⟩] }, ran.2)
  loaded := Wallet.walletEvm.loaded

scoped instance emittingTrie : Trie := Wallet.walletTrie

scoped instance emittingFees : FeeRule := Wallet.walletFees

scoped instance emittingCodec : TxCodec := Wallet.walletCodec

/-- Primitives that read no text. -/
scoped instance noTexts : EthPrimitives :=
  ⟨fun _ => none, fun _ => none, fun _ _ => 0, fun _ => 0, fun _ => ""⟩

/-- A block of two calls. -/
def twoCalls : BackendCall := .addBlock (block 1 [0] 0x2000ffff) [(call 0).tx, (call 1).tx]

/-- A node that has executed two calls in a block. -/
def node : EthApiImpl := ⟨(NodeState.new Sample.params root funded 2).step twoCalls, ∅⟩

end Events

end Chainname
