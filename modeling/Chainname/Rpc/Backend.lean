import Chainname.Chain.Executor
import Chainname.Chain.Reorg
import Chainname.Rpc.Pool

/-!
# The node behind the RPC

A node keeps a DAG, the bodies of its blocks, the executor, the transaction pool and an index
of executed transactions. Two calls change it: a raw transaction is submitted to the pool, and a
block is added, after which execution is brought up to the DAG's selected parent chain
(`advance`) and pool and index follow.

The bytes of transactions, which are kept for queries, are left to the methods that read them.
-/

namespace Chainname

/-- The transaction codec and signature recovery, which are library code. -/
class TxCodec where
  Envelope : Type
  decode2718 : List UInt8 → Except String Envelope
  recoverSigner : Envelope → Except String Address
  recovered : Envelope → Address → RecoveredTx
  /-- The hash of a signed transaction identifies it. -/
  recovered_inj : ∀ {e e' a a'}, recoverSigner e = .ok a → recoverSigner e' = .ok a' →
    (recovered e a).tx.hash = (recovered e' a').tx.hash → recovered e a = recovered e' a'

/-- Where a transaction was executed. -/
structure TxLocation where
  /-- Selected-chain height. -/
  height : ℕ
  /-- The chain block that executed it. -/
  chainBlock : BlockHash
  /-- Index within that block's canonical order. -/
  index : ℕ
  deriving DecidableEq

/-- Everything the node knows. -/
structure NodeState where
  params : ChainParams
  dag : DagStore
  bodies : BodyStore
  executor : ChainExecutor
  pool : TxPool
  /-- Where a transaction was executed, by hash. -/
  txIndex : Map B256 TxLocation

/-- Reasons a backend operation failed. -/
inductive BackendError where
  | decode (reason : String)
  | recovery (reason : String)
  | pool (error : PoolError)
  | dag (error : DagError)
  | execution (error : ExecutionError)
  deriving DecidableEq

namespace NodeState

/-- A fresh node. -/
def new [HeaderHash] [Trie] [FeeRule] (params : ChainParams) (genesis : Header)
    (genesisState : WorldState) (k : UInt16) : NodeState where
  params := params
  dag := DagStore.new genesis k params.mergesetSizeLimit
  bodies := ∅
  executor := ChainExecutor.new params genesisState genesis.hash
  pool := .new (.new params.chainId params.blockGasLimit)
  txIndex := ∅

section Submit

variable [TxCodec] [FeeRule]

/-- Decodes a raw transaction and recovers its sender. -/
def recover (encoded : List UInt8) : Except BackendError RecoveredTx :=
  match TxCodec.decode2718 encoded with
  | .error reason => .error (.decode reason)
  | .ok envelope =>
    match TxCodec.recoverSigner envelope with
    | .error reason => .error (.recovery reason)
    | .ok signer => .ok (TxCodec.recovered envelope signer)

/-- Submits a raw transaction to the pool. -/
def submitRaw (n : NodeState) (encoded : List UInt8) : NodeState × Except BackendError B256 :=
  match recover encoded with
  | .error e => (n, .error e)
  | .ok tx =>
    let baseFee := n.executor.nextBaseFee n.executor.height
    let nonce := n.executor.state.nonce tx.tx.signer
    let balance := n.executor.state.balance tx.tx.signer
    let added := n.pool.add tx baseFee nonce balance
    ({ n with pool := added.1 }, added.2.mapError .pool)

end Submit

section Advance

variable [Evm] [Trie] [FeeRule]

/-- The reorganisation to the virtual selected parent. -/
def reorg (n : NodeState) : ChainReorg :=
  n.dag.computeReorg n.executor.tip n.dag.virtualSelectedParent

/-- Where the transactions of an executed chain block are. -/
def locations (outcome : ChainBlockOutcome) : List (B256 × TxLocation) :=
  outcome.transactionHashes.zipIdx.map fun entry =>
    (entry.1, ⟨outcome.height, outcome.hash, entry.2⟩)

/-- Index entries are written in the order of execution. -/
def indexAll (txIndex : Map B256 TxLocation) (outcomes : List ChainBlockOutcome) :
    Map B256 TxLocation :=
  (outcomes.flatMap locations).foldl (fun txIndex entry => txIndex.insert entry.1 entry.2) txIndex

/-- The executed nonces of the senders with a transaction in the pool. -/
def pooledNonces (pool : TxPool) (s : WorldState) : Map Address UInt64 :=
  (pool.hashes.filterMap fun hash => (pool.byHash.lookup hash).map PooledTx.sender).foldl
    (fun nonces sender => nonces.insert sender (s.nonce sender)) ∅

/-- The pool after blocks have been executed: what they executed is removed, and what has
become stale is pruned. -/
def settlePool (pool : TxPool) (s : WorldState) (outcomes : List ChainBlockOutcome) : TxPool :=
  let pool := (outcomes.flatMap ChainBlockOutcome.transactionHashes).foldl TxPool.remove pool
  let nonces := pooledNonces pool s
  pool.prune fun address => (nonces.lookup address).getD 0

/-- Brings execution up to the DAG's selected parent chain. -/
def advance (n : NodeState) : NodeState × Except BackendError (List ChainBlockOutcome) :=
  if n.dag.virtualSelectedParent = n.executor.tip then (n, .ok [])
  else
    -- entries of blocks leaving the chain go before these are undone
    let kept := Maps.retain (fun _ location => !n.reorg.removed.contains location.chainBlock) n.txIndex
    let applied := n.executor.applyReorg n.dag n.bodies n.reorg.removed n.reorg.added
    match applied.2 with
    | .error e => ({ n with executor := applied.1, txIndex := kept }, .error (.execution e))
    | .ok outcomes =>
      ({ n with
          executor := applied.1
          txIndex := indexAll kept outcomes
          pool := settlePool n.pool applied.1.state outcomes }, .ok outcomes)

/-- Adds a block and brings execution up to the new selected chain. -/
def addBlock [HeaderHash] (n : NodeState) (header : Header) (transactions : List ChainTx) :
    NodeState × Except BackendError (List ChainBlockOutcome) :=
  let joined := n.dag.addBlock header
  match joined.2 with
  | .error e => ({ n with dag := joined.1 }, .error (.dag e))
  | .ok _ =>
    ({ n with
      dag := joined.1
      bodies := n.bodies.insert header.hash transactions } : NodeState).advance

/-- The receipt for a transaction, with where it executed. -/
def receipt (n : NodeState) (hash : B256) : Option (TxLocation × Receipt × ChainBlockOutcome) :=
  (n.txIndex.lookup hash).bind fun location =>
  (n.executor.results.lookup location.height).bind fun outcome =>
  outcome.receipts[location.index]?.map fun receipt => (location, receipt, outcome)

end Advance

end NodeState

/-- What is asked of a node: to pool a transaction, or to add a block. -/
inductive BackendCall where
  | submitRaw (encoded : List UInt8)
  | addBlock (header : Header) (transactions : List ChainTx)

namespace NodeState

variable [HeaderHash] [TxCodec] [Evm] [Trie] [FeeRule]

/-- One call. -/
def step (n : NodeState) : BackendCall → NodeState
  | .submitRaw encoded => (n.submitRaw encoded).1
  | .addBlock header transactions => (n.addBlock header transactions).1

/-- The call returns `Ok`. -/
def Succeeds (n : NodeState) : BackendCall → Prop
  | .submitRaw encoded => (n.submitRaw encoded).2.isOk = true
  | .addBlock header transactions => (n.addBlock header transactions).2.isOk = true

/-- Execution does not fail: the call returns `Ok`, or what it sends is refused. -/
def Executes (n : NodeState) : BackendCall → Prop
  | .submitRaw _ => True
  | .addBlock header transactions =>
    ∀ e, (n.addBlock header transactions).2 ≠ .error (.execution e)

theorem Succeeds.executes {n : NodeState} {call : BackendCall} (h : n.Succeeds call) :
    n.Executes call := by
  cases call with
  | submitRaw encoded => exact trivial
  | addBlock header transactions =>
    intro e he
    change (n.addBlock header transactions).2.isOk = true at h
    rw [he] at h
    exact Bool.false_ne_true h

omit [HeaderHash] [TxCodec] in
theorem advance_error {n : NodeState} {e : BackendError} (h : n.advance.2 = .error e) :
    ∃ e', e = .execution e' := by
  unfold advance at h
  split at h
  · cases h
  · dsimp only at h
    split at h
    · exact ⟨_, (Except.error.inj h).symm⟩
    · cases h

omit [TxCodec] in
/-- **A refused block**: the DAG's refusal is all that happens. -/
theorem addBlock_of_dag_error {n : NodeState} {header : Header} {e : DagError}
    (h : (n.dag.addBlock header).2 = .error e) (transactions : List ChainTx) :
    n.addBlock header transactions = ({ n with dag := (n.dag.addBlock header).1 }, .error (.dag e)) := by
  unfold addBlock
  dsimp only
  rw [h]

/-- A block whose execution does not fail is accepted and executed, or refused by the DAG. -/
theorem Executes.cases {n : NodeState} {header : Header} {transactions : List ChainTx}
    (h : n.Executes (.addBlock header transactions)) :
    (∃ e, (n.dag.addBlock header).2 = .error e) ∨ n.Succeeds (.addBlock header transactions) := by
  cases hadd : (n.dag.addBlock header).2 with
  | error e => exact Or.inl ⟨e, rfl⟩
  | ok hash =>
    refine Or.inr ?_
    show (n.addBlock header transactions).2.isOk = true
    cases hresult : (n.addBlock header transactions).2 with
    | ok outcomes => rfl
    | error e =>
      -- the error comes from execution, which does not fail
      have hadvance := hresult
      unfold addBlock at hadvance
      dsimp only at hadvance
      rw [hadd] at hadvance
      obtain ⟨e', rfl⟩ := advance_error hadvance
      exact absurd hresult (h e')

end NodeState

/-! ### A node to evaluate on -/

namespace Wallet

open Sample

/-- The change of an account that pays for a transaction: the next nonce, and the base fee. -/
def paid (ctx : ChainBlockCtx) (info : AccountInfo) : RevmAccount where
  info := { info with
    nonce := info.nonce + 1
    balance := info.balance - B256.saturatingMul 21000 ctx.baseFeePerGas }
  code := none
  storage := ∅
  touched := true
  created := false
  selfdestructed := false
  loadedAsNotExisting := false

/-- The account can pay for the transaction, whose nonce is its own and not the last one. -/
def Payable (ctx : ChainBlockCtx) (tx : ChainTx) (info : AccountInfo) : Prop :=
  tx.nonce = info.nonce ∧ info.nonce < info.nonce + 1 ∧ ctx.baseFeePerGas ≤ tx.maxFeePerGas ∧
    TxPool.maxCost tx ≤ info.balance

instance decidablePayable (ctx : ChainBlockCtx) (tx : ChainTx) (info : AccountInfo) :
    Decidable (Payable ctx tx info) := inferInstanceAs (Decidable (_ ∧ _ ∧ _ ∧ _))

/-- An EVM for plain calls that send nothing. -/
scoped instance walletEvm : Evm where
  transact _ ctx _ tx s :=
    let info := infoOf (s.account tx.signer)
    if Payable ctx tx info then
      some (⟨true, 21000, []⟩, Finmap.singleton tx.signer (paid ctx info))
    else none
  loaded _ _ _ tx _ := {tx.signer}

scoped instance walletTrie : Trie := ⟨fun _ => 0, fun _ => 0, 0⟩

scoped instance walletFees : FeeRule := ⟨fun _ _ baseFee => baseFee, fun _ => 0, 0⟩

/-- A call of account 7 that sends nothing, under a nonce. -/
def call (nonce : ℕ) : RecoveredTx where
  tx :=
    { hash := Fin.ofNat _ nonce
      signer := 7
      nonce := UInt64.ofNat nonce
      gasLimit := 21000
      maxFeePerGas := 2000000000
      maxPriorityFeePerGas := some 0
      kind := some 8
      value := 0
      input := []
      accessList := none }
  chainId := some 7717
  blob := false

/-- Calls of account 7, encoded as a nonce in the first byte. -/
scoped instance walletCodec : TxCodec where
  Envelope := UInt8
  decode2718 bytes := bytes.head?.elim (.error "no bytes") .ok
  recoverSigner _ := .ok 7
  recovered nonce _ := call nonce.toNat
  recovered_inj := by
    intro e e' a a' _ _ h
    have hval : e.toNat % 2 ^ 256 = e'.toNat % 2 ^ 256 := congrArg Fin.val h
    have := e.toNat_lt
    have := e'.toNat_lt
    rw [Nat.mod_eq_of_lt (by omega), Nat.mod_eq_of_lt (by omega)] at hval
    rw [hval]

/-- A state in which account 7 has one ether. -/
def funded : WorldState :=
  ⟨Finmap.singleton 7 ⟨⟨Fin.ofNat _ (10 ^ 18), 0, keccak256Empty⟩, ∅⟩, ∅, ∅⟩

end Wallet

end Chainname
