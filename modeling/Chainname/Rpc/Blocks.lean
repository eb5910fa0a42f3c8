import Chainname.Rpc.Logs
import Chainname.Rpc.TxIndex

/-!
# Blocks and transactions over RPC

A block of the selected chain is reported by number and by hash, with the hashes of its
transactions or with the transactions themselves; a transaction is reported by its hash, mined or
pending. Together with receipts these are what an explorer of the chain reads, and it reads them
one call at a time: what it has been told of a block by one method has to fit what another tells.

Here is what the methods report, and what it is to fit together: for blocks (`BlocksFit`) and for
their transactions (`TransactionsFit`). The first holds as soon as the results are a stack over the
selected chain of the tip (`blocksFit`).

Numbers and hashes are given as they are here, in the response they are hexadecimal texts.
-/

namespace Chainname

open Json (Value)

/-! ### What the methods report -/

/-- The type byte of a signed transaction, which is library code. -/
class TxType [TxCodec] where
  ty : TxCodec.Envelope → ℕ

/-- A transaction, as it is reported. -/
structure TransactionView where
  hash : B256
  nonce : UInt64
  /-- The chain block that executed it, `none` while it is pending. -/
  blockHash : Option BlockHash
  blockNumber : Option ℕ
  transactionIndex : Option ℕ
  fromAddress : Address
  toAddress : Option Address
  value : B256
  gas : ℕ
  gasPrice : ℕ
  maxFeePerGas : ℕ
  maxPriorityFeePerGas : ℕ
  input : List UInt8
  chainId : Option ℕ
  type : ℕ
  accessList : List Address
  v : ℕ
  r : ℕ
  s : ℕ
  deriving DecidableEq

/-- The transactions of a block: all of each, or the hashes. -/
inductive BlockTransactions where
  | full (transactions : List TransactionView)
  | hashes (hashes : List B256)
  deriving DecidableEq

/-- A block, as it is reported. -/
structure BlockView where
  number : ℕ
  hash : BlockHash
  parentHash : BlockHash
  nonce : UInt64
  sha3Uncles : B256
  logsBloom : BitVec 2048
  transactionsRoot : B256
  stateRoot : B256
  receiptsRoot : B256
  miner : Address
  difficulty : ℕ
  totalDifficulty : ℕ
  mixHash : B256
  extraData : List UInt8
  size : ℕ
  gasLimit : ℕ
  gasUsed : ℕ
  timestamp : ℕ
  baseFeePerGas : ℕ
  transactions : BlockTransactions
  uncles : List BlockHash
  blueScore : ℕ
  deriving DecidableEq

section Render

variable [TxCodec] [TxType]

/-- Renders a transaction. -/
def renderTransaction (envelope : TxCodec.Envelope) (blockHash : Option BlockHash)
    (blockNumber index : Option ℕ) : TransactionView :=
  let signer := (TxCodec.recoverSigner envelope).toOption.getD 0
  let recovered := TxCodec.recovered envelope signer
  { hash := recovered.tx.hash
    nonce := recovered.tx.nonce
    blockHash := blockHash
    blockNumber := blockNumber
    transactionIndex := index
    fromAddress := signer
    toAddress := recovered.tx.kind
    value := recovered.tx.value
    gas := recovered.tx.gasLimit
    gasPrice := recovered.tx.maxFeePerGas
    maxFeePerGas := recovered.tx.maxFeePerGas
    maxPriorityFeePerGas := recovered.tx.maxPriorityFeePerGas.getD 0
    input := recovered.tx.input
    chainId := recovered.chainId
    type := TxType.ty envelope
    accessList := []
    v := 0
    r := 0
    s := 0 }

namespace EthApiImpl

/-- The envelope of a transaction, if there are bytes for it and they decode. -/
def envelopeOf (api : EthApiImpl) (hash : B256) : Option TxCodec.Envelope :=
  (api.txBytes.lookup hash).bind fun bytes => (TxCodec.decode2718 bytes).toOption

/-- The transactions of a chain block. One whose bytes are missing or do not decode is left out
where they are given in full. -/
def renderTransactions (api : EthApiImpl) (outcome : ChainBlockOutcome) (height : ℕ) :
    Bool → BlockTransactions
  | true => .full (outcome.transactionHashes.zipIdx.filterMap fun entry =>
      (api.envelopeOf entry.1).map fun envelope =>
        renderTransaction envelope (some outcome.hash) (some height) (some entry.2))
  | false => .hashes outcome.transactionHashes

variable [EthPrimitives]

/-- Renders a selected-chain block. -/
def renderBlock (api : EthApiImpl) (height : ℕ) (full : Bool) : Option BlockView :=
  (api.backend.executor.results.lookup height).map fun outcome =>
    let header := api.backend.dag.headers.lookup outcome.hash
    let data := api.backend.dag.data.lookup outcome.hash
    { number := height
      hash := outcome.hash
      parentHash := header.elim 0 fun _ => data.elim 0 GhostdagData.selectedParent
      nonce := header.elim 0 Header.nonce
      sha3Uncles := emptyRootHash
      logsBloom := outcome.receipts.foldl
        (fun bloom receipt => bloom ||| EthPrimitives.logsBloom receipt.logs) 0
      transactionsRoot := header.elim emptyRootHash Header.txsRoot
      stateRoot := outcome.stateRoot
      receiptsRoot := outcome.receiptsRoot
      miner := outcome.miner
      difficulty := header.elim 0 headerWork
      totalDifficulty := data.elim 0 GhostdagData.blueWork
      mixHash := outcome.hash
      extraData := []
      size := 0
      gasLimit := api.backend.params.blockGasLimit
      gasUsed := outcome.gasUsed
      timestamp := outcome.timestampSecs
      baseFeePerGas := outcome.baseFeePerGas
      transactions := api.renderTransactions outcome height full
      uncles := []
      blueScore := header.elim 0 fun _ => data.elim 0 GhostdagData.blueScore }

/-- A selected-chain block by number. -/
def getBlockByNumber (api : EthApiImpl) (block : Value) (full : Option Bool) :
    Except RpcError (Option BlockView) :=
  match api.resolveHeight (some block) with
  | .error e => .error e
  | .ok height => .ok (api.renderBlock height (full.getD false))

/-- A selected-chain block by hash. -/
def getBlockByHash (api : EthApiImpl) (hash : BlockHash) (full : Option Bool) :
    Option BlockView :=
  ((List.range (api.backend.executor.height + 1)).find? fun height =>
    (api.backend.executor.results.lookup height).any fun outcome => outcome.hash = hash).bind
      fun height => api.renderBlock height (full.getD false)

/-- A transaction by hash, mined or pending. -/
def getTransactionByHash (api : EthApiImpl) (hash : B256) : Option TransactionView :=
  (api.envelopeOf hash).map fun envelope =>
    let location := api.backend.txIndex.lookup hash
    renderTransaction envelope (location.map TxLocation.chainBlock)
      (location.map TxLocation.height) (location.map TxLocation.index)

end EthApiImpl

end Render

/-! ### A node that keeps the bytes -/

/-- What is asked of a node. A block comes with the bytes of its transactions. -/
inductive NodeCall where
  | submitRaw (encoded : List UInt8)
  | addBlock (header : Header) (transactions : List ChainTx) (encoded : List (List UInt8))

/-- The call, without the bytes of a block. -/
def NodeCall.plain : NodeCall → BackendCall
  | .submitRaw encoded => .submitRaw encoded
  | .addBlock header transactions _ => .addBlock header transactions

/-- The bytes that come with a block are those of its transactions, one after the other. -/
def NodeCall.Encoded [TxCodec] : NodeCall → Prop
  | .submitRaw _ => True
  | .addBlock _ transactions encoded => List.Forall₂
      (fun tx bytes => ∃ recovered, NodeState.recover bytes = .ok recovered ∧ recovered.tx = tx)
      transactions encoded

namespace EthApiImpl

/-- Keeps the bytes of transactions under their hashes. -/
def noteBytes (txBytes : Map B256 (List UInt8)) (transactions : List ChainTx)
    (encoded : List (List UInt8)) : Map B256 (List UInt8) :=
  (transactions.zip encoded).foldl (fun txBytes entry => txBytes.insert entry.1.hash entry.2) txBytes

/-- A fresh node. -/
def start [HeaderHash] [Trie] [FeeRule] (params : ChainParams) (genesis : Header)
    (genesisState : WorldState) (k : UInt16) : EthApiImpl :=
  ⟨NodeState.new params genesis genesisState k, ∅⟩

section Calls

variable [HeaderHash] [TxCodec] [Evm] [Trie] [FeeRule]

/-- One call, with the bytes that are kept. -/
def step (api : EthApiImpl) : NodeCall → EthApiImpl
  | .submitRaw encoded =>
    let submitted := api.backend.submitRaw encoded
    ⟨submitted.1, submitted.2.toOption.elim api.txBytes fun hash => api.txBytes.insert hash encoded⟩
  | .addBlock header transactions encoded =>
    ⟨(api.backend.addBlock header transactions).1,
      -- kept once the DAG has the block, whether or not it can be executed
      if (api.backend.dag.addBlock header).2.isOk then noteBytes api.txBytes transactions encoded
      else api.txBytes⟩

/-- The bytes make no difference to what a call does. -/
theorem backend_step (api : EthApiImpl) (call : NodeCall) :
    (api.step call).backend = api.backend.step call.plain := by
  cases call with
  | submitRaw encoded => rfl
  | addBlock header transactions encoded => rfl

end Calls

/-! ### What fits together -/

section Fit

variable [TxCodec] [TxType] [EthPrimitives]

/-- The block that is reported for a number. -/
def Serves (api : EthApiImpl) (height : ℕ) (full : Bool) (view : BlockView) : Prop :=
  api.getBlockByNumber (.number (.posInt height)) (some full) = .ok (some view)

/-- The blocks that are reported are one chain, by number and by hash. -/
structure BlocksFit (api : EthApiImpl) : Prop where
  /-- There is a block at every height up to the tip. -/
  served : ∀ height ≤ api.backend.executor.height, ∀ full, ∃ view, api.Serves height full view
  above : ∀ height full, api.backend.executor.height < height →
    api.getBlockByNumber (.number (.posInt height)) (some full) = .ok none
  /-- A block is found by its hash as well, and no other block is. -/
  numbered : ∀ height full view, api.Serves height full view →
    view.number = height ∧ api.getBlockByHash view.hash (some full) = some view
  hashed : ∀ hash full view, api.getBlockByHash hash (some full) = some view →
    view.hash = hash ∧ api.Serves view.number full view
  /-- Every block names the one below, and adds to its score and to its work. -/
  linked : ∀ height full view child, api.Serves height full view →
    api.Serves (height + 1) full child →
    child.parentHash = view.hash ∧ view.blueScore < child.blueScore ∧
      U256.saturatingAdd view.totalDifficulty child.difficulty ≤ child.totalDifficulty

/-- The transactions of the blocks, their receipts and the transactions by hash tell the same. -/
structure TransactionsFit (api : EthApiImpl) : Prop where
  /-- A transaction is in the place of the block that its receipt names. -/
  placed : ∀ height view hashes, api.Serves height false view →
    view.transactions = .hashes hashes → ∀ i hash, hashes[i]? = some hash ↔
      ∃ r, api.getTransactionReceipt hash = some r ∧ r.blockHash = view.hash ∧
        r.blockNumber = height ∧ r.transactionIndex = i
  /-- The gas of a block is what its transactions used, and its bloom holds theirs. -/
  metered : ∀ height view hashes, api.Serves height false view →
    view.transactions = .hashes hashes → ∃ receipts : List TransactionReceipt,
      hashes.map api.getTransactionReceipt = receipts.map some ∧
      (receipts.map TransactionReceipt.gasUsed).sum = view.gasUsed ∧
      receipts.foldl (fun bloom r => bloom ||| r.logsBloom) 0 = view.logsBloom ∧
      ∀ r ∈ receipts, r.effectiveGasPrice = view.baseFeePerGas
  /-- In full, a block differs only in giving the transactions as they are given by hash. -/
  full : ∀ height view hashes, api.Serves height false view →
    view.transactions = .hashes hashes → ∃ transactions,
      hashes.map api.getTransactionByHash = transactions.map some ∧
      api.Serves height true { view with transactions := .full transactions }
  /-- What has a receipt is reported where the receipt says, anything else as pending. -/
  mined : ∀ hash r, api.getTransactionReceipt hash = some r → ∃ t,
    api.getTransactionByHash hash = some t ∧ t.hash = hash ∧ t.blockHash = some r.blockHash ∧
      t.blockNumber = some r.blockNumber ∧ t.transactionIndex = some r.transactionIndex ∧
      t.fromAddress = r.fromAddress ∧ t.toAddress = r.toAddress
  pending : ∀ hash t, api.getTransactionByHash hash = some t →
    t.hash = hash ∧ (t.blockHash = none ↔ api.getTransactionReceipt hash = none)
  /-- The pool's transactions are reported as they were submitted. -/
  pooled : ∀ hash p, api.backend.pool.byHash.lookup hash = some p → ∃ t,
    api.getTransactionByHash hash = some t ∧ t.nonce = p.nonce ∧ t.toAddress = p.tx.tx.kind ∧
      t.value = p.tx.tx.value ∧ t.gas = p.tx.tx.gasLimit

end Fit

end EthApiImpl

/-! ### The executed chain -/

namespace NodeState

section Chain

variable [HeaderHash] [Evm] {known : Set ChainTx} {n : NodeState} {height : ℕ}
  {outcome child : ChainBlockOutcome}

/-- There is a result at every height up to the tip, and at no other. -/
theorem IndexInv.lookup_isSome_iff (h : IndexInv known n) :
    (∃ outcome, n.executor.results.lookup height = some outcome) ↔ height ≤ n.executor.height := by
  obtain ⟨stack, hstands, -, -⟩ := h.stack
  rw [hstands.results.lookup]
  refine Iff.trans ?_ Nat.lt_succ_iff
  rw [← Nat.add_one, ← hstands.results.length, ← List.length_reverse, ← Option.isSome_iff_exists,
    isSome_getElem?]

/-- An executed block is in the DAG. -/
theorem IndexInv.mem_of_lookup (h : IndexInv known n)
    (hl : n.executor.results.lookup height = some outcome) : outcome.hash ∈ n.dag.headers := by
  obtain ⟨stack, hstands, hchain, -⟩ := h.stack
  rw [hstands.results.lookup] at hl
  have hon : outcome.hash ∈ n.dag.selectedParentChain n.executor.tip := by
    rw [← hchain]
    exact List.mem_map_of_mem (List.mem_reverse.mp (List.mem_of_getElem? hl))
  exact (h.valid.anc_of_mem_chain h.tip_mem hon).mem h.valid.layered.toRooted h.tip_mem

/-- No two heights have a block of the same hash. -/
theorem IndexInv.height_unique (h : IndexInv known n) {i j : ℕ} {outcome' : ChainBlockOutcome}
    (hi : n.executor.results.lookup i = some outcome)
    (hj : n.executor.results.lookup j = some outcome')
    (hhash : outcome.hash = outcome'.hash) : i = j := by
  obtain ⟨stack, hstands, hchain, -⟩ := h.stack
  rw [hstands.results.lookup] at hi hj
  -- the stack is the selected chain, which repeats no hash
  have hnodup : (stack.reverse.map ChainBlockOutcome.hash).Nodup := by
    rw [List.map_reverse, List.nodup_reverse, hchain]
    exact h.valid.nodup_chain h.tip_mem
  have hlt : i < (stack.reverse.map ChainBlockOutcome.hash).length := by
    rw [List.length_map]
    exact (List.getElem?_eq_some_iff.mp hi).1
  apply (List.getElem?_inj hlt hnodup).mp
  rw [List.getElem?_map, List.getElem?_map, hi, hj]
  exact congrArg some hhash

/-- The block above names the one below. -/
theorem IndexInv.selected_of_lookup (h : IndexInv known n) {data : GhostdagData}
    (hl : n.executor.results.lookup height = some outcome)
    (hchild : n.executor.results.lookup (height + 1) = some child)
    (hdata : n.dag.data.lookup child.hash = some data) :
    data.selectedParent = outcome.hash ∧ child.hash ≠ n.dag.genesis := by
  obtain ⟨stack, hstands, hchain, -⟩ := h.stack
  rw [hstands.results.lookup] at hl hchild
  obtain ⟨above, below, rfl⟩ := StackIndex.split_of_neighbours hl hchild
  rw [List.map_append, List.map_cons, List.map_cons] at hchain
  have hselected := h.valid.selected_of_split h.tip_mem hchain.symm
  have hbelow := (h.valid.chain_of_split h.tip_mem hchain.symm).2
  rw [hdata, Option.map_some] at hselected
  refine ⟨Option.some.inj hselected, fun hgenesis => ?_⟩
  -- the chain of genesis is genesis alone
  rw [hgenesis, DagStore.selectedParentChain_genesis] at hbelow
  exact List.cons_ne_nil _ _ (List.cons.inj hbelow).2.symm

end Chain

end NodeState

namespace EthApiImpl

/-! ### The blocks -/

section Blocks

variable [HeaderHash] [TxCodec] [TxType] [EthPrimitives] [Evm] {known : Set ChainTx}
  {api : EthApiImpl} {height : ℕ} {full : Bool} {view : BlockView}

omit [HeaderHash] [Evm] in
theorem serves_iff : api.Serves height full view ↔ api.renderBlock height full = some view := by
  unfold Serves getBlockByNumber
  refine ⟨Except.ok.inj, fun h => ?_⟩
  exact congrArg Except.ok h

/-- An outcome whose block is in the DAG, with the data that a view shows. -/
theorem view_of_serves (hindex : NodeState.IndexInv known api.backend)
    (h : api.Serves height full view) : ∃ outcome data,
      api.backend.executor.results.lookup height = some outcome ∧
      api.backend.dag.data.lookup outcome.hash = some data ∧
      view.number = height ∧ view.hash = outcome.hash ∧ view.parentHash = data.selectedParent ∧
      view.difficulty = api.backend.dag.blockWork outcome.hash ∧
      view.totalDifficulty = api.backend.dag.blueWork outcome.hash ∧
      view.blueScore = api.backend.dag.blueScore outcome.hash ∧
      view.transactions = api.renderTransactions outcome height full := by
  obtain ⟨outcome, hl, rfl⟩ := Option.map_eq_some_iff.mp (serves_iff.mp h)
  have hmem := hindex.mem_of_lookup hl
  obtain ⟨header, hheader⟩ := Maps.mem_iff_exists_lookup.mp hmem
  obtain ⟨data, hdata⟩ := Maps.mem_iff_exists_lookup.mp (hindex.valid.data_mem.mpr hmem)
  -- what the view leaves to defaults is stored, so the defaults are not read
  refine ⟨outcome, data, hl, hdata, rfl, rfl, ?_, ?_, rfl, ?_, rfl⟩
  · simp [hheader, hdata]
  · simp [DagStore.blockWork, hheader]
  · simp [DagStore.blueScore, hheader]

/-- **The block of a hash** is the one at its height. -/
theorem getBlockByHash_of_lookup (hindex : NodeState.IndexInv known api.backend)
    {outcome : ChainBlockOutcome}
    (hl : api.backend.executor.results.lookup height = some outcome) :
    api.getBlockByHash outcome.hash (some full) = api.renderBlock height full := by
  have hle : height < api.backend.executor.height + 1 :=
    Nat.lt_succ_of_le (hindex.lookup_isSome_iff.mp ⟨outcome, hl⟩)
  have hhere : (api.backend.executor.results.lookup height).any
      fun o => decide (o.hash = outcome.hash) := by simp [hl]
  unfold getBlockByHash
  cases hfind : (List.range (api.backend.executor.height + 1)).find? fun h =>
      (api.backend.executor.results.lookup h).any fun o => decide (o.hash = outcome.hash) with
  | none => exact absurd hhere (List.find?_eq_none.mp hfind height (List.mem_range.mpr hle))
  | some found =>
    -- what the search finds has the hash, so it is the block
    have hfound := List.find?_some hfind
    obtain ⟨other, hother, hhash⟩ := (Option.any_eq_true _ _).mp hfound
    obtain rfl := hindex.height_unique hother hl (of_decide_eq_true hhash)
    rfl

/-- **The blocks fit together.** -/
theorem blocksFit (hindex : NodeState.IndexInv known api.backend) : api.BlocksFit := by
  refine ⟨fun height hle full => ?_, fun height full hlt => ?_, fun height full view h => ?_,
    fun hash full view h => ?_, fun height full view child h hchild => ?_⟩
  · -- up to the tip every height has a block
    obtain ⟨outcome, hl⟩ := hindex.lookup_isSome_iff.mpr hle
    refine ⟨_, serves_iff.mpr (Option.map_eq_some_iff.mpr ⟨outcome, hl, rfl⟩)⟩
  · -- above the tip there is none, and the call returns null
    have hnone : api.backend.executor.results.lookup height = none := by
      by_contra hsome
      have hle := hindex.lookup_isSome_iff.mp (Option.ne_none_iff_exists'.mp hsome)
      exact absurd hlt (Nat.not_lt.mpr hle)
    show Except.ok (api.renderBlock height full) = .ok none
    unfold renderBlock
    rw [hnone]
    rfl
  · -- the hash of the view finds the view again
    obtain ⟨outcome, data, hl, -, hnumber, hhash, -⟩ := view_of_serves hindex h
    refine ⟨hnumber, ?_⟩
    rw [hhash, getBlockByHash_of_lookup hindex hl]
    exact serves_iff.mp h
  · -- the search has found a height, at which there is a block of this hash
    obtain ⟨height, hfind, hrender⟩ := Option.bind_eq_some_iff.mp h
    have hfound := List.find?_some hfind
    obtain ⟨outcome, hl, hhash⟩ := (Option.any_eq_true _ _).mp hfound
    have hserves : api.Serves height full view := serves_iff.mpr hrender
    obtain ⟨outcome', -, hl', -, hnumber, hview, -⟩ := view_of_serves hindex hserves
    obtain rfl := Option.some.inj (hl.symm.trans hl')
    exact ⟨hview.trans (of_decide_eq_true hhash), hnumber ▸ hserves⟩
  · -- the block above names this one as its parent and adds to its score and work
    obtain ⟨outcome, -, hl, -, -, hhash, -, -, hwork, hscore, -⟩ := view_of_serves hindex h
    obtain ⟨outcome', data, hl', hdata, -, -, hparent, hdifficulty, hwork', hscore', -⟩ :=
      view_of_serves hindex hchild
    obtain ⟨hselected, hne⟩ := hindex.selected_of_lookup hl hl' hdata
    obtain ⟨hmore, hheavier⟩ := hindex.valid.adds_to_selected hdata hne
    rw [hselected] at hmore hheavier
    refine ⟨?_, ?_, ?_⟩
    · rw [hparent, hselected, hhash]
    · rw [hscore, hscore']
      exact hmore
    · rw [hwork, hdifficulty, hwork']
      exact hheavier

end Blocks

end EthApiImpl

end Chainname
