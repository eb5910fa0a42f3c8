import Chainname.Consensus.Miner
import Chainname.Execution.Genesis
import Chainname.Ghostdag.Mining
import Chainname.Rpc.Pending
import Chainname.Rpc.Selection
import Chainname.Rpc.TxIndex

/-!
# A development chain

One node, whose blocks all come from its own miner. The miner names the tips as parents, fills the
block from the pool and publishes the result of the chain block that lies the deferred lag below.

As nothing else adds blocks there is one tip, and every block stands on the one before
(`IndexInv.addBlock_onTip`): the DAG is a chain and nothing is ever undone. So what a client has
been told about an executed transaction stays as it is (`history_stands`), and what a header says
about the chain below it stays true (`headers_publish_results`).

The accounts that are funded at genesis are a parameter: their addresses are derived from fixed
keys by library code.
-/

namespace Chainname

/-! ### The node -/

/-- The trie of encoded transactions, which is library code. -/
class TxsTrie where
  orderedTrieRoot : List (List UInt8) → B256

/-- The result a block at a height should publish in its header. -/
def ChainExecutor.deferredResultFor (X : ChainExecutor) (height : ℕ) : Option ChainBlockOutcome :=
  X.results.lookup (height - X.params.deferredStateRootLag)

/-- Genesis timestamp of a dev chain. -/
def devGenesisMs : UInt64 := 1700000000000

/-- Mining target of a dev chain: about 16 hashes per block. -/
def devTarget : ℕ := U256.max >>> 4

def devBits : UInt32 := CompactTarget.fromTarget devTarget

/-- Balance given to every funded account, in wei. -/
def devBalanceWei : B256 := 10000000000000000000000

/-- How many transactions a miner pulls at most. -/
def maxMinedTxs : ℕ := 512

/-- Nonces tried before a miner gives up. -/
def maxMiningAttempts : ℕ := 1000000

/-- The genesis header of a dev chain. -/
def devGenesisHeader : Header where
  version := headerVersion
  parents := []
  timestampMs := devGenesisMs
  bits := devBits
  nonce := 0
  miner := 0
  txsRoot := emptyRootHash
  deferredHeight := 0
  deferredStateRoot := 0
  deferredReceiptsRoot := emptyRootHash
  deferredGasUsed := 0

/-- The accounts of a dev chain, funded. -/
def devAlloc (accounts : List Address) : Map Address GenesisAccount :=
  accounts.foldl (fun alloc address => alloc.insert address ⟨devBalanceWei, none, none, none⟩) ∅

/-- A running dev chain. -/
structure DevNode where
  backend : NodeState
  /-- What the transactions in the pool were submitted as. -/
  encodings : Map B256 (List UInt8)
  miner : Address

/-- What is asked of a dev chain. -/
inductive DevCall where
  | submitRaw (encoded : List UInt8)
  | mineOnce (timestampMs : UInt64)

namespace DevNode

section Code

variable [HeaderHash] [TxCodec] [Evm] [Trie] [FeeRule] [TxsTrie]

omit [TxCodec] [Evm] [TxsTrie] in
/-- A dev chain with its accounts funded. -/
def new [CodeHash] (accounts : List Address) (params : ChainParams) (miner : Address) :
    Except GenesisError DevNode :=
  match WorldState.loadGenesis (devAlloc accounts) with
  | .error e => .error e
  | .ok state => .ok ⟨.new params devGenesisHeader state params.ghostdagK, ∅, miner⟩

omit [HeaderHash] [Evm] [Trie] [TxsTrie] in
/-- Submits a raw transaction, whose bytes the pool keeps. -/
def submitRaw (d : DevNode) (encoded : List UInt8) : DevNode :=
  let submitted := d.backend.submitRaw encoded
  { d with
    backend := submitted.1
    encodings := match submitted.2 with
      | .ok hash => d.encodings.insert hash encoded
      | .error _ => d.encodings }

omit [HeaderHash] [TxCodec] [Evm] [Trie] [TxsTrie] in
/-- The transactions for the next block. -/
def chosen (d : DevNode) : List PooledTx :=
  let executor := d.backend.executor
  d.backend.pool.bestTransactions (executor.nextBaseFee executor.height) maxMinedTxs

omit [HeaderHash] [TxCodec] [Evm] [Trie] in
/-- The header of the next block, before a nonce has been found. -/
def template (d : DevNode) (timestampMs : UInt64) : Header :=
  let encoded := d.chosen.map fun pooled => (d.encodings.lookup pooled.hash).getD []
  let deferred := d.backend.executor.deferredResultFor (d.backend.executor.height + 1)
  d.backend.dag.minedHeader
    { version := headerVersion
      parents := []
      timestampMs := timestampMs
      bits := devBits
      nonce := 0
      miner := d.miner
      txsRoot := if encoded = [] then emptyRootHash else TxsTrie.orderedTrieRoot encoded
      deferredHeight := deferred.elim 0 fun result => UInt64.ofNat result.height
      deferredStateRoot := deferred.elim 0 ChainBlockOutcome.stateRoot
      deferredReceiptsRoot := deferred.elim emptyRootHash ChainBlockOutcome.receiptsRoot
      deferredGasUsed := deferred.elim 0 fun result => UInt64.ofNat result.gasUsed }

omit [HeaderHash] [TxCodec] [Evm] [Trie] in
/-- The header that is mined, if a nonce is found in time. -/
def solved (pow : PowHash) (d : DevNode) (timestampMs : UInt64) : Option Header :=
  if d.backend.dag.miningParents = [] then none
  else
    (firstSolution pow (d.template timestampMs) 0 devTarget maxMiningAttempts).map fun attempt =>
      attempted (d.template timestampMs) 0 attempt

omit [TxCodec] in
/-- Mines one block of the best transactions from the pool. -/
def mineOnce (pow : PowHash) (d : DevNode) (timestampMs : UInt64) : DevNode × Option BlockHash :=
  match d.solved pow timestampMs with
  | none => (d, none)
  | some header =>
    let added := d.backend.addBlock header (d.chosen.map fun pooled => pooled.tx.tx)
    ({ d with backend := added.1 },
      match added.2 with
      | .ok _ => some header.hash
      -- a mined block that is refused is reported as none
      | .error _ => none)

/-- One call. -/
def step (pow : PowHash) (d : DevNode) : DevCall → DevNode
  | .submitRaw encoded => d.submitRaw encoded
  | .mineOnce timestampMs => (d.mineOnce pow timestampMs).1

end Code

end DevNode

/-! ### A block on the only tip -/

namespace DagStore

variable [HeaderHash] {D : DagStore} {header : Header} {p : BlockHash}

omit [HeaderHash] in
/-- The miner of a store with one tip names this tip. -/
theorem miningParents_of_tips (htips : D.tips = {p}) : D.miningParents = [p] := by
  have hkeys : (Maps.sortedKeys D.tips : Multiset BlockHash) = [p] := by
    rw [Maps.coe_sortedKeys, htips]
    rfl
  have hsorted : D.sortedTips = [p] :=
    List.perm_singleton.mp ((List.perm_insertionSort _ _).trans (Multiset.coe_eq_coe.mp hkeys))
  have hperm := miningParents_perm D
  rw [hsorted] at hperm
  exact List.perm_singleton.mp hperm

/-- A store after a block has joined on its only tip. -/
structure Tops (p : BlockHash) (header : Header) (D D' : DagStore) : Prop where
  headers : D'.headers = D.headers.insert header.hash header
  tips : D'.tips = {header.hash}
  selected : D'.virtualSelectedParent = header.hash
  chain : D'.selectedParentChain header.hash = header.hash :: D.selectedParentChain p
  divergence : D'.divergence p header.hash = 1
  reorg : D'.computeReorg p header.hash = ⟨[], [header.hash]⟩

/-- **A block on the only tip** becomes the only tip, and prolongs the chain. -/
theorem Valid.addBlock_tops (hD : D.Valid) (htips : D.tips = {p}) (hparents : header.parents = [p])
    (hnew : header.hash ∉ D.headers) :
    (D.addBlock header).2 = .ok header.hash ∧ Tops p header D (D.addBlock header).1 := by
  -- the parent is the only tip, so the block is on top of everything
  have hp : p ∈ D.headers := (hD.mem_tips.mp (htips ▸ Finset.mem_singleton_self p)).1
  obtain ⟨hok, hontop⟩ := hD.addBlock_onTop hparents hp hnew
  obtain ⟨hchain, -, -⟩ := hD.onTop_facts hparents hp hnew
  have hvalid := hD.addBlock header
  have hagree := hD.addBlock_agree header
  have hmem : header.hash ∈ (D.addBlock header).1.headers := by
    rw [hontop.headers]
    exact Finmap.mem_insert.mpr (Or.inl rfl)
  -- the new block replaces its parent as the only tip
  have htips' : (D.addBlock header).1.tips = {header.hash} := by
    rw [hontop.tips, htips, Finset.erase_singleton]
    rfl
  -- the chain of the new block is the parent's with it in front
  have hchain' : (D.addBlock header).1.selectedParentChain header.hash
      = header.hash :: (D.addBlock header).1.selectedParentChain p := by
    rw [hchain, hagree.selectedParentChain_eq hp]
  refine ⟨hok, hontop.headers, htips', ?_, hchain, hvalid.divergence_child hmem hchain',
    hvalid.computeReorg_child (hagree.mem' hp) hmem hchain'⟩
  exact Finset.mem_singleton.mp (htips' ▸ hvalid.virtualSelectedParent_mem)

end DagStore

/-! ### What the pool offers and admits -/

namespace TxPool

/-- A candidate is held. -/
theorem held_of_candidate {pool : TxPool} {taken : Map Address ℕ} {sender : Address}
    {nonces : Map UInt64 B256} {p : PooledTx} (h : pool.candidate taken sender nonces = some p) :
    ∃ b, pool.byHash.lookup b = some p := by
  obtain ⟨entry, -, hl⟩ := Option.bind_eq_some_iff.mp h
  exact ⟨entry.2, hl⟩

/-- The best head is held. -/
theorem held_of_bestHead {pool : TxPool} {baseFee : ℕ} {taken : Map Address ℕ}
    {chosen : PooledTx × Address} (h : pool.bestHead baseFee taken = some chosen) :
    ∃ b, pool.byHash.lookup b = some chosen.1 := by
  obtain ⟨-, hbest⟩ := isBest_bestHead pool baseFee taken
  obtain ⟨head, -, hhead⟩ := List.mem_filterMap.mp (hbest chosen h).1
  obtain ⟨p, hcandidate, rfl⟩ := Option.map_eq_some_iff.mp hhead
  exact held_of_candidate hcandidate

/-- What is offered to a miner is held. -/
theorem held_of_mem_bestTransactions {pool : TxPool} {baseFee limit : ℕ} {p : PooledTx}
    (h : p ∈ pool.bestTransactions baseFee limit) : ∃ b, pool.byHash.lookup b = some p := by
  -- whatever was taken before, the head chosen is held by hash
  have hall : ∀ (limit : ℕ) (taken : Map Address ℕ), p ∈ pool.takeBest baseFee limit taken →
      ∃ b, pool.byHash.lookup b = some p := by
    intro limit
    induction limit with
    | zero => exact fun _ h => absurd h List.not_mem_nil
    | succ limit ih =>
      intro taken h
      unfold takeBest at h
      split at h
      · exact absurd h List.not_mem_nil
      · next chosen sender hhead =>
        obtain rfl | h := List.mem_cons.mp h
        · exact held_of_bestHead hhead
        · exact ih _ h
  exact hall limit ∅ h

/-- What is admitted has passed the checks. -/
theorem passes_of_add_ok {pool : TxPool} {tx : RecoveredTx} {baseFee : ℕ} {accountNonce : UInt64}
    {accountBalance b : B256} (h : (pool.add tx baseFee accountNonce accountBalance).2 = .ok b) :
    pool.Passes tx accountNonce accountBalance := by
  have houtcome : AddOutcome pool tx baseFee accountNonce accountBalance
      (pool.add tx baseFee accountNonce accountBalance) := add_outcome
  generalize pool.add tx baseFee accountNonce accountBalance = added at h houtcome
  cases houtcome with
  | refused => cases h
  | underpriced => cases h
  | joined hpasses => exact hpasses
  | replaced _ hpasses => exact hpasses

end TxPool

namespace NodeState

section OnTip

variable [HeaderHash] [TxCodec] [Evm] [Trie] [FeeRule] {known : Set ChainTx} {n : NodeState}
  {header : Header} {transactions : List ChainTx}

/-- There is one tip, which the executor is at, and every block is on its chain. -/
structure Linear (n : NodeState) : Prop where
  tips : n.dag.tips = {n.executor.tip}
  covers : ∀ b ∈ n.dag.headers, b ∈ n.dag.selectedParentChain n.executor.tip

/-- What adding a block on top does: one outcome goes on top of the others, and the pool follows. -/
structure Builds (n : NodeState) (header : Header) (transactions : List ChainTx)
    (outcome : ChainBlockOutcome) : Prop where
  result : (n.addBlock header transactions).2 = .ok [outcome]
  hash : outcome.hash = header.hash
  tip : (n.addBlock header transactions).1.executor.tip = header.hash
  params : (n.addBlock header transactions).1.executor.params = n.executor.params
  headers : (n.addBlock header transactions).1.dag.headers
    = n.dag.headers.insert header.hash header
  chain : (n.addBlock header transactions).1.dag.selectedParentChain header.hash
    = header.hash :: n.dag.selectedParentChain n.executor.tip
  height : (n.addBlock header transactions).1.executor.height = n.executor.height + 1
  results : ∀ height, (n.addBlock header transactions).1.executor.results.lookup height
    = if height = n.executor.height + 1 then some outcome else n.executor.results.lookup height
  pool : (n.addBlock header transactions).1.pool
    = settlePool n.pool (n.addBlock header transactions).1.executor.state [outcome]

omit [TxCodec] in
/-- The walk from the old tip finds the new block alone, so that it is all that is executed. -/
theorem addBlock_of_tops {X : ChainExecutor} {outcome : ChainBlockOutcome}
    (hok : n.dag.addBlock header = ((n.dag.addBlock header).1, .ok header.hash))
    (htops : DagStore.Tops n.executor.tip header n.dag (n.dag.addBlock header).1)
    (hne : header.hash ≠ n.executor.tip)
    (hexec : n.executor.executeChainBlock (n.dag.addBlock header).1
      (n.bodies.insert header.hash transactions) header.hash = (X, .ok outcome)) :
    n.addBlock header transactions = ({ n with
      dag := (n.dag.addBlock header).1
      bodies := n.bodies.insert header.hash transactions
      executor := X
      txIndex := indexAll (Maps.retain (fun _ location => !([] : List BlockHash).contains
        location.chainBlock) n.txIndex) [outcome]
      pool := settlePool n.pool X.state [outcome] }, .ok [outcome]) := by
  unfold NodeState.addBlock
  dsimp only
  rw [hok]
  dsimp only
  unfold NodeState.advance reorg
  dsimp only
  rw [htops.selected, if_neg hne, htops.reorg]
  unfold ChainExecutor.applyReorg ChainExecutor.undoAll ChainExecutor.executeAll
  dsimp only
  rw [hexec]
  rfl

/-- **A block on the only tip** is selected and executed, and nothing is undone. -/
theorem IndexInv.addBlock_onTip (hevm : NonceGuarded) (hknown : Set.InjOn ChainTx.hash known)
    (h : IndexInv known n) (hlinear : Linear n) (hparents : header.parents = [n.executor.tip])
    (hnew : header.hash ∉ n.dag.headers) (htxs : ∀ tx ∈ transactions, tx ∈ known) :
    ∃ outcome, Builds n header transactions outcome ∧
      Linear (n.addBlock header transactions).1 ∧
      IndexInv known (n.addBlock header transactions).1 := by
  obtain ⟨hok, htops⟩ := h.valid.addBlock_tops hlinear.tips hparents hnew
  have hbodies : ∀ source, ∀ tx ∈ BodyStore.get (n.bodies.insert header.hash transactions) source,
      tx ∈ known := by
    intro source tx htx
    obtain hcarried | hstored := BodyStore.mem_get_insert htx
    · exact htxs tx hcarried
    · exact h.bodies source tx hstored
  have hmem : header.hash ∈ (n.dag.addBlock header).1.headers := by
    rw [htops.headers]
    exact Finmap.mem_insert.mpr (Or.inl rfl)
  obtain ⟨stack, hstands, -, -⟩ := h.stack
  obtain ⟨X, outcome, hexec, hX, hhash, htip, -, hparams⟩ :=
    hstands.executeChainBlock hevm hknown h.parallel hbodies hmem
  have hne : header.hash ≠ n.executor.tip := fun he => hnew (he ▸ h.tip_mem)
  have hrun := addBlock_of_tops (Prod.ext rfl hok) htops hne hexec
  have hsucceeds : n.Succeeds (.addBlock header transactions) := by
    show (n.addBlock header transactions).2.isOk = true
    rw [hrun]
    rfl
  have hreach : n.InReach (.addBlock header transactions) := by
    show _ ≤ maxReorgWalk
    rw [htops.selected, htops.divergence]
    exact Nat.le_of_ble_eq_true rfl
  have hinv : IndexInv known (n.step (.addBlock header transactions)) :=
    h.step hevm hknown (by simpa [transactionsOf] using htxs) hsucceeds.executes hreach
  obtain ⟨-, hfails⟩ | ⟨outcome', -, -, X', -, hexec', -, hresults, hheight, -, -⟩ :=
    ChainExecutor.executeChainBlock_cases n.executor (n.dag.addBlock header).1
      (n.bodies.insert header.hash transactions) header.hash
  · rw [hexec] at hfails
    cases (Prod.mk.inj hfails).2
  obtain ⟨rfl, hsame⟩ := Prod.mk.inj (hexec.symm.trans hexec')
  obtain rfl := Except.ok.inj hsame
  have hafter := congrArg Prod.fst hrun
  refine ⟨outcome, ⟨congrArg Prod.snd hrun, hhash, ?_, ?_, ?_, ?_, ?_, fun height => ?_, ?_⟩, ?_, hinv⟩
  · rw [hafter]
    exact htip
  · rw [hafter]
    exact hparams
  · rw [hafter]
    exact htops.headers
  · rw [hafter]
    exact htops.chain
  · rw [hafter]
    exact hheight
  · rw [hafter]
    exact (congrArg (·.lookup height) hresults).trans (Maps.lookup_insert _ _ _ _)
  · rw [hafter]
  · rw [hafter]
    refine ⟨htops.tips.trans (congrArg _ htip.symm), fun b hb => ?_⟩
    show b ∈ (n.dag.addBlock header).1.selectedParentChain X.tip
    rw [htip, htops.chain]
    obtain rfl | hb := Finmap.mem_insert.mp (htops.headers ▸ hb)
    · exact List.mem_cons_self
    · exact List.mem_cons_of_mem _ (hlinear.covers b hb)

end OnTip

end NodeState

namespace DevNode

/-! ### What a dev chain keeps -/

section Inv

variable [HeaderHash] [TxCodec] [Evm] [Trie] [FeeRule] [TxsTrie] {pow : PowHash} {d : DevNode}

/-- The transactions that have been decoded and whose sender was recovered. -/
def recoveredTxs : Set ChainTx := {tx | ∃ r, NodeState.IsRecovered r ∧ r.tx = tx}

omit [HeaderHash] [Evm] [Trie] [FeeRule] [TxsTrie] in
theorem injOn_recoveredTxs : Set.InjOn ChainTx.hash recoveredTxs := by
  rintro _ ⟨r, hr, rfl⟩ _ ⟨r', hr', rfl⟩ he
  exact congrArg RecoveredTx.tx (hr.ext hr' he)

/-- A header publishes a result. -/
structure Publishes (header : Header) (result : ChainBlockOutcome) : Prop where
  height : header.deferredHeight = UInt64.ofNat result.height
  stateRoot : header.deferredStateRoot = result.stateRoot
  receiptsRoot : header.deferredReceiptsRoot = result.receiptsRoot
  gasUsed : header.deferredGasUsed = UInt64.ofNat result.gasUsed

/-- What is in the pool is as it should be: recovered, under its hash, and not stale. -/
structure Pooled (n : NodeState) : Prop where
  keyed : n.pool.Keyed
  recovered : ∀ b p, n.pool.byHash.lookup b = some p → NodeState.IsRecovered p.tx
  current : ∀ b p, n.pool.byHash.lookup b = some p →
    ¬ p.nonce < n.executor.state.nonce p.sender

/-- The invariant of a dev chain. -/
structure Inv (d : DevNode) : Prop where
  index : NodeState.IndexInv recoveredTxs d.backend
  linear : NodeState.Linear d.backend
  pooled : Pooled d.backend

omit [HeaderHash] [Evm] [Trie] [TxsTrie] in
/-- A submission that is admitted is recovered and not stale. -/
theorem Pooled.submitRaw {n : NodeState} (h : Pooled n) (encoded : List UInt8) :
    Pooled (n.submitRaw encoded).1 := by
  have hexecutor := n.executor_submitRaw encoded
  -- an entry after the call is an old one, or the transaction just admitted
  have hcases : ∀ {b p}, (n.submitRaw encoded).1.pool.byHash.lookup b = some p →
      p.hash = b ∧ NodeState.IsRecovered p.tx ∧ ¬ p.nonce < n.executor.state.nonce p.sender := by
    intro b p hl
    unfold NodeState.submitRaw at hl
    cases hrecover : NodeState.recover encoded with
    | error e =>
      rw [hrecover] at hl
      exact ⟨h.keyed b p hl, h.recovered b p hl, h.current b p hl⟩
    | ok tx =>
      rw [hrecover] at hl
      -- admission has compared its nonce with the state
      obtain ⟨hok, rfl, rfl⟩ | hl := TxPool.lookup_of_lookup_add hl
      · exact ⟨rfl, NodeState.isRecovered_recover hrecover,
          UInt64.not_lt.mpr (TxPool.passes_of_add_ok hok).nonce⟩
      · exact ⟨h.keyed b p hl, h.recovered b p hl, h.current b p hl⟩
  refine ⟨fun b p hl => (hcases hl).1, fun b p hl => (hcases hl).2.1, fun b p hl => ?_⟩
  rw [hexecutor]
  exact (hcases hl).2.2

omit [HeaderHash] [Evm] [Trie] [FeeRule] [TxsTrie] in
/-- What the pool keeps when a block has been executed is not stale. -/
theorem Pooled.settle {n n' : NodeState} (h : Pooled n) {outcomes : List ChainBlockOutcome}
    (hpool : n'.pool = NodeState.settlePool n.pool n'.executor.state outcomes) : Pooled n' := by
  have hkept : ∀ {b p}, n'.pool.byHash.lookup b = some p → n.pool.byHash.lookup b = some p ∧
      ¬ p.nonce < n'.executor.state.nonce p.sender := by
    intro b p hl
    rw [hpool, NodeState.lookup_settlePool h.keyed] at hl
    exact ⟨hl.1, hl.2.2⟩
  exact ⟨fun b p hl => h.keyed b p (hkept hl).1, fun b p hl => h.recovered b p (hkept hl).1,
    fun b p hl => (hkept hl).2⟩

omit [HeaderHash] [TxCodec] [Evm] [Trie] in
/-- A header that is found is the template with a nonce. -/
theorem solved_eq_some {timestampMs : UInt64} {header : Header}
    (h : d.solved pow timestampMs = some header) :
    ∃ attempt, header = attempted (d.template timestampMs) 0 attempt := by
  unfold solved at h
  split at h
  · cases h
  · obtain ⟨attempt, -, rfl⟩ := Option.map_eq_some_iff.mp h
    exact ⟨attempt, rfl⟩

omit [HeaderHash] [Evm] [Trie] [TxsTrie] in
/-- What is chosen for a block is recovered. -/
theorem Pooled.chosen (h : Pooled d.backend) {tx : ChainTx}
    (hmem : tx ∈ d.chosen.map fun pooled => pooled.tx.tx) : tx ∈ recoveredTxs := by
  obtain ⟨p, hp, rfl⟩ := List.mem_map.mp hmem
  obtain ⟨b, hl⟩ := TxPool.held_of_mem_bestTransactions hp
  exact ⟨p.tx, h.recovered b p hl, rfl⟩

/-- A mined block is executed on top. -/
structure Mined (pow : PowHash) (d : DevNode) (timestampMs : UInt64) (header : Header)
    (outcome : ChainBlockOutcome) : Prop where
  solved : d.solved pow timestampMs = some header
  fresh : header.hash ∉ d.backend.dag.headers
  result : (d.mineOnce pow timestampMs).2 = some header.hash
  backend : (d.mineOnce pow timestampMs).1.backend
    = (d.backend.addBlock header (d.chosen.map fun pooled => pooled.tx.tx)).1
  builds : NodeState.Builds d.backend header (d.chosen.map fun pooled => pooled.tx.tx) outcome

/-- **What mining does.** Without a nonce, or if the hash of the header is taken, it does nothing
and says so; any other block is executed on top. -/
theorem Inv.mineOnce_cases (hevm : NonceGuarded) (h : Inv d) (pow : PowHash)
    (timestampMs : UInt64) :
    (d.mineOnce pow timestampMs = (d, none) ∧
      ∀ header, d.solved pow timestampMs = some header → header.hash ∈ d.backend.dag.headers) ∨
    ∃ header outcome, Mined pow d timestampMs header outcome ∧
      Inv (d.mineOnce pow timestampMs).1 := by
  cases hsolved : d.solved pow timestampMs with
  -- no header was found
  | none =>
    refine Or.inl ⟨?_, nofun⟩
    unfold mineOnce
    rw [hsolved]
  | some header =>
    by_cases hmem : header.hash ∈ d.backend.dag.headers
    · -- the header is stored already, and refused
      refine Or.inl ⟨?_, fun header' he => Option.some.inj he ▸ hmem⟩
      unfold mineOnce NodeState.addBlock DagStore.addBlock
      rw [hsolved]
      dsimp only
      rw [if_pos hmem]
    · -- a new header: it is on the tip, and its block is executed
      obtain ⟨attempt, hheader⟩ := solved_eq_some hsolved
      have hparents : header.parents = [d.backend.executor.tip] := by
        rw [hheader]
        exact DagStore.miningParents_of_tips h.linear.tips
      obtain ⟨outcome, hbuilds, hlinear, hindex⟩ := h.index.addBlock_onTip hevm injOn_recoveredTxs
        h.linear hparents hmem fun tx htx => h.pooled.chosen htx
      -- so `mineOnce` reports it
      have hrun : d.mineOnce pow timestampMs = ({ d with
          backend := (d.backend.addBlock header (d.chosen.map fun pooled => pooled.tx.tx)).1 },
          some header.hash) := by
        unfold mineOnce
        rw [hsolved]
        dsimp only
        rw [hbuilds.result]
      refine Or.inr ⟨header, outcome, ⟨hsolved, hmem, ?_, ?_, hbuilds⟩, ?_⟩
      · rw [hrun]
      · rw [hrun]
      · rw [hrun]
        exact ⟨hindex, hlinear, h.pooled.settle hbuilds.pool⟩

omit [HeaderHash] [Evm] [Trie] [TxsTrie] in
/-- A submission changes the pool alone. -/
theorem exists_submitRaw_eq (d : DevNode) (encoded : List UInt8) :
    ∃ pool, (d.submitRaw encoded).backend = { d.backend with pool := pool } := by
  obtain ⟨hsame, -⟩ | ⟨tx, baseFee, nonce, balance, -, hadd⟩ := d.backend.submitRaw_cases encoded
  · exact ⟨d.backend.pool, hsame⟩
  · exact ⟨_, congrArg Prod.fst hadd⟩

omit [TxsTrie] [Trie] in
theorem Inv.submitRaw (h : Inv d) (encoded : List UInt8) : Inv (d.submitRaw encoded) := by
  have hpooled : Pooled (d.submitRaw encoded).backend := h.pooled.submitRaw encoded
  obtain ⟨pool, heq⟩ := d.exists_submitRaw_eq encoded
  refine ⟨?_, ?_, hpooled⟩
  · rw [heq]
    exact ⟨h.index.valid, h.index.tip_mem, h.index.parallel, h.index.bodies, h.index.stack⟩
  · rw [heq]
    exact ⟨h.linear.tips, h.linear.covers⟩

/-- **Every call keeps the invariant.** -/
theorem Inv.step (hevm : NonceGuarded) (h : Inv d) (call : DevCall) : Inv (d.step pow call) := by
  cases call with
  | submitRaw encoded => exact h.submitRaw encoded
  | mineOnce timestampMs =>
    obtain ⟨hsame, -⟩ | ⟨_, _, -, hinv⟩ := h.mineOnce_cases hevm pow timestampMs
    · show Inv (d.mineOnce pow timestampMs).1
      rw [hsame]
      exact h
    · exact hinv

omit [TxCodec] [Evm] [TxsTrie] in
/-- The invariant holds of a new dev chain. -/
theorem inv_new [TxCodec] [Evm] [CodeHash] {accounts : List Address} {params : ChainParams}
    {miner : Address} (hnew : DevNode.new accounts params miner = .ok d) :
    Inv d ∧ d.backend.executor.params = params ∧ d.backend.executor.height = 0 := by
  unfold DevNode.new at hnew
  -- the start: one genesis block, an empty pool
  cases hload : WorldState.loadGenesis (devAlloc accounts) with
  | error e =>
    rw [hload] at hnew
    cases hnew
  | ok state =>
    rw [hload] at hnew
    obtain rfl := Except.ok.inj hnew
    refine ⟨⟨NodeState.indexInv_new params devGenesisHeader state params.ghostdagK, ⟨rfl, ?_⟩,
      TxPool.keyed_new _, fun _ _ h => (nomatch h), fun _ _ h => (nomatch h)⟩, rfl, rfl⟩
    -- genesis is on its own selected chain
    intro b hb
    obtain rfl := (Finmap.mem_singleton _ _ _).mp hb
    show _ ∈ (DagStore.new devGenesisHeader params.ghostdagK
      params.mergesetSizeLimit).selectedParentChain (DagStore.new devGenesisHeader params.ghostdagK
      params.mergesetSizeLimit).genesis
    rw [DagStore.selectedParentChain_genesis]
    exact List.mem_singleton_self _

/-! ### What a client can rely on -/

/-- What a dev chain is in every state. -/
structure DevChain (d : DevNode) : Prop where
  /-- There is one tip, and every block is on its chain. -/
  linear : NodeState.Linear d.backend
  /-- The chain is executed up to the tip. -/
  executed : ∀ height, (d.backend.executor.results.lookup height).map ChainBlockOutcome.hash
    = (d.backend.dag.selectedParentChain d.backend.dag.virtualSelectedParent).reverse[height]?
  index : NodeState.IndexMirrorsChain d.backend
  /-- What is pending has not been executed, and can be. -/
  pending : ∀ b p, d.backend.pool.byHash.lookup b = some p →
    d.backend.txIndex.lookup b = none ∧ d.backend.executor.state.nonce p.sender ≤ p.nonce

/-- What has been told in one state is told in another. -/
structure Keeps (d d' : DevNode) : Prop where
  headers : ∀ b header, d.backend.dag.headers.lookup b = some header →
    d'.backend.dag.headers.lookup b = some header
  chain : ∃ newer, d'.backend.dag.selectedParentChain d'.backend.executor.tip
    = newer ++ d.backend.dag.selectedParentChain d.backend.executor.tip
  results : ∀ height outcome, d.backend.executor.results.lookup height = some outcome →
    d'.backend.executor.results.lookup height = some outcome
  receipts : ∀ hash told, d.backend.receipt hash = some told →
    d'.backend.receipt hash = some told

omit [HeaderHash] [TxCodec] [Evm] [Trie] [FeeRule] [TxsTrie] in
theorem Keeps.refl (d : DevNode) : Keeps d d :=
  ⟨fun _ _ h => h, ⟨[], rfl⟩, fun _ _ h => h, fun _ _ h => h⟩

omit [HeaderHash] [TxCodec] [Evm] [Trie] [FeeRule] [TxsTrie] in
theorem Keeps.trans {d d' d'' : DevNode} (h : Keeps d d') (h' : Keeps d' d'') : Keeps d d'' := by
  obtain ⟨newer, hchain⟩ := h.chain
  obtain ⟨newest, hchain'⟩ := h'.chain
  refine ⟨fun b header hl => h'.headers b header (h.headers b header hl),
    ⟨newest ++ newer, by rw [hchain', hchain, List.append_assoc]⟩,
    fun height outcome hl => h'.results height outcome (h.results height outcome hl),
    fun hash told ht => h'.receipts hash told (h.receipts hash told ht)⟩

omit [TxCodec] [FeeRule] [TxsTrie] [HeaderHash] [Trie] in
/-- Where the results of one state are results of another, and the indexes mirror both, a receipt
of the one is a receipt of the other. -/
theorem receipt_of_results [TxCodec] [HeaderHash] {n n' : NodeState} (h : n.IndexMirrorsChain)
    (h' : n'.IndexMirrorsChain)
    (hresults : ∀ height outcome, n.executor.results.lookup height = some outcome →
      n'.executor.results.lookup height = some outcome)
    {hash : B256} {told : TxLocation × Receipt × ChainBlockOutcome}
    (ht : n.receipt hash = some told) : n'.receipt hash = some told := by
  unfold NodeState.receipt at ht ⊢
  obtain ⟨location, hl, ht⟩ := Option.bind_eq_some_iff.mp ht
  obtain ⟨outcome, hout, ht⟩ := Option.bind_eq_some_iff.mp ht
  obtain ⟨outcome', hout', hhash, hat⟩ := (h.mirrors hash location).mp hl
  -- the entry points to a result that is still there, so the other index has it too
  have hl' : n'.txIndex.lookup hash = some location :=
    (h'.mirrors hash location).mpr ⟨outcome', hresults _ _ hout', hhash, hat⟩
  rw [hl', Option.bind_some, hresults _ _ hout, Option.bind_some]
  exact ht

omit [FeeRule] [TxsTrie] [Trie] in
theorem Inv.devChain (h : Inv d) : DevChain d := by
  obtain ⟨stack, hstands, hchain, hmirrors⟩ := h.index.stack
  -- the executor stands at the one tip
  have hselected : d.backend.dag.virtualSelectedParent = d.backend.executor.tip :=
    Finset.mem_singleton.mp (h.linear.tips ▸ h.index.valid.virtualSelectedParent_mem)
  have hindex := h.index.indexMirrorsChain
  refine ⟨h.linear, fun height => ?_, hindex, fun b p hl => ⟨?_, ?_⟩⟩
  · -- the outcome of a height is that of the chain's block there
    rw [hselected, ← hchain, hstands.results.lookup, ← List.map_reverse, List.getElem?_map]
  · -- what is in the index has been executed, so its nonce has been used
    by_contra hsome
    obtain ⟨location, hlocation⟩ := Option.ne_none_iff_exists'.mp hsome
    obtain ⟨outcome, hout, -, hat⟩ := (hindex.mirrors b location).mp hlocation
    rw [hstands.results.lookup] at hout
    have hexecuted : b ∈ stack.flatMap ChainBlockOutcome.transactionHashes :=
      List.mem_flatMap.mpr ⟨outcome, List.mem_reverse.mp (List.mem_of_getElem? hout),
        List.mem_of_getElem? hat⟩
    -- executed with a nonce below the account's, pooled with one not below it
    obtain ⟨_, ⟨r, hr, rfl⟩, hhash, hlt⟩ := hstands.now.spent b hexecuted
    obtain rfl := hr.ext (h.pooled.recovered b p hl) (hhash.trans (h.pooled.keyed b p hl).symm)
    exact h.pooled.current b p hl hlt
  · exact UInt64.not_lt.mp (h.pooled.current b p hl)

/-- **Nothing is taken back** by a call. -/
theorem Inv.keeps (hevm : NonceGuarded) (h : Inv d) (call : DevCall) :
    Keeps d (d.step pow call) := by
  cases call with
  | submitRaw encoded =>
    obtain ⟨pool, heq⟩ := d.exists_submitRaw_eq encoded
    have hsame : (d.step pow (.submitRaw encoded)).backend = { d.backend with pool := pool } := heq
    refine ⟨fun b header hl => ?_, ⟨[], ?_⟩, fun height outcome hl => ?_, fun hash told ht => ?_⟩
    · rw [hsame]
      exact hl
    · rw [hsame]
      rfl
    · rw [hsame]
      exact hl
    · rw [hsame]
      exact ht
  | mineOnce timestampMs =>
    obtain ⟨hsame, -⟩ | ⟨header, outcome, hmined, hinv⟩ :=
      h.mineOnce_cases hevm pow timestampMs
    · show Keeps d (d.mineOnce pow timestampMs).1
      rw [hsame]
      exact .refl d
    · have hbackend : (d.step pow (.mineOnce timestampMs)).backend = _ := hmined.backend
      obtain ⟨stack, hstands, -, -⟩ := h.index.stack
      -- the new outcome lies above all others
      have hresults : ∀ height old, d.backend.executor.results.lookup height = some old →
          (d.step pow (.mineOnce timestampMs)).backend.executor.results.lookup height = some old := by
        intro height old hl
        have hlt : height < d.backend.executor.height + 1 := by
          rw [hstands.results.lookup] at hl
          rw [← hstands.results.length, ← List.length_reverse]
          exact (List.getElem?_eq_some_iff.mp hl).1
        rw [hbackend, hmined.builds.results, if_neg (Nat.ne_of_lt hlt), hl]
      refine ⟨fun b old hl => ?_, ⟨[header.hash], ?_⟩, hresults, fun hash told ht => ?_⟩
      · rw [hbackend, hmined.builds.headers, Maps.lookup_insert, if_neg ?_, hl]
        rintro rfl
        exact hmined.fresh (Maps.mem_of_lookup hl)
      · rw [hbackend, hmined.builds.tip, hmined.builds.chain]
        rfl
      · exact receipt_of_results h.index.indexMirrorsChain hinv.index.indexMirrorsChain hresults ht

/-- **A dev chain only grows**, if the EVM guards nonces. In every state there is one tip, the chain
is executed up to it, and the index mirrors it; blocks, results and receipts of a state are those
of every later one; and mining puts a block on top, unless no nonce is found or the hash of the
header is taken. -/
theorem history_stands [CodeHash] (hevm : NonceGuarded) (pow : PowHash) {accounts : List Address}
    {params : ChainParams} {miner : Address} {start : DevNode}
    (hnew : DevNode.new accounts params miner = .ok start) (calls : List DevCall) :
    Runs.Throughout (step pow) DevChain start calls ∧
    (∀ earlier later, calls = earlier ++ later →
      Keeps (Runs.after (step pow) start earlier) (Runs.after (step pow) start calls)) ∧
    ∀ timestampMs, let d := Runs.after (step pow) start calls
      (d.mineOnce pow timestampMs = (d, none) ∧
        ∀ header, d.solved pow timestampMs = some header →
          header.hash ∈ d.backend.dag.headers) ∨
      ∃ header outcome, Mined pow d timestampMs header outcome := by
  obtain ⟨hstart, -, -⟩ := inv_new hnew
  -- every call keeps the invariant of the dev chain
  have hstep : ∀ d (call : DevCall), Inv d → Inv (d.step pow call) := fun d call h => h.step hevm call
  have hall : ∀ calls, Inv (Runs.after (step pow) start calls) := fun calls =>
    (Runs.throughout_of_step hstep hstart).last
  refine ⟨?_, ?_, fun timestampMs => ?_⟩
  · exact (Runs.throughout_of_step hstep hstart).imp fun d h => h.devChain
  · -- what an earlier state has published, every later one has too
    rintro earlier later rfl
    rw [Runs.after_append]
    exact Runs.after_rel Keeps.refl Keeps.trans hstep (fun d call h => h.keeps hevm call)
      (hall earlier) later
  · -- the next mining, from the state reached
    exact ((hall calls).mineOnce_cases hevm pow timestampMs).imp_right
      fun ⟨header, outcome, hmined, _⟩ => ⟨header, outcome, hmined⟩

/-! ### What headers say -/

/-- Every executed header publishes the result that lies the deferred lag below it. -/
def Published (d : DevNode) : Prop :=
  ∀ height outcome, d.backend.executor.results.lookup (height + 1) = some outcome →
    ∃ header result, d.backend.dag.headers.lookup outcome.hash = some header ∧
      d.backend.executor.results.lookup
        (height + 1 - d.backend.executor.params.deferredStateRootLag) = some result ∧
      result.height = height + 1 - d.backend.executor.params.deferredStateRootLag ∧
      Publishes header result

omit [HeaderHash] [TxCodec] [Evm] [Trie] in
/-- A mined header publishes what the executor has for it. -/
theorem publishes_of_solved {timestampMs : UInt64} {header : Header} {result : ChainBlockOutcome}
    (h : d.solved pow timestampMs = some header)
    (hresult : d.backend.executor.deferredResultFor (d.backend.executor.height + 1) = some result) :
    Publishes header result := by
  obtain ⟨attempt, rfl⟩ := solved_eq_some h
  unfold attempted template
  rw [hresult]
  exact ⟨rfl, rfl, rfl, rfl⟩

/-- **Every call keeps what headers say.** -/
theorem Published.step (hevm : NonceGuarded) (h : Inv d) (hpublished : Published d)
    (hlag : 0 < d.backend.executor.params.deferredStateRootLag) (call : DevCall) :
    Published (d.step pow call) ∧
      (d.step pow call).backend.executor.params = d.backend.executor.params := by
  cases call with
  | submitRaw encoded =>
    obtain ⟨pool, heq⟩ := d.exists_submitRaw_eq encoded
    have hsame : (d.step pow (.submitRaw encoded)).backend = { d.backend with pool := pool } := heq
    unfold Published
    rw [hsame]
    exact ⟨hpublished, rfl⟩
  | mineOnce timestampMs =>
    obtain ⟨hsame, -⟩ | ⟨header, outcome, hmined, -⟩ := h.mineOnce_cases hevm pow timestampMs
    · show Published (d.mineOnce pow timestampMs).1 ∧ _
      rw [show d.step pow (.mineOnce timestampMs) = d from congrArg Prod.fst hsame, hsame]
      exact ⟨hpublished, rfl⟩
    have hkeeps : Keeps d (d.step pow (.mineOnce timestampMs)) := h.keeps hevm _
    have hbackend : (d.step pow (.mineOnce timestampMs)).backend = _ := hmined.backend
    have hparams : (d.step pow (.mineOnce timestampMs)).backend.executor.params
        = d.backend.executor.params := by rw [hbackend, hmined.builds.params]
    refine ⟨fun height executed hl => ?_, hparams⟩
    rw [hparams]
    rw [hbackend, hmined.builds.results] at hl
    by_cases htop : height = d.backend.executor.height
    · subst htop
      rw [if_pos rfl] at hl
      obtain rfl := Option.some.inj hl
      -- the published result lies below the new block, so it is there already
      obtain ⟨stack, hstands, -, -⟩ := h.index.stack
      have hlt : d.backend.executor.height + 1 - d.backend.executor.params.deferredStateRootLag
          < stack.reverse.length := by
        rw [List.length_reverse, hstands.results.length]
        omega
      have hresult := hstands.results.lookup
        (d.backend.executor.height + 1 - d.backend.executor.params.deferredStateRootLag)
      rw [List.getElem?_eq_getElem hlt] at hresult
      refine ⟨header, _, ?_, hkeeps.results _ _ hresult,
        hstands.results.height _ _ (List.getElem?_eq_getElem hlt),
        publishes_of_solved hmined.solved hresult⟩
      rw [hbackend, hmined.builds.headers, hmined.builds.hash]
      exact Finmap.lookup_insert _
    · rw [if_neg fun he => htop (Nat.succ.inj he)] at hl
      obtain ⟨header', result, hheader, hresult, hheight, hpublishes⟩ :=
        hpublished height executed hl
      exact ⟨header', result, hkeeps.headers _ _ hheader, hkeeps.results _ _ hresult, hheight,
        hpublishes⟩

/-- **What headers publish** of the chain below them is what this chain's own execution has for
them, in every state, if the EVM guards nonces and the parameters are valid. -/
theorem headers_publish_results [CodeHash] (hevm : NonceGuarded) (pow : PowHash)
    {accounts : List Address} {params : ChainParams} (hparams : params.validate = .ok ())
    {miner : Address} {start : DevNode} (hnew : DevNode.new accounts params miner = .ok start)
    (calls : List DevCall) : Runs.Throughout (step pow) Published start calls := by
  obtain ⟨hstart, hsame, hzero⟩ := inv_new hnew
  have hlag : 0 < start.backend.executor.params.deferredStateRootLag := by
    rw [hsame]
    exact (ChainParams.validate_ok_iff.mp hparams).lag_pos
  have hgenesis : Published start := by
    intro height outcome hl
    obtain ⟨stack, hstands, -, -⟩ := hstart.index.stack
    have hlength := hstands.results.length
    rw [hzero] at hlength
    rw [hstands.results.lookup, List.getElem?_eq_none (by rw [List.length_reverse]; omega)] at hl
    cases hl
  -- the lag is a parameter, which no call changes
  let I := fun d : DevNode =>
    Inv d ∧ Published d ∧ 0 < d.backend.executor.params.deferredStateRootLag
  have hstep : ∀ d call, I d → I (d.step pow call) := by
    rintro d call ⟨h, hpublished, hlag⟩
    obtain ⟨hnext, hkept⟩ := hpublished.step hevm h hlag call
    exact ⟨h.step hevm call, hnext, hkept ▸ hlag⟩
  have hinv : Runs.Throughout (step pow) I start calls :=
    Runs.throughout_of_step hstep ⟨hstart, hgenesis, hlag⟩
  exact hinv.imp fun d h => h.2.1

end Inv

/-! ### A dev chain with one account -/

namespace Funded

open Wallet

/-- A header hash that reads the clock, which tells the blocks of one miner apart. -/
scoped instance clockHash : HeaderHash := ⟨fun header => Fin.ofNat _ header.timestampMs.toNat⟩

scoped instance lengthTrie : TxsTrie := ⟨fun encoded => Fin.ofNat _ encoded.length⟩

scoped instance keccakOfNothing : CodeHash := ⟨fun _ => keccak256Empty⟩

/-- A dev chain that funds account 7. -/
def fundedNode : DevNode where
  backend := .new Sample.params devGenesisHeader
    ((Maps.toList (devAlloc [7])).foldl WorldState.allocate WorldState.new)
    Sample.params.ghostdagK
  encodings := ∅
  miner := 3

/-- Two transactions, each mined in a block of its own. -/
def minedTwice : List DevCall :=
  [.submitRaw [0], .mineOnce 1700000001000, .submitRaw [1], .mineOnce 1700000002000]

/-- Two transactions, mined in the first of twenty-one blocks. -/
def minedOften : List DevCall :=
  .submitRaw [0] :: .submitRaw [1] ::
    (List.range 21).map fun second => .mineOnce (1700000001000 + 1000 * UInt64.ofNat second)

/-- A dev chain twenty blocks after its transactions were mined. -/
def minedNode : DevNode := Runs.after (step Sample.easyPow) fundedNode minedOften

end Funded

open Funded Wallet in
/-- What the first of two blocks has told. -/
theorem history_stands_funded :
    Runs.Throughout (step Sample.easyPow) DevChain fundedNode minedTwice ∧
      Keeps (Runs.after (step Sample.easyPow) fundedNode (minedTwice.take 2))
        (Runs.after (step Sample.easyPow) fundedNode minedTwice) := by
  obtain ⟨hall, hkeeps, -⟩ := history_stands walletEvm_nonceGuarded Sample.easyPow
    (show DevNode.new [7] Sample.params 3 = .ok fundedNode from rfl) minedTwice
  exact ⟨hall, hkeeps (minedTwice.take 2) (minedTwice.drop 2) rfl⟩

open Funded Wallet in
/-- The last of twenty-one headers publishes what the transactions in the first block have used. -/
theorem headers_publish_results_funded :
    Runs.Throughout (step Sample.easyPow) Published fundedNode minedOften ∧
      ∃ header, minedNode.backend.dag.headers.lookup minedNode.backend.executor.tip = some header ∧
        header.deferredHeight = 1 ∧ header.deferredGasUsed = 42000 := by
  have hall := headers_publish_results walletEvm_nonceGuarded Sample.easyPow rfl
    (show DevNode.new [7] Sample.params 3 = .ok fundedNode from rfl) minedOften
  refine ⟨hall, ?_⟩
  -- what is evaluated: the last block, the lag, and what the first block has used
  have hlast : (minedNode.backend.executor.results.lookup 21).map ChainBlockOutcome.hash
      = some minedNode.backend.executor.tip := by decide +kernel
  have hlag : minedNode.backend.executor.params.deferredStateRootLag = 20 := by decide +kernel
  have hused : (minedNode.backend.executor.results.lookup 1).map ChainBlockOutcome.gasUsed
      = some 42000 := by decide +kernel
  obtain ⟨outcome, houtcome, htip⟩ := Option.map_eq_some_iff.mp hlast
  have hpublished : Published minedNode := hall.last
  obtain ⟨header, result, hheader, hresult, hheight, hpublishes⟩ := hpublished 20 outcome houtcome
  rw [hlag] at hresult hheight
  rw [hresult] at hused
  refine ⟨header, htip ▸ hheader, ?_, ?_⟩
  · rw [hpublishes.height, hheight]
    rfl
  · rw [hpublishes.gasUsed, Option.some.inj hused]
    rfl

end DevNode

end Chainname
