import Chainname.Chain.Metering
import Chainname.Rpc.Blocks
import Chainname.Rpc.Pending

/-!
# What an explorer is told

An explorer reads blocks by number and by hash, receipts, and transactions by hash, one call at a
time. What it is told fits together in every state of the node (`explorer_views`): blocks are found
by number and by hash alike and linked by parent hashes, the transactions of a block are those whose
receipts point to it, and the gas they used adds up to that of the block.

This rests on the transaction index, which mirrors the executed chain, on how receipts count gas
(`Metered`), and on the bytes of transactions: a node keeps those that come with a block or are
submitted, and so has them for all that it executes or pools (`BytesHeld`).
-/

namespace Chainname

namespace EthApiImpl

/-! ### The transactions -/

section Transactions

variable [TxCodec]

/-- The bytes are those of a transaction of this hash. -/
def EncodesHash (hash : B256) (bytes : List UInt8) : Prop :=
  ∃ tx, NodeState.recover bytes = .ok tx ∧ tx.tx.hash = hash

/-- There are bytes for every transaction that is in a body, executed or pooled. -/
structure BytesHeld (api : EthApiImpl) : Prop where
  bytes : ∀ hash bytes, api.txBytes.lookup hash = some bytes → EncodesHash hash bytes
  bodies : ∀ source, ∀ tx ∈ api.backend.bodies.get source, tx.hash ∈ api.txBytes
  executed : api.backend.executor.AllResults fun outcome =>
    ∀ hash ∈ outcome.transactionHashes, hash ∈ api.txBytes
  pooled : ∀ hash p, api.backend.pool.byHash.lookup hash = some p →
    hash ∈ api.txBytes ∧ NodeState.IsRecovered p.tx
  keyed : api.backend.pool.Keyed

variable {api : EthApiImpl} {hash : B256}

/-- What the bytes of a transaction decode to. -/
theorem BytesHeld.envelope (h : api.BytesHeld) (hmem : hash ∈ api.txBytes) :
    ∃ envelope signer, api.envelopeOf hash = some envelope ∧
      TxCodec.recoverSigner envelope = .ok signer ∧
      (TxCodec.recovered envelope signer).tx.hash = hash := by
  obtain ⟨bytes, hl⟩ := Maps.mem_iff_exists_lookup.mp hmem
  obtain ⟨tx, hrecover, hhash⟩ := h.bytes hash bytes hl
  unfold NodeState.recover at hrecover
  unfold envelopeOf
  rw [hl, Option.bind_some]
  -- bytes that `recover` accepts pass both of its steps
  split at hrecover
  · cases hrecover
  · next envelope hdecode =>
    split at hrecover
    · cases hrecover
    · next signer hsigner =>
      obtain rfl := Except.ok.inj hrecover
      refine ⟨envelope, signer, ?_, hsigner, hhash⟩
      rw [hdecode]
      rfl

/-- The parties of a transaction, as its receipt names them. -/
theorem parties_of_envelope [EthPrimitives] {envelope : TxCodec.Envelope} {signer : Address}
    (henvelope : api.envelopeOf hash = some envelope)
    (hsigner : TxCodec.recoverSigner envelope = .ok signer) :
    (api.parties hash).1 = signer ∧
      (api.parties hash).2.1 = (TxCodec.recovered envelope signer).tx.kind := by
  obtain ⟨bytes, hl, hdecode⟩ := Option.bind_eq_some_iff.mp henvelope
  have hok : TxCodec.decode2718 bytes = .ok envelope := by
    cases hd : TxCodec.decode2718 bytes with
    | error e => simp [hd, Except.toOption] at hdecode
    | ok decoded =>
      rw [hd] at hdecode
      exact congrArg Except.ok (Option.some.inj hdecode)
  unfold parties
  rw [hl]
  dsimp only
  rw [hok]
  dsimp only
  rw [hsigner]
  -- a contract creation calls nobody
  cases hkind : (TxCodec.recovered envelope signer).tx.kind with
  | none => simp [Except.toOption, hkind]
  | some address => simp [Except.toOption, hkind]

variable [TxType]

/-- **A transaction by hash**: what its bytes decode to, at the place that the index knows. -/
theorem BytesHeld.getTransactionByHash_eq (h : api.BytesHeld) (hmem : hash ∈ api.txBytes) :
    ∃ envelope signer, TxCodec.recoverSigner envelope = .ok signer ∧
      (TxCodec.recovered envelope signer).tx.hash = hash ∧ api.envelopeOf hash = some envelope ∧
      api.getTransactionByHash hash = some (renderTransaction envelope
        ((api.backend.txIndex.lookup hash).map TxLocation.chainBlock)
        ((api.backend.txIndex.lookup hash).map TxLocation.height)
        ((api.backend.txIndex.lookup hash).map TxLocation.index)) := by
  obtain ⟨envelope, signer, henvelope, hsigner, hhash⟩ := h.envelope hmem
  refine ⟨envelope, signer, hsigner, hhash, henvelope, ?_⟩
  unfold getTransactionByHash
  rw [henvelope]
  rfl

variable [EthPrimitives]

omit [TxCodec] [TxType] [EthPrimitives] in
/-- A function that is defined on a whole list. -/
theorem map_eq_map_some_filterMap {α β : Type} {f : α → Option β} {l : List α}
    (h : ∀ a ∈ l, (f a).isSome = true) : l.map f = (l.filterMap f).map some := by
  induction l with
  | nil => rfl
  | cons a l ih =>
    obtain ⟨b, hb⟩ := Option.isSome_iff_exists.mp (h a List.mem_cons_self)
    rw [List.map_cons, List.filterMap_cons_some hb, List.map_cons, hb,
      ih fun x hx => h x (List.mem_cons_of_mem a hx)]

/-- The receipt is that of a transaction in its place in a block. -/
structure ReceiptAt (api : EthApiImpl) (outcome : ChainBlockOutcome) (height index : ℕ)
    (hash : B256) (receipt : Receipt) (r : TransactionReceipt) : Prop where
  block : r.blockHash = outcome.hash
  number : r.blockNumber = height
  place : r.transactionIndex = index
  gas : r.gasUsed = receipt.cumulativeGasUsed - previousCumulative outcome index
  bloom : r.logsBloom = EthPrimitives.logsBloom receipt.logs
  price : r.effectiveGasPrice = outcome.baseFeePerGas
  parties : r.fromAddress = (api.parties hash).1 ∧ r.toAddress = (api.parties hash).2.1

variable [HeaderHash] [Evm] {known : Set ChainTx} {height index : ℕ} {outcome : ChainBlockOutcome}

omit [TxType] in
/-- **Every executed transaction has its receipt.** -/
theorem exists_receiptAt (hindex : NodeState.IndexInv known api.backend)
    (hmetered : api.backend.executor.AllResults Metered)
    (hl : api.backend.executor.results.lookup height = some outcome)
    (hget : outcome.transactionHashes[index]? = some hash) :
    ∃ receipt r, outcome.receipts[index]? = some receipt ∧ api.getTransactionReceipt hash = some r ∧
      api.ReceiptAt outcome height index hash receipt r := by
  obtain ⟨gas, hgas⟩ := hmetered height outcome hl
  -- the index leads to the place, the place to the receipt
  have hlocation : api.backend.txIndex.lookup hash = some ⟨height, outcome.hash, index⟩ :=
    (hindex.indexMirrorsChain.mirrors hash _).mpr ⟨outcome, hl, rfl, hget⟩
  have hlt : index < outcome.receipts.length := by
    rw [hgas.length]
    exact (List.getElem?_eq_some_iff.mp hget).1
  have hreceipt : api.backend.receipt hash
      = some (⟨height, outcome.hash, index⟩, outcome.receipts[index], outcome) := by
    unfold NodeState.receipt
    rw [hlocation, Option.bind_some, hl, Option.bind_some, List.getElem?_eq_getElem hlt]
    rfl
  unfold EthApiImpl.getTransactionReceipt
  rw [hreceipt]
  exact ⟨_, _, List.getElem?_eq_getElem hlt, rfl, ⟨rfl, rfl, rfl, rfl, rfl, rfl, rfl, rfl⟩⟩

omit [TxType] in
/-- Every receipt is that of an executed transaction, in the place that it names. -/
theorem place_of_receipt (hindex : NodeState.IndexInv known api.backend) {r : TransactionReceipt}
    (h : api.getTransactionReceipt hash = some r) : ∃ outcome,
      api.backend.executor.results.lookup r.blockNumber = some outcome ∧
      outcome.hash = r.blockHash ∧ outcome.transactionHashes[r.transactionIndex]? = some hash ∧
      api.backend.txIndex.lookup hash = some ⟨r.blockNumber, r.blockHash, r.transactionIndex⟩ := by
  -- back from the receipt to the index entry it was read through
  obtain ⟨⟨location, receipt, outcome⟩, hreceipt, rfl⟩ := Option.map_eq_some_iff.mp h
  obtain ⟨location', hlocation, hrest⟩ := Option.bind_eq_some_iff.mp hreceipt
  obtain ⟨outcome', hl, hrest⟩ := Option.bind_eq_some_iff.mp hrest
  obtain ⟨receipt', -, he⟩ := Option.map_eq_some_iff.mp hrest
  obtain ⟨rfl, rfl, rfl⟩ : location' = location ∧ receipt' = receipt ∧ outcome' = outcome := by
    simpa using he
  obtain ⟨outcome, hl', hblock, hget⟩ :=
    (hindex.indexMirrorsChain.mirrors hash location').mp hlocation
  obtain rfl := Option.some.inj (hl.symm.trans hl')
  refine ⟨outcome', hl, rfl, hget, hlocation.trans ?_⟩
  dsimp only
  rw [hblock]

omit [TxCodec] [TxType] [EthPrimitives] [HeaderHash] [Evm] in
/-- What a meter shows before a transaction. -/
theorem previousCumulative_eq {gas : ℕ → ℕ} (hgas : Meters outcome gas)
    (hle : index ≤ outcome.receipts.length) : previousCumulative outcome index = gas index := by
  unfold previousCumulative
  cases index with
  | zero => rw [if_pos rfl, hgas.zero]
  | succ index =>
    have hget := List.getElem?_eq_getElem (show index < outcome.receipts.length from hle)
    rw [if_neg (Nat.succ_ne_zero index), Nat.add_sub_cancel, hget]
    exact hgas.receipt index _ hget

omit [TxType] in
/-- **The receipts of a block.** There is one for each transaction, and what they say adds up. -/
theorem receipts_of_block (hindex : NodeState.IndexInv known api.backend)
    (hmetered : api.backend.executor.AllResults Metered)
    (hl : api.backend.executor.results.lookup height = some outcome) :
    ∃ receipts : List TransactionReceipt,
      outcome.transactionHashes.map api.getTransactionReceipt = receipts.map some ∧
      (receipts.map TransactionReceipt.gasUsed).sum = outcome.gasUsed ∧
      receipts.foldl (fun bloom r => bloom ||| r.logsBloom) 0
        = outcome.receipts.foldl
            (fun bloom receipt => bloom ||| EthPrimitives.logsBloom receipt.logs) 0 ∧
      ∀ r ∈ receipts, r.effectiveGasPrice = outcome.baseFeePerGas := by
  obtain ⟨gas, hgas⟩ := hmetered height outcome hl
  have hsome : ∀ hash ∈ outcome.transactionHashes, (api.getTransactionReceipt hash).isSome = true := by
    intro hash hmem
    obtain ⟨index, hget⟩ := List.mem_iff_getElem?.mp hmem
    obtain ⟨receipt, r, -, hr, -⟩ := exists_receiptAt hindex hmetered hl hget
    exact Option.isSome_iff_exists.mpr ⟨r, hr⟩
  have hmap := map_eq_map_some_filterMap hsome
  refine ⟨outcome.transactionHashes.filterMap api.getTransactionReceipt, hmap, ?_⟩
  generalize outcome.transactionHashes.filterMap api.getTransactionReceipt = receipts at hmap
  have hlength : receipts.length = outcome.receipts.length := by
    rw [hgas.length, ← List.length_map some, ← hmap, List.length_map]
  -- the two lists, side by side
  have hat : ∀ i r receipt, receipts[i]? = some r → outcome.receipts[i]? = some receipt →
      ∃ hash, api.ReceiptAt outcome height i hash receipt r := by
    intro i r receipt hr hreceipt
    have hi := congrArg (·[i]?) hmap
    rw [List.getElem?_map, List.getElem?_map, hr] at hi
    obtain ⟨hash, hget, hhash⟩ := Option.map_eq_some_iff.mp hi
    obtain ⟨receipt', r', hreceipt', hr', hplace⟩ := exists_receiptAt hindex hmetered hl hget
    obtain rfl := Option.some.inj (hreceipt'.symm.trans hreceipt)
    obtain rfl := Option.some.inj (hr'.symm.trans hhash)
    exact ⟨hash, hplace⟩
  refine ⟨?_, ?_, fun r hmem => ?_⟩
  · have hdifferences : receipts.map TransactionReceipt.gasUsed
        = (List.range outcome.receipts.length).map fun i => gas (i + 1) - gas i := by
      apply List.ext_getElem (by simp [hlength])
      intro i hi _
      rw [List.length_map] at hi
      have hreceipt := List.getElem?_eq_getElem (hlength ▸ hi)
      obtain ⟨hash, hplace⟩ := hat i _ _ (List.getElem?_eq_getElem hi) hreceipt
      rw [List.getElem_map, List.getElem_map, List.getElem_range, hplace.gas,
        previousCumulative_eq hgas (hlength ▸ hi).le, hgas.receipt i _ hreceipt]
    rw [hdifferences, hgas.sum_gas]
  · have hblooms : receipts.map TransactionReceipt.logsBloom
        = outcome.receipts.map fun receipt => EthPrimitives.logsBloom receipt.logs := by
      apply List.ext_getElem (by simp [hlength])
      intro i hi hi'
      rw [List.length_map] at hi hi'
      obtain ⟨hash, hplace⟩ :=
        hat i _ _ (List.getElem?_eq_getElem hi) (List.getElem?_eq_getElem hi')
      rw [List.getElem_map, List.getElem_map, hplace.bloom]
    calc receipts.foldl (fun bloom r => bloom ||| r.logsBloom) 0
        = (receipts.map TransactionReceipt.logsBloom).foldl (· ||| ·) 0 := List.foldl_map.symm
      _ = _ := by rw [hblooms, List.foldl_map]
  · obtain ⟨i, hr⟩ := List.mem_iff_getElem?.mp hmem
    have hlt := (List.getElem?_eq_some_iff.mp hr).1
    obtain ⟨hash, hplace⟩ := hat i _ _ hr (List.getElem?_eq_getElem (hlength ▸ hlt))
    exact hplace.price

omit [TxType] in
/-- Only what is in the index has a receipt. -/
theorem receipt_eq_none_iff (hindex : NodeState.IndexInv known api.backend) :
    api.getTransactionReceipt hash = none ↔ api.backend.txIndex.lookup hash = none := by
  refine ⟨fun hnone => ?_, fun hnone => ?_⟩
  · by_contra hsome
    obtain ⟨location, hlocation⟩ := Option.ne_none_iff_exists'.mp hsome
    obtain ⟨outcome, hl, -, hget⟩ := (hindex.indexMirrorsChain.mirrors hash location).mp hlocation
    have hreceipt := (hindex.indexMirrorsChain.receipt_isSome hash).mpr
      ⟨location.height, outcome, hl, List.mem_of_getElem? hget⟩
    rw [Option.map_eq_none_iff.mp hnone] at hreceipt
    exact absurd hreceipt Bool.false_ne_true
  · unfold EthApiImpl.getTransactionReceipt NodeState.receipt
    rw [hnone]
    rfl

omit [EthPrimitives] in
/-- **A block in full** gives its transactions as they are given by hash. -/
theorem renderTransactions_full (hindex : NodeState.IndexInv known api.backend)
    (hbytes : api.BytesHeld) (hl : api.backend.executor.results.lookup height = some outcome) :
    ∃ transactions, outcome.transactionHashes.map api.getTransactionByHash = transactions.map some ∧
      api.renderTransactions outcome height true = .full transactions := by
  have hsome : ∀ hash ∈ outcome.transactionHashes, (api.getTransactionByHash hash).isSome = true := by
    intro hash hmem
    have hheld := hbytes.executed height outcome hl hash hmem
    obtain ⟨_, _, -, -, -, ht⟩ := hbytes.getTransactionByHash_eq hheld
    exact Option.isSome_iff_exists.mpr ⟨_, ht⟩
  refine ⟨_, map_eq_map_some_filterMap hsome, congrArg BlockTransactions.full ?_⟩
  -- the index knows the place that the loop counts
  have hplaces : ∀ entry ∈ outcome.transactionHashes.zipIdx,
      ((api.envelopeOf entry.1).map fun envelope =>
        renderTransaction envelope (some outcome.hash) (some height) (some entry.2))
      = api.getTransactionByHash entry.1 := by
    rintro ⟨hash, index⟩ hmem
    have hget := List.mem_zipIdx_iff_getElem?.mp hmem
    have hlocation : api.backend.txIndex.lookup hash = some ⟨height, outcome.hash, index⟩ :=
      (hindex.indexMirrorsChain.mirrors hash _).mpr ⟨outcome, hl, rfl, hget⟩
    unfold getTransactionByHash
    rw [hlocation]
    rfl
  calc outcome.transactionHashes.zipIdx.filterMap _
      = outcome.transactionHashes.zipIdx.filterMap fun entry => api.getTransactionByHash entry.1 :=
        List.filterMap_congr hplaces
    _ = (outcome.transactionHashes.zipIdx.map Prod.fst).filterMap api.getTransactionByHash :=
        by rw [List.filterMap_map]; rfl
    _ = outcome.transactionHashes.filterMap api.getTransactionByHash := by
        rw [List.zipIdx_map_fst]

/-- **The transactions fit together.** -/
theorem transactionsFit (hindex : NodeState.IndexInv known api.backend)
    (hmetered : api.backend.executor.AllResults Metered) (hbytes : api.BytesHeld) :
    api.TransactionsFit := by
  have hview : ∀ {height view hashes}, api.Serves height false view →
      view.transactions = .hashes hashes → ∃ outcome,
        api.backend.executor.results.lookup height = some outcome ∧ view.hash = outcome.hash ∧
        outcome.transactionHashes = hashes := by
    intro height view hashes h htransactions
    obtain ⟨outcome, -, hl, -, -, hhash, -, -, -, -, hrendered⟩ := view_of_serves hindex h
    rw [hrendered] at htransactions
    exact ⟨outcome, hl, hhash, BlockTransactions.hashes.inj htransactions⟩
  refine ⟨fun height view hashes h htransactions i hash => ?_, fun height view hashes h htransactions => ?_,
    fun height view hashes h htransactions => ?_, fun hash r hr => ?_, fun hash t ht => ?_,
    fun hash p hp => ?_⟩
  · -- the place of a hash in the view is the one its receipt names
    obtain ⟨outcome, hl, hhash, rfl⟩ := hview h htransactions
    rw [hhash]
    refine ⟨fun hget => ?_, ?_⟩
    · obtain ⟨receipt, r, -, hr, hplace⟩ := exists_receiptAt hindex hmetered hl hget
      exact ⟨r, hr, hplace.block, hplace.number, hplace.place⟩
    · rintro ⟨r, hr, -, rfl, rfl⟩
      obtain ⟨outcome', hl', -, hget, -⟩ := place_of_receipt hindex hr
      obtain rfl := Option.some.inj (hl.symm.trans hl')
      exact hget
  · -- gas and bloom are gathered from the receipts of the block
    obtain ⟨outcome, hl, -, rfl⟩ := hview h htransactions
    obtain ⟨outcome', hl', rfl⟩ := Option.map_eq_some_iff.mp (serves_iff.mp h)
    obtain rfl := Option.some.inj (hl.symm.trans hl')
    exact receipts_of_block hindex hmetered hl
  · -- in full, each transaction is rendered from its bytes
    obtain ⟨outcome, hl, -, rfl⟩ := hview h htransactions
    obtain ⟨transactions, hmap, hfull⟩ := renderTransactions_full hindex hbytes hl
    refine ⟨transactions, hmap, serves_iff.mpr ?_⟩
    obtain ⟨outcome', hl', rfl⟩ := Option.map_eq_some_iff.mp (serves_iff.mp h)
    obtain rfl := Option.some.inj (hl.symm.trans hl')
    apply Option.map_eq_some_iff.mpr ⟨outcome, hl, ?_⟩
    rw [hfull]
  · -- an executed transaction is told by hash as its receipt tells it
    obtain ⟨outcome, hl, hblock, hget, hlocation⟩ := place_of_receipt hindex hr
    have hmem := hbytes.executed _ outcome hl hash (List.mem_of_getElem? hget)
    obtain ⟨envelope, signer, hsigner, hhash, henvelope, ht⟩ := hbytes.getTransactionByHash_eq hmem
    obtain ⟨receipt, r', -, hr', hplace⟩ := exists_receiptAt hindex hmetered hl hget
    obtain rfl := Option.some.inj (hr.symm.trans hr')
    obtain ⟨hfrom, hto⟩ := parties_of_envelope henvelope hsigner
    rw [hlocation] at ht
    refine ⟨_, ht, ?_⟩
    unfold renderTransaction
    rw [hsigner, hplace.parties.1, hplace.parties.2, hfrom, hto]
    exact ⟨hhash, rfl, rfl, rfl, rfl, rfl⟩
  · -- pending exactly while there is no receipt
    obtain ⟨envelope', henvelope', -⟩ := Option.map_eq_some_iff.mp ht
    obtain ⟨bytes, hl, -⟩ := Option.bind_eq_some_iff.mp henvelope'
    obtain ⟨envelope, signer, hsigner, hhash, -, ht'⟩ :=
      hbytes.getTransactionByHash_eq (Maps.mem_of_lookup hl)
    obtain rfl := Option.some.inj (ht.symm.trans ht')
    rw [receipt_eq_none_iff hindex]
    unfold renderTransaction
    rw [hsigner]
    exact ⟨hhash, Option.map_eq_none_iff⟩
  · -- a pooled transaction is found by hash, without a place
    obtain ⟨hmem, hrecovered⟩ := hbytes.pooled hash p hp
    obtain ⟨envelope, signer, hsigner, hhash, -, ht⟩ := hbytes.getTransactionByHash_eq hmem
    -- the hash identifies what was recovered
    have hsame : p.tx = TxCodec.recovered envelope signer := by
      apply hrecovered.ext ⟨envelope, signer, hsigner, rfl⟩
      exact (hbytes.keyed hash p hp).trans hhash.symm
    refine ⟨_, ht, ?_⟩
    unfold renderTransaction PooledTx.nonce
    rw [hsigner, hsame]
    exact ⟨rfl, rfl, rfl, rfl⟩

end Transactions

/-! ### What calls keep -/

section Run

variable [HeaderHash] [TxCodec] [Evm] [Trie] [FeeRule] {api : EthApiImpl}

omit [HeaderHash] [TxCodec] [Evm] [Trie] [FeeRule] in
/-- Bytes that are kept stay. -/
theorem mem_noteBytes {transactions : List ChainTx} {encoded : List (List UInt8)} {hash : B256}
    {txBytes : Map B256 (List UInt8)} (h : hash ∈ txBytes) :
    hash ∈ noteBytes txBytes transactions encoded := by
  unfold noteBytes
  generalize transactions.zip encoded = entries
  induction entries generalizing txBytes with
  | nil => exact h
  | cons entry entries ih => exact ih (Finmap.mem_insert.mpr (Or.inr h))

omit [HeaderHash] [Evm] [Trie] [FeeRule] in
/-- **The bytes of a block** are kept for all its transactions, under their hashes. -/
theorem noteBytes_encoded {transactions : List ChainTx} {encoded : List (List UInt8)}
    (h : List.Forall₂ (fun tx bytes => ∃ recovered,
      NodeState.recover bytes = .ok recovered ∧ recovered.tx = tx) transactions encoded)
    {txBytes : Map B256 (List UInt8)}
    (hbytes : ∀ hash bytes, txBytes.lookup hash = some bytes → EncodesHash hash bytes) :
    (∀ hash bytes, (noteBytes txBytes transactions encoded).lookup hash = some bytes →
        EncodesHash hash bytes) ∧
      ∀ tx ∈ transactions, tx.hash ∈ noteBytes txBytes transactions encoded := by
  -- transaction by transaction, each with its bytes
  induction h generalizing txBytes with
  | nil => exact ⟨hbytes, fun _ hmem => absurd hmem List.not_mem_nil⟩
  | @cons tx bytes transactions encoded hfirst _ ih =>
    have hnote : noteBytes txBytes (tx :: transactions) (bytes :: encoded)
        = noteBytes (txBytes.insert tx.hash bytes) transactions encoded := rfl
    have hnext : ∀ hash b, (txBytes.insert tx.hash bytes).lookup hash = some b →
        EncodesHash hash b := by
      intro hash b hl
      rw [Maps.lookup_insert] at hl
      split at hl
      · next he =>
        obtain rfl := Option.some.inj hl
        obtain ⟨recovered, hrecover, rfl⟩ := hfirst
        exact ⟨recovered, hrecover, he.symm⟩
      · exact hbytes hash b hl
    obtain ⟨hall, hmem⟩ := ih hnext
    rw [hnote]
    refine ⟨hall, fun x hx => ?_⟩
    obtain rfl | hx := List.mem_cons.mp hx
    · exact mem_noteBytes (Finmap.mem_insert.mpr (Or.inl rfl))
    · exact hmem x hx

omit [HeaderHash] [Evm] [Trie] in
/-- What a submission returns is the hash of what was sent. -/
theorem encodesHash_of_submitRaw {n : NodeState} {encoded : List UInt8} {hash : B256}
    (h : (n.submitRaw encoded).2 = .ok hash) : EncodesHash hash encoded := by
  unfold NodeState.submitRaw at h
  cases hrecover : NodeState.recover encoded with
  | error e =>
    rw [hrecover] at h
    cases h
  | ok tx =>
    rw [hrecover] at h
    refine ⟨tx, hrecover, ?_⟩
    dsimp only at h
    -- the pool returns the hash, or an error
    obtain ⟨e, he, -⟩ | ⟨hok, -⟩ := TxPool.add_cases n.pool tx _ _ _
    · rw [he] at h
      cases h
    · rw [hok] at h
      exact Except.ok.inj h

omit [TxCodec] in
/-- What an accepted block leaves in DAG and bodies. -/
theorem addBlock_of_isOk {n : NodeState} {header : Header} {transactions : List ChainTx}
    (hok : (n.addBlock header transactions).2.isOk = true) :
    (n.dag.addBlock header).2.isOk = true ∧
      (n.addBlock header transactions).1.bodies = n.bodies.insert header.hash transactions ∧
      (n.addBlock header transactions).1.dag = (n.dag.addBlock header).1 := by
  unfold NodeState.addBlock at hok ⊢
  dsimp only at hok ⊢
  cases hadd : n.dag.addBlock header with
  | mk D result =>
    rw [hadd] at hok
    cases result with
    | error e => exact absurd hok Bool.false_ne_true
    | ok _ =>
      -- bringing execution up to date changes neither
      refine ⟨rfl, ?_⟩
      unfold NodeState.advance
      dsimp only
      split
      · exact ⟨rfl, rfl⟩
      · split <;> exact ⟨rfl, rfl⟩

omit [TxCodec] in
/-- Outcomes with a property, over the bodies that an accepted block leaves. -/
theorem allResults_addBlock {n : NodeState} {header : Header} {transactions : List ChainTx}
    {Q : ChainBlockOutcome → Prop}
    (hgives : ∀ D, ChainExecutor.Gives Q D (n.bodies.insert header.hash transactions))
    (h : n.executor.AllResults Q) :
    (n.addBlock header transactions).1.executor.AllResults Q := by
  rw [(n.addBlock_cases header transactions).1]
  unfold NodeState.executorAfter
  split
  · exact h
  · dsimp only
    split
    · exact h
    · exact h.applyReorg (hgives _) _ _

omit [HeaderHash] [Evm] [Trie] in
theorem bodies_submitRaw (n : NodeState) (encoded : List UInt8) :
    (n.submitRaw encoded).1.bodies = n.bodies := by
  unfold NodeState.submitRaw
  split <;> rfl

/-- A submission that is refused admits nothing and keeps no bytes. -/
theorem BytesHeld.submitRaw_refused (h : api.BytesHeld) {encoded : List UInt8} {e : BackendError}
    (hresult : (api.backend.submitRaw encoded).2 = .error e) :
    (api.step (.submitRaw encoded)).BytesHeld := by
  have hexecutor : (api.step (.submitRaw encoded)).backend.executor = api.backend.executor :=
    api.backend.executor_submitRaw encoded
  have hbodies : (api.step (.submitRaw encoded)).backend.bodies = api.backend.bodies :=
    bodies_submitRaw api.backend encoded
  have hbytes : (api.step (.submitRaw encoded)).txBytes = api.txBytes := by
    show (api.backend.submitRaw encoded).2.toOption.elim _ _ = _
    rw [hresult]
    rfl
  have hpool : ∀ b p, (api.step (.submitRaw encoded)).backend.pool.byHash.lookup b = some p →
      api.backend.pool.byHash.lookup b = some p := by
    intro b p hl
    refine (NodeState.lookup_of_submitRaw hl).resolve_left ?_
    rintro ⟨hadmitted, -⟩
    obtain ⟨-, hash, hok⟩ := NodeState.admission_eq_some.mp hadmitted
    rw [hresult] at hok
    cases hok
  refine ⟨fun b bytes hl => ?_, fun source tx htx => ?_, ?_, fun b p hl => ?_, fun b p hl => ?_⟩
  · exact h.bytes b bytes (hbytes ▸ hl)
  · rw [hbytes]
    exact h.bodies source tx (hbodies ▸ htx)
  · rw [hexecutor, hbytes]
    exact h.executed
  · rw [hbytes]
    exact h.pooled b p (hpool b p hl)
  · exact h.keyed b p (hpool b p hl)

/-- A submission that is admitted keeps the bytes of what it admits. -/
theorem BytesHeld.submitRaw_admitted (h : api.BytesHeld) {encoded : List UInt8} {hash : B256}
    (hresult : (api.backend.submitRaw encoded).2 = .ok hash) :
    (api.step (.submitRaw encoded)).BytesHeld := by
  have hexecutor : (api.step (.submitRaw encoded)).backend.executor = api.backend.executor :=
    api.backend.executor_submitRaw encoded
  have hbodies : (api.step (.submitRaw encoded)).backend.bodies = api.backend.bodies :=
    bodies_submitRaw api.backend encoded
  have hbytes : (api.step (.submitRaw encoded)).txBytes = api.txBytes.insert hash encoded := by
    show (api.backend.submitRaw encoded).2.toOption.elim _ _ = _
    rw [hresult]
    rfl
  have hkept : ∀ b ∈ api.txBytes, b ∈ (api.step (.submitRaw encoded)).txBytes := by
    intro b hb
    rw [hbytes]
    exact Finmap.mem_insert.mpr (Or.inr hb)
  -- a pooled transaction is the one just admitted, or was held before
  have hpool : ∀ b p,
      (api.step (.submitRaw encoded)).backend.pool.byHash.lookup b = some p →
      b = hash ∧ b = p.hash ∧ NodeState.IsRecovered p.tx ∨
        api.backend.pool.byHash.lookup b = some p := by
    intro b p hl
    refine (NodeState.lookup_of_submitRaw hl).imp_left ?_
    rintro ⟨hadmitted, rfl⟩
    obtain ⟨hrecover, -⟩ := NodeState.admission_eq_some.mp hadmitted
    obtain ⟨tx, hrecover', rfl⟩ := encodesHash_of_submitRaw hresult
    obtain rfl := Except.ok.inj (hrecover.symm.trans hrecover')
    exact ⟨rfl, rfl, NodeState.isRecovered_recover hrecover⟩
  refine ⟨fun b bytes hl => ?_, fun source tx htx => ?_, ?_, fun b p hl => ?_, fun b p hl => ?_⟩
  · rw [hbytes, Maps.lookup_insert] at hl
    split at hl
    · next he =>
      obtain rfl := Option.some.inj hl
      exact he ▸ encodesHash_of_submitRaw hresult
    · exact h.bytes b bytes hl
  · rw [hbodies] at htx
    exact hkept _ (h.bodies source tx htx)
  · rw [hexecutor]
    exact h.executed.imp fun outcome hall b hb => hkept b (hall b hb)
  · obtain ⟨rfl, -, hrecovered⟩ | hold := hpool b p hl
    · refine ⟨?_, hrecovered⟩
      rw [hbytes]
      exact Finmap.mem_insert.mpr (Or.inl rfl)
    · exact (h.pooled b p hold).imp_left (hkept b)
  · obtain ⟨-, hhash, -⟩ | hold := hpool b p hl
    · exact hhash.symm
    · exact h.keyed b p hold

/-- A refused block leaves the bytes, and all that they are needed for, alone. -/
theorem BytesHeld.refused (h : api.BytesHeld) {header : Header} {e : DagError}
    (hrefused : (api.backend.dag.addBlock header).2 = .error e) (transactions : List ChainTx)
    (encoded : List (List UInt8)) :
    (api.step (.addBlock header transactions encoded)).BytesHeld := by
  have hstep : api.step (.addBlock header transactions encoded)
      = ⟨{ api.backend with dag := (api.backend.dag.addBlock header).1 }, api.txBytes⟩ := by
    show EthApiImpl.mk (api.backend.addBlock header transactions).1 _ = _
    rw [NodeState.addBlock_of_dag_error hrefused, hrefused]
    rfl
  rw [hstep]
  exact ⟨h.bytes, h.bodies, h.executed, h.pooled, h.keyed⟩

/-- An accepted block keeps the bytes that come with it, if they are those of its transactions. -/
theorem BytesHeld.addBlock (h : api.BytesHeld) {header : Header} {transactions : List ChainTx}
    {encoded : List (List UInt8)}
    (hencoded : NodeCall.Encoded (.addBlock header transactions encoded))
    (hok : api.backend.Succeeds (.addBlock header transactions)) :
    (api.step (.addBlock header transactions encoded)).BytesHeld := by
  -- a block accepted notes the bytes of everything it carries
  obtain ⟨haccepted, hbodies, -⟩ := addBlock_of_isOk hok
  have hbytes : (api.step (.addBlock header transactions encoded)).txBytes
      = noteBytes api.txBytes transactions encoded := if_pos haccepted
  obtain ⟨hencodes, hcarried⟩ := noteBytes_encoded hencoded h.bytes
  have hkept : ∀ b ∈ api.txBytes, b ∈ noteBytes api.txBytes transactions encoded :=
    fun b => mem_noteBytes
  have hheld : ∀ source,
      ∀ tx ∈ BodyStore.get (api.backend.bodies.insert header.hash transactions) source,
      tx.hash ∈ noteBytes api.txBytes transactions encoded := by
    intro source tx htx
    obtain hnew | hstored := BodyStore.mem_get_insert htx
    · exact hcarried tx hnew
    · exact hkept _ (h.bodies source tx hstored)
  -- settling only takes transactions out of the pool
  have hpool : ∀ b p,
      (api.backend.addBlock header transactions).1.pool.byHash.lookup b = some p →
      api.backend.pool.byHash.lookup b = some p := by
    obtain ⟨-, hsame | ⟨outcomes, hsettled, -⟩⟩ := api.backend.addBlock_cases header transactions
    · rw [hsame]
      exact fun _ _ hl => hl
    · rw [hsettled]
      exact fun _ _ hl => ((NodeState.lookup_settlePool h.keyed).mp hl).1
  refine ⟨fun b bytes hl => ?_, fun source tx htx => ?_, ?_, fun b p hl => ?_, ?_⟩
  · rw [hbytes] at hl
    exact hencodes b bytes hl
  · rw [hbytes]
    refine hheld source tx ?_
    rw [← hbodies]
    exact htx
  · rw [hbytes]
    refine allResults_addBlock (fun D => ChainExecutor.gives_known hheld) ?_
    exact h.executed.imp fun outcome hall b hb => hkept b (hall b hb)
  · rw [hbytes]
    -- what is left in the pool was held before, with its bytes
    exact (h.pooled b p (hpool b p hl)).imp_left (hkept b)
  · exact h.keyed.of_subset hpool

/-- **Every call keeps the bytes** that the node needs, also one that is refused. -/
theorem BytesHeld.step (h : api.BytesHeld) {call : NodeCall} (hencoded : call.Encoded)
    (hexec : api.backend.Executes call.plain) : (api.step call).BytesHeld := by
  cases call with
  | submitRaw encoded =>
    cases hresult : (api.backend.submitRaw encoded).2 with
    | error e => exact h.submitRaw_refused hresult
    | ok hash => exact h.submitRaw_admitted hresult
  | addBlock header transactions encoded =>
    obtain ⟨e, hrefused⟩ | hok := hexec.cases
    · exact h.refused hrefused transactions encoded
    · exact h.addBlock hencoded hok

omit [TxCodec] [Evm] in
/-- What is recorded of genesis: nothing executed, and no gas used. -/
theorem allResults_start {Q : ChainBlockOutcome → Prop} {params : ChainParams} {genesis : Header}
    {genesisState : WorldState} {k : UInt16}
    (hgenesis : ∀ outcome : ChainBlockOutcome, outcome.transactionHashes = [] →
      outcome.receipts = [] → outcome.gasUsed = 0 → Q outcome) :
    (start params genesis genesisState k).backend.executor.AllResults Q := by
  intro height outcome hl
  change (Finmap.singleton 0 _ : Map ℕ ChainBlockOutcome).lookup height = some outcome at hl
  by_cases hzero : height = 0
  · rw [hzero, Finmap.lookup_singleton_eq] at hl
    obtain rfl := Option.some.inj hl
    exact hgenesis _ rfl rfl rfl
  · have hmem := (Finmap.mem_singleton _ _ _).mp (Maps.mem_of_lookup hl)
    exact absurd hmem hzero

omit [Evm] in
theorem bytesHeld_start (params : ChainParams) (genesis : Header) (genesisState : WorldState)
    (k : UInt16) : (start params genesis genesisState k).BytesHeld := by
  refine ⟨fun _ _ hl => (nomatch hl), fun source tx htx => ?_, ?_, fun _ _ hl => (nomatch hl),
    TxPool.keyed_new _⟩
  · exact absurd htx (by simp [start, NodeState.new, BodyStore.get])
  · apply allResults_start
    intro outcome hnone _ _ hash hmem
    rw [hnone] at hmem
    exact absurd hmem List.not_mem_nil

/-- **Every call meters** what it executes. -/
theorem allResults_metered_step (h : api.backend.executor.AllResults Metered) (call : NodeCall) :
    (api.step call).backend.executor.AllResults Metered := by
  cases call with
  | submitRaw encoded =>
    show (api.backend.submitRaw encoded).1.executor.AllResults Metered
    rw [NodeState.executor_submitRaw]
    exact h
  | addBlock header transactions encoded =>
    exact allResults_addBlock (fun D => ChainExecutor.gives_metered D _) h

omit [HeaderHash] [Evm] [Trie] [FeeRule] in
/-- Hashes identify the transactions that come with their bytes. -/
theorem injOn_hash_of_encoded {calls : List NodeCall} (hencoded : ∀ call ∈ calls, call.Encoded) :
    Set.InjOn ChainTx.hash {tx | tx ∈ NodeState.transactionsOf (calls.map NodeCall.plain)} := by
  -- every transaction of a block was recovered from bytes, which fix it
  have hrecovered : ∀ tx ∈ NodeState.transactionsOf (calls.map NodeCall.plain),
      ∃ recovered : RecoveredTx, NodeState.IsRecovered recovered ∧ recovered.tx = tx := by
    intro tx htx
    obtain ⟨_, hplain, htx⟩ := List.mem_flatMap.mp htx
    obtain ⟨call, hcall, rfl⟩ := List.mem_map.mp hplain
    cases call with
    | submitRaw encoded => exact absurd htx List.not_mem_nil
    | addBlock header transactions encoded =>
      have hpairs : List.Forall₂ _ transactions encoded := hencoded _ hcall
      obtain ⟨i, hi⟩ := List.mem_iff_getElem?.mp htx
      obtain ⟨hlt, rfl⟩ := List.getElem?_eq_some_iff.mp hi
      obtain ⟨recovered, hrecover, htx⟩ := hpairs.get hlt (hpairs.length_eq ▸ hlt)
      exact ⟨recovered, NodeState.isRecovered_recover hrecover, htx⟩
  intro tx htx tx' htx' he
  obtain ⟨recovered, hr, rfl⟩ := hrecovered tx htx
  obtain ⟨recovered', hr', rfl⟩ := hrecovered tx' htx'
  rw [hr.ext hr' he]

/-- **An explorer's views agree** throughout every run at whose calls execution does not fail (a
call may be refused) and that stays within the guard of the walk, if the EVM guards nonces and
blocks come with the bytes of their transactions. -/
theorem explorer_views [TxType] [EthPrimitives] (hevm : NonceGuarded) (params : ChainParams)
    (genesis : Header) (genesisState : WorldState) (k : UInt16) (calls : List NodeCall)
    (hencoded : ∀ call ∈ calls, call.Encoded)
    (hexec : Runs.Each step (fun api call => api.backend.Executes call.plain)
      (start params genesis genesisState k) calls)
    (hreach : Runs.Each step (fun api call => api.backend.InReach call.plain)
      (start params genesis genesisState k) calls) :
    Runs.Throughout step (fun api => api.BlocksFit ∧ api.TransactionsFit)
      (start params genesis genesisState k) calls := by
  set known : Set ChainTx := {tx | tx ∈ NodeState.transactionsOf (calls.map NodeCall.plain)}
  have hknown : Set.InjOn ChainTx.hash known := injOn_hash_of_encoded hencoded
  have hcarried : ∀ call ∈ calls,
      call.Encoded ∧ ∀ tx ∈ NodeState.transactionsOf [call.plain], tx ∈ known := by
    intro call hcall
    refine ⟨hencoded call hcall, fun tx htx => ?_⟩
    rw [NodeState.transactionsOf, List.flatMap_singleton] at htx
    exact List.mem_flatMap.mpr ⟨call.plain, List.mem_map_of_mem hcall, htx⟩
  -- what every call keeps: the index, the gas of the results, the bytes
  let I := fun api : EthApiImpl => NodeState.IndexInv known api.backend ∧
    api.backend.executor.AllResults Metered ∧ api.BytesHeld
  have hstart : I (start params genesis genesisState k) := by
    refine ⟨NodeState.indexInv_new params genesis genesisState k, ?_,
      bytesHeld_start params genesis genesisState k⟩
    apply allResults_start
    intro outcome hhashes hreceipts hgas
    exact ⟨fun _ => 0, rfl, fun _ _ _ => le_rfl, fun i r hr => by simp [hreceipts] at hr, hgas,
      by simp [hreceipts, hhashes]⟩
  have hlegal := (hexec.and hreach).and (Runs.each_of_mem (fun _ => hcarried) _)
  have hinv : Runs.Throughout step I (start params genesis genesisState k) calls := by
    refine hlegal.throughout ?_ hstart
    -- the block calls are those of the backend
    rintro api call ⟨hindex, hmetered, hbytes⟩ ⟨⟨hexecutes, hin⟩, hcall, hknownTx⟩
    refine ⟨?_, allResults_metered_step hmetered call, hbytes.step hcall hexecutes⟩
    rw [backend_step]
    exact hindex.step hevm hknown hknownTx hexecutes hin
  refine hinv.imp ?_
  rintro api ⟨hindex, hmetered, hbytes⟩
  exact ⟨blocksFit hindex, transactionsFit hindex hmetered hbytes⟩

end Run

end EthApiImpl

/-! ### An explorer of a chain that is reorganised -/

namespace Explorer

open Sample Wallet

scoped instance plainType : TxType := ⟨fun _ => 2⟩

scoped instance plainPrimitives : EthPrimitives := Events.noTexts

/-- A call is submitted and executed with another, and a heavier branch beside the block executes
it alone. What does not decode, and a block that is known, are refused. -/
def explored : List NodeCall :=
  [.submitRaw [0], .submitRaw [],
    .addBlock (block 1 [0] 0x2000ffff) [(call 0).tx, (call 1).tx] [[0], [1]],
    .addBlock (block 1 [0] 0x2000ffff) [] [],
    .addBlock (block 2 [0] 0x1f00ffff) [] [],
    .addBlock (block 3 [2] 0x2000ffff) [(call 0).tx] [[0]]]

end Explorer

namespace EthApiImpl

open Explorer Wallet Sample

theorem explorer_views_explored :
    Runs.Throughout step (fun api => api.BlocksFit ∧ api.TransactionsFit)
      (start Sample.params root funded 2) explored := by
  refine explorer_views walletEvm_nonceGuarded Sample.params root funded 2 explored ?_ ?_ ?_
  · have hencodes : ∀ nonce : UInt8, ∃ recovered,
        NodeState.recover [nonce] = .ok recovered ∧ recovered.tx = (call nonce.toNat).tx :=
      fun nonce => ⟨call nonce.toNat, rfl, rfl⟩
    intro made hmade
    unfold explored at hmade
    simp only [List.mem_cons, List.not_mem_nil, or_false] at hmade
    obtain rfl | rfl | rfl | rfl | rfl | rfl := hmade
    · exact trivial
    · exact trivial
    · exact .cons (hencodes 0) (.cons (hencodes 1) .nil)
    · exact .nil
    · exact .nil
    · exact .cons (hencodes 0) .nil
  · have hok : ∀ (api : EthApiImpl) (header : Header) (transactions : List ChainTx),
        (api.backend.addBlock header transactions).2.isOk = true →
          api.backend.Executes (.addBlock header transactions) :=
      fun api header transactions h => NodeState.Succeeds.executes h
    refine ⟨trivial, trivial, hok _ _ _ ?_, fun e he => ?_, hok _ _ _ ?_, hok _ _ _ ?_, trivial⟩
    · decide +kernel
    · -- the block is known, so its execution is not tried
      rw [NodeState.addBlock_of_dag_error (e := .alreadyPresent (hashOf 1))] at he
      · cases he
      · decide +kernel
    · decide +kernel
    · decide +kernel
  · refine ⟨trivial, trivial, ?_, ?_, ?_, ?_, trivial⟩ <;> (show _ ≤ _; decide +kernel)

end EthApiImpl

end Chainname
