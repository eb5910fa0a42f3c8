import Chainname.Rpc.Logs
import Chainname.Rpc.TxIndex

/-!
# Two views of a log

A log of an executed transaction is reported with the receipt of the transaction, and with the
logs of its block. The block's loop numbers the logs of the block; the receipt's loop begins at
zero with every receipt. So the views of a log are the same only if no log was emitted before its
transaction in the block (`same_iff_logsBefore`), the index knowing where the transaction is.

The index does know throughout every legal run (`IndexInv.emittersPlaced`). There the two methods
agree exactly as long as no block has two transactions that emit logs.
-/

namespace Chainname

open Json (Value)

/-- A transaction in its place in a chain block, with its receipt. -/
structure Emission where
  height : ℕ
  index : ℕ
  hash : B256
  outcome : ChainBlockOutcome
  receipt : Receipt

namespace NodeState

/-- The transaction was executed there, and emitted logs. -/
structure Emits (n : NodeState) (e : Emission) : Prop where
  le_height : e.height ≤ n.executor.height
  result : n.executor.results.lookup e.height = some e.outcome
  hash_eq : e.outcome.transactionHashes[e.index]? = some e.hash
  receipt_eq : e.outcome.receipts[e.index]? = some e.receipt
  logs_ne : e.receipt.logs ≠ []

/-- The transactions that emit logs are where the index says, and the blocks they are in have
hashes of their own. -/
structure EmittersPlaced (n : NodeState) : Prop where
  located : ∀ e, n.Emits e → ∃ location, n.txIndex.lookup e.hash = some location ∧
    location.height = e.height ∧ location.index = e.index
  distinct : ∀ e e', n.Emits e → n.Emits e' → e.outcome.hash = e'.outcome.hash →
    e.height = e'.height

/-- A transaction that emits logs is the first of its block to do so: no block has two. -/
def OneEmitterPerBlock (n : NodeState) : Prop :=
  ∀ e, n.Emits e → ∀ earlier < e.index, ∀ receipt,
    e.outcome.receipts[earlier]? = some receipt → receipt.logs = []

end NodeState

namespace EthApiImpl

/-- The filter for the logs of one block. -/
def blockFilter (height : ℕ) : Value :=
  .object [("fromBlock", .number (.posInt height)), ("toBlock", .number (.posInt height))]

section Views

variable [EthPrimitives] [TxCodec]

/-- The logs of the transaction are in its receipt, and they are reported there as they are with
the logs of its block. -/
def SameViews (api : EthApiImpl) (e : Emission) : Prop :=
  ∃ r logs, api.getTransactionReceipt e.hash = some r ∧
    api.getLogs (blockFilter e.height) = .ok logs ∧ r.logs.map LogView.log = e.receipt.logs ∧
    r.logs = logs.filter fun view => view.transactionIndex = e.index

/-- One of the two methods reports a log of an executed transaction in this way. -/
def Reported (api : EthApiImpl) (view : LogView) : Prop :=
  ∃ e, api.backend.Emits e ∧
    ((∃ r, api.getTransactionReceipt e.hash = some r ∧ view ∈ r.logs) ∨
      ∃ logs, api.getLogs (blockFilter e.height) = .ok logs ∧ view ∈ logs)

/-- The two views of the logs agree. -/
structure LogViewsAgree (api : EthApiImpl) : Prop where
  same : ∀ e, api.backend.Emits e → api.SameViews e
  /-- Block hash and number identify a log, whichever method it came from. -/
  unique : ∀ view view', api.Reported view → api.Reported view' →
    view.blockHash = view'.blockHash → view.logIndex = view'.logIndex → view = view'

end Views

/-! ### The two lists -/

section Lists

variable {api : EthApiImpl} {height index : ℕ} {hash : B256} {outcome : ChainBlockOutcome}
  {receipt : Receipt} {view view' : LogView} {e e' : Emission}

/-- How many logs a block has before a transaction. -/
def logsBefore (outcome : ChainBlockOutcome) (index : ℕ) : ℕ :=
  ((outcome.receipts.map Receipt.logs).take index).flatten.length

theorem logsBefore_eq_zero_iff :
    logsBefore outcome index = 0 ↔ ∀ earlier < index, ∀ receipt,
      outcome.receipts[earlier]? = some receipt → receipt.logs = [] := by
  unfold logsBefore
  -- nothing comes before it if every earlier transaction emitted nothing
  rw [List.length_eq_zero_iff, List.flatten_eq_nil_iff, ← List.map_take, List.forall_mem_map]
  refine ⟨fun h earlier hlt receipt hget => h receipt ?_, fun h receipt hmem => ?_⟩
  · apply List.mem_of_getElem? (i := earlier)
    rw [List.getElem?_take_of_lt hlt]
    exact hget
  · obtain ⟨earlier, hget⟩ := List.mem_iff_getElem?.mp hmem
    rw [List.getElem?_take] at hget
    split at hget
    · next hlt => exact h earlier hlt receipt hget
    · cases hget

/-- The logs of a transaction in its block. -/
theorem filter_outcomeLogs (height : ℕ) (hreceipt : outcome.receipts[index]? = some receipt) :
    ((outcomeLogs outcome height).filter fun view => view.transactionIndex = index)
      = (Numbering.ofGroup index (logsBefore outcome index) receipt.logs).map
          (viewLog outcome height) := by
  have hgroup := Numbering.filter_number 0 0 index (outcome.receipts.map Receipt.logs)
  rw [List.getElem?_map, hreceipt, Nat.zero_add, Nat.zero_add] at hgroup
  unfold outcomeLogs
  rw [List.filter_map]
  exact congrArg (List.map (viewLog outcome height)) hgroup

/-- Every log of a block carries its height and its hash. -/
theorem block_of_mem_outcomeLogs (h : view ∈ outcomeLogs outcome height) :
    view.blockNumber = height ∧ view.blockHash = outcome.hash := by
  unfold outcomeLogs at h
  obtain ⟨numbered, -, rfl⟩ := List.mem_map.mp h
  exact ⟨rfl, rfl⟩

theorem eq_of_logIndex_eq (h : view ∈ outcomeLogs outcome height)
    (h' : view' ∈ outcomeLogs outcome height) (he : view.logIndex = view'.logIndex) :
    view = view' := by
  unfold outcomeLogs at h h'
  obtain ⟨numbered, hmem, rfl⟩ := List.mem_map.mp h
  obtain ⟨numbered', hmem', rfl⟩ := List.mem_map.mp h'
  rw [Numbering.eq_of_index_eq hmem hmem' he]

/-- A block with logs has one of number zero. -/
theorem exists_logIndex_zero (height : ℕ) (hreceipt : outcome.receipts[index]? = some receipt)
    (hne : receipt.logs ≠ []) : ∃ view ∈ outcomeLogs outcome height, view.logIndex = 0 := by
  have hindices : (outcomeLogs outcome height).map LogView.logIndex
      = List.range' 0 (outcome.receipts.map Receipt.logs).flatten.length := by
    unfold outcomeLogs
    rw [List.map_map]
    exact Numbering.map_index_number 0 0 _
  obtain ⟨log, hlog⟩ := List.exists_mem_of_ne_nil _ hne
  have hmem : log ∈ (outcome.receipts.map Receipt.logs).flatten :=
    List.mem_flatten.mpr ⟨_, List.mem_map_of_mem (List.mem_of_getElem? hreceipt), hlog⟩
  -- the numbers of a block begin at zero
  have hzero : 0 ∈ (outcomeLogs outcome height).map LogView.logIndex := by
    rw [hindices, List.mem_range'_1]
    exact ⟨le_rfl, by simpa using List.length_pos_of_mem hmem⟩
  exact List.mem_map.mp hzero

variable [EthPrimitives]

/-- **What is returned for the block** of an emitting transaction are the logs of the block. -/
theorem getLogs_blockFilter (h : api.backend.Emits e) :
    api.getLogs (blockFilter e.height) = .ok (outcomeLogs e.outcome e.height) := by
  have hacc : api.Accepts (blockFilter e.height) e.height e.height :=
    ⟨rfl, rfl, le_rfl, by rw [Nat.sub_self]; exact Nat.zero_le _⟩
  have hscanned : api.scanned e.height e.height = [e.height] := by
    unfold scanned
    dsimp only
    rw [Nat.min_eq_left h.le_height, Nat.add_sub_cancel_left]
    rfl
  have hlogs : api.blockLogs e.height = outcomeLogs e.outcome e.height := by
    unfold blockLogs
    rw [h.result]
    rfl
  rw [getLogs_of_accepts hacc, hscanned, List.flatMap_singleton, hlogs]
  -- without constraints every log passes
  refine congrArg Except.ok (List.filter_eq_self.mpr fun view _ => ?_)
  rfl

variable [TxCodec]

/-- **What is returned for one transaction** are the logs of its receipt, numbered from zero. -/
theorem getTransactionReceipt_logs {location : TxLocation}
    (hlocation : api.backend.txIndex.lookup hash = some location)
    (hresult : api.backend.executor.results.lookup location.height = some outcome)
    (hhash : outcome.transactionHashes[location.index]? = some hash)
    (hreceipt : outcome.receipts[location.index]? = some receipt) :
    ∃ r, api.getTransactionReceipt hash = some r ∧
      r.logs = (Numbering.ofGroup location.index 0 receipt.logs).map
        (viewLog outcome location.height) := by
  have hfound : api.backend.receipt hash = some (location, receipt, outcome) := by
    unfold NodeState.receipt
    rw [hlocation, Option.bind_some, hresult, Option.bind_some, hreceipt, Option.map_some]
  unfold getTransactionReceipt
  rw [hfound]
  refine ⟨_, rfl, ?_⟩
  show receipt.logs.zipIdx.map _ = _
  unfold Numbering.ofGroup
  rw [List.map_map]
  refine List.map_congr_left fun entry _ => ?_
  -- the block's loop looks the hash up that the receipt was asked by
  show _ = viewLog outcome location.height ⟨location.index, entry.2, entry.1⟩
  unfold viewLog
  rw [hhash]
  rfl

/-- A view of a receipt tells where the index placed the transaction. -/
theorem location_of_mem_receipt {r : TransactionReceipt}
    (hr : api.getTransactionReceipt hash = some r) (hview : view ∈ r.logs) :
    ∃ location, api.backend.txIndex.lookup hash = some location ∧
      location.height = view.blockNumber ∧ location.index = view.transactionIndex := by
  unfold getTransactionReceipt at hr
  obtain ⟨⟨location, receipt, outcome⟩, hfound, rfl⟩ := Option.map_eq_some_iff.mp hr
  obtain ⟨entry, -, rfl⟩ := List.mem_map.mp hview
  refine ⟨location, ?_, rfl, rfl⟩
  unfold NodeState.receipt at hfound
  obtain ⟨location', hl, hfound⟩ := Option.bind_eq_some_iff.mp hfound
  obtain ⟨outcome', -, hfound⟩ := Option.bind_eq_some_iff.mp hfound
  obtain ⟨receipt', -, he⟩ := Option.map_eq_some_iff.mp hfound
  rw [hl, (Prod.mk.inj he).1]

/-! ### What agreement takes -/

/-- Where transactions are placed, the views of the logs of one are the same exactly if no log
comes before it in its block. -/
theorem same_iff_logsBefore (hplaced : api.backend.EmittersPlaced) (h : api.backend.Emits e) :
    api.SameViews e ↔ logsBefore e.outcome e.index = 0 := by
  have hlogs := getLogs_blockFilter h
  have hfilter := filter_outcomeLogs e.height h.receipt_eq
  obtain ⟨r, hr, hrlogs⟩ : ∃ r, api.getTransactionReceipt e.hash = some r ∧
      r.logs = (Numbering.ofGroup e.index 0 e.receipt.logs).map (viewLog e.outcome e.height) := by
    obtain ⟨location, hlocation, hheight, hindex⟩ := hplaced.located e h
    rw [← hheight, ← hindex]
    refine getTransactionReceipt_logs hlocation ?_ ?_ ?_
    · rw [hheight, h.result]
    · rw [hindex, h.hash_eq]
    · rw [hindex, h.receipt_eq]
  refine ⟨?_, fun hzero => ?_⟩
  · rintro ⟨r', logs, hr', hlogs', -, hsame⟩
    obtain rfl := Option.some.inj (hr.symm.trans hr')
    obtain rfl := Except.ok.inj (hlogs.symm.trans hlogs')
    rw [hrlogs, hfilter] at hsame
    -- the numbers alone tell the lists apart
    have hnumbers : (Numbering.ofGroup e.index 0 e.receipt.logs).map Numbering.Numbered.index
        = (Numbering.ofGroup e.index (logsBefore e.outcome e.index) e.receipt.logs).map
            Numbering.Numbered.index := by
      have := congrArg (List.map LogView.logIndex) hsame
      rw [List.map_map, List.map_map] at this
      exact this
    rw [Numbering.map_index_ofGroup, Numbering.map_index_ofGroup, List.range'_inj] at hnumbers
    rcases hnumbers.2 with hlength | hstart
    · exact absurd (List.length_eq_zero_iff.mp hlength) h.logs_ne
    · exact hstart.symm
  · refine ⟨r, _, hr, hlogs, ?_, ?_⟩
    · rw [hrlogs, List.map_map]
      exact Numbering.map_item_ofGroup e.index 0 e.receipt.logs
    · rw [hrlogs, hfilter, hzero]

/-- Where the views agree, the emitting transactions are placed. -/
theorem LogViewsAgree.emittersPlaced (hagree : api.LogViewsAgree) :
    api.backend.EmittersPlaced := by
  refine ⟨fun e h => ?_, fun e e' h h' he => ?_⟩
  · obtain ⟨r, logs, hr, hlogs, hmap, hsame⟩ := hagree.same e h
    obtain rfl := Except.ok.inj ((getLogs_blockFilter h).symm.trans hlogs)
    -- a view of the receipt is one of the block, with the transaction's place in it
    obtain ⟨view, hview⟩ : ∃ view, view ∈ r.logs := by
      refine List.exists_mem_of_ne_nil _ fun hnil => h.logs_ne ?_
      rw [← hmap, hnil]
      rfl
    obtain ⟨location, hlocation, hheight, hindex⟩ := location_of_mem_receipt hr hview
    rw [hsame] at hview
    obtain ⟨hmem, hplace⟩ := List.mem_filter.mp hview
    refine ⟨location, hlocation, ?_, ?_⟩
    · rw [hheight, (block_of_mem_outcomeLogs hmem).1]
    · rw [hindex, of_decide_eq_true hplace]
  · -- each of the two blocks has a log of number zero
    obtain ⟨view, hview, hzero⟩ := exists_logIndex_zero e.height h.receipt_eq h.logs_ne
    obtain ⟨view', hview', hzero'⟩ := exists_logIndex_zero e'.height h'.receipt_eq h'.logs_ne
    have hreported : api.Reported view := ⟨e, h, Or.inr ⟨_, getLogs_blockFilter h, hview⟩⟩
    have hreported' : api.Reported view' := ⟨e', h', Or.inr ⟨_, getLogs_blockFilter h', hview'⟩⟩
    obtain ⟨hheight, hhash⟩ := block_of_mem_outcomeLogs hview
    obtain ⟨hheight', hhash'⟩ := block_of_mem_outcomeLogs hview'
    have hsame := hagree.unique view view' hreported hreported'
      (hhash.trans (he.trans hhash'.symm)) (hzero.trans hzero'.symm)
    rw [← hheight, hsame, hheight']

/-- Where the views of every emitting transaction are the same, all that is reported are the logs
of blocks. -/
theorem mem_outcomeLogs_of_reported (hsame : ∀ e, api.backend.Emits e → api.SameViews e)
    (h : api.Reported view) :
    ∃ e, api.backend.Emits e ∧ view ∈ outcomeLogs e.outcome e.height := by
  obtain ⟨e, he, ⟨r, hr, hview⟩ | ⟨logs, hlogs, hview⟩⟩ := h
  · obtain ⟨r', logs, hr', hlogs, -, hview'⟩ := hsame e he
    obtain rfl := Option.some.inj (hr.symm.trans hr')
    obtain rfl := Except.ok.inj ((getLogs_blockFilter he).symm.trans hlogs)
    rw [hview'] at hview
    exact ⟨e, he, List.mem_of_mem_filter hview⟩
  · obtain rfl := Except.ok.inj ((getLogs_blockFilter he).symm.trans hlogs)
    exact ⟨e, he, hview⟩

/-- **The two views of the logs agree** if and only if the emitting transactions are placed and no
block has two of them. -/
theorem logViewsAgree_iff (api : EthApiImpl) :
    api.LogViewsAgree ↔ api.backend.EmittersPlaced ∧ api.backend.OneEmitterPerBlock := by
  refine ⟨fun hagree => ?_, ?_⟩
  · refine ⟨hagree.emittersPlaced, fun e h => logsBefore_eq_zero_iff.mp ?_⟩
    exact (same_iff_logsBefore hagree.emittersPlaced h).mp (hagree.same e h)
  · rintro ⟨hplaced, hone⟩
    have hsame : ∀ e, api.backend.Emits e → api.SameViews e := fun e h =>
      (same_iff_logsBefore hplaced h).mpr (logsBefore_eq_zero_iff.mpr (hone e h))
    refine ⟨hsame, fun view view' hview hview' hhash hnumber => ?_⟩
    obtain ⟨e, h, hmem⟩ := mem_outcomeLogs_of_reported hsame hview
    obtain ⟨e', h', hmem'⟩ := mem_outcomeLogs_of_reported hsame hview'
    -- the hash tells the block, and the number the log in it
    have hheight : e.height = e'.height := by
      refine hplaced.distinct e e' h h' ?_
      rw [← (block_of_mem_outcomeLogs hmem).2, hhash, (block_of_mem_outcomeLogs hmem').2]
    have houtcome : e.outcome = e'.outcome := by
      have hresult := h.result
      rw [hheight, h'.result] at hresult
      exact (Option.some.inj hresult).symm
    rw [hheight, houtcome] at hmem
    exact eq_of_logIndex_eq hmem hmem' hnumber

end Lists

end EthApiImpl

/-! ### Runs -/

namespace NodeState

section Runs

variable [HeaderHash] [Evm] [Trie] [FeeRule] {known : Set ChainTx} {n : NodeState}

omit [Trie] [FeeRule] in
/-- **In a node whose index mirrors its chain** the emitting transactions are placed. -/
theorem IndexInv.emittersPlaced (h : IndexInv known n) : n.EmittersPlaced := by
  have hmirrors := h.indexMirrorsChain
  have hlookup : ∀ e, n.Emits e →
      n.txIndex.lookup e.hash = some ⟨e.height, e.outcome.hash, e.index⟩ := fun e hemits =>
    (hmirrors.mirrors _ _).mpr ⟨_, hemits.result, rfl, hemits.hash_eq⟩
  refine ⟨fun e hemits => ⟨_, hlookup e hemits, rfl, rfl⟩, fun e e' hemits hemits' he => ?_⟩
  -- both heights are that of the block on the selected chain, which visits no block twice
  have hchain := hmirrors.on_chain _ _ (hlookup e hemits)
  have hchain' := hmirrors.on_chain _ _ (hlookup e' hemits')
  have hnodup : (n.dag.selectedParentChain n.executor.tip).reverse.Nodup :=
    List.nodup_reverse.mpr (h.valid.nodup_chain h.tip_mem)
  refine (List.getElem?_inj (List.getElem?_eq_some_iff.mp hchain).1 hnodup).mp ?_
  exact hchain.trans ((congrArg some he).trans hchain'.symm)

end Runs

end NodeState

namespace EthApiImpl

variable [HeaderHash] [TxCodec] [Evm] [Trie] [FeeRule] [EthPrimitives]

/-- **The two views of the logs agree** if and only if the emitting transactions are placed and no
block has two of them; in the states of a run in which the index mirrors the chain, if and only if
no block has two emitting transactions. -/
theorem log_views_agree_iff :
    (∀ api : EthApiImpl,
      api.LogViewsAgree ↔ api.backend.EmittersPlaced ∧ api.backend.OneEmitterPerBlock) ∧
    (NonceGuarded → ∀ (params : ChainParams) (genesis : Header) (genesisState : WorldState)
      (k : UInt16) (calls : List BackendCall),
      (∀ tx ∈ NodeState.transactionsOf calls, ∀ tx' ∈ NodeState.transactionsOf calls,
        tx.hash = tx'.hash → tx = tx') →
      Runs.Each NodeState.step NodeState.Succeeds (.new params genesis genesisState k) calls →
      Runs.Each NodeState.step NodeState.InReach (.new params genesis genesisState k) calls →
      Runs.Throughout NodeState.step
        (fun n => ∀ txBytes, (EthApiImpl.mk n txBytes).LogViewsAgree ↔ n.OneEmitterPerBlock)
        (.new params genesis genesisState k) calls) := by
  refine ⟨logViewsAgree_iff, ?_⟩
  intro hevm params genesis genesisState k calls hhashes hok hreach
  -- along a run every emitter stands where its result says, so one condition is left
  have hexec := hok.mono fun _ _ => NodeState.Succeeds.executes
  have hinv := NodeState.indexInv_throughout hevm params genesis genesisState k calls hhashes hexec
    hreach
  refine hinv.imp fun n h txBytes => (logViewsAgree_iff _).trans ?_
  exact and_iff_right h.emittersPlaced

end EthApiImpl

/-! ### Two calls in a block -/

namespace Events

/-- The logs leave the nonces alone. -/
theorem emittingEvm_nonceGuarded : NonceGuarded := by
  obtain ⟨hguard, hbumps, hrises⟩ := Wallet.walletEvm_nonceGuarded
  have hran : ∀ {params : ChainParams} {ctx beneficiary tx s result changes},
      Evm.transact params ctx beneficiary tx s = some (result, changes) → ∃ result',
        Wallet.walletEvm.transact params ctx beneficiary tx s = some (result', changes) := by
    intro params ctx beneficiary tx s result changes h
    -- the changes are those of the wallet EVM, which guards the nonce
    obtain ⟨⟨result', changes'⟩, hran, he⟩ := Option.map_eq_some_iff.mp h
    obtain rfl : changes' = changes := (Prod.mk.inj he).2
    exact ⟨result', hran⟩
  refine ⟨fun h => ?_, fun h => ?_, fun h => ?_⟩
  all_goals obtain ⟨_, hran⟩ := hran h
  · exact hguard hran
  · exact hbumps hran
  · exact hrises hran

end Events

namespace EthApiImpl

open Events Sample

/-- The second of two calls in a block numbers its log from zero again. -/
theorem log_views_of_two_calls : ¬ node.LogViewsAgree := by
  intro hagree
  have hone := ((logViewsAgree_iff node).mp hagree).2
  -- two calls in one block, each with one log
  have hexecuted : (node.backend.executor.results.lookup 1).any (fun outcome =>
      outcome.transactionHashes[1]? = some 1 ∧
        outcome.receipts.map Receipt.logs = [[⟨8, [], []⟩], [⟨8, [], []⟩]]) = true := by
    decide +kernel
  rw [Option.any_eq_true] at hexecuted
  obtain ⟨outcome, hresult, hran⟩ := hexecuted
  obtain ⟨hhash, hlogs⟩ := of_decide_eq_true hran
  have hat : ∀ index < 2, (outcome.receipts.map Receipt.logs)[index]? = some [⟨8, [], []⟩] := by
    rw [hlogs]
    decide
  have hfirst := hat 0 (by decide)
  have hsecond := hat 1 (by decide)
  rw [List.getElem?_map] at hfirst hsecond
  obtain ⟨first, hfirst, hfirstLogs⟩ := Option.map_eq_some_iff.mp hfirst
  obtain ⟨second, hsecond, hsecondLogs⟩ := Option.map_eq_some_iff.mp hsecond
  have hheight : 1 ≤ node.backend.executor.height := by decide +kernel
  -- the second emitter would need the first receipt to be without logs
  have hemits : node.backend.Emits ⟨1, 1, 1, outcome, second⟩ :=
    ⟨hheight, hresult, hhash, hsecond, by simp [hsecondLogs]⟩
  have hnil := hone _ hemits 0 Nat.one_pos first hfirst
  rw [hfirstLogs] at hnil
  exact absurd hnil (List.cons_ne_nil _ _)

/-- The views of the logs in a node that executes two calls in a block. -/
theorem log_views_agree_two_calls :
    Runs.Throughout NodeState.step
      (fun n => ∀ txBytes, (EthApiImpl.mk n txBytes).LogViewsAgree ↔ n.OneEmitterPerBlock)
      (.new Sample.params root Wallet.funded 2) [twoCalls] := by
  refine log_views_agree_iff.2 emittingEvm_nonceGuarded Sample.params root Wallet.funded 2
    [twoCalls] ?_ ?_ ?_
  · have htxs : NodeState.transactionsOf [twoCalls]
        = [(Wallet.call 0).tx, (Wallet.call 1).tx] := rfl
    rw [htxs]
    decide
  · refine ⟨?_, trivial⟩
    unfold NodeState.Succeeds twoCalls
    decide +kernel
  · refine ⟨?_, trivial⟩
    show _ ≤ _
    decide +kernel

end EthApiImpl

end Chainname
