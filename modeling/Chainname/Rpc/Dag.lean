import Chainname.Chain.Advance
import Chainname.Ghostdag.Mining
import Chainname.Rpc.Explorer

/-!
# The DAG over RPC

The methods that a client uses who knows of the DAG: its tips, what GHOSTDAG has to say of a block,
the merge set of a block, and how settled a transaction is. There is no finality, so the last is a
depth, which the client may threshold: the blue score of the selected tip less that of the block
that executed the transaction.

The other methods show a chain. What is told here fits to it (`dag_views`): the selected tip is the
chain's highest block, chain blocks are those that are found by hash, every block behind the tip was
merged by one of them, and the depth of a transaction is exact, no less than the number of chain
blocks above it, and the one that its receipt tells.
-/

namespace Chainname

/-- GHOSTDAG data for one block. -/
structure DagBlockInfo where
  hash : BlockHash
  selectedParent : BlockHash
  parents : List BlockHash
  blueScore : ℕ
  /-- In decimal, as a text. -/
  blueWork : String
  mergesetBlues : List BlockHash
  mergesetReds : List BlockHash
  isChainBlock : Bool
  deriving DecidableEq

/-- Where the DAG currently stands. -/
structure DagTipInfo where
  /-- Every current tip, highest blue work first. -/
  tips : List BlockHash
  virtualSelectedParent : BlockHash
  blueScore : ℕ
  blockCount : ℕ
  executedHeight : ℕ
  deriving DecidableEq

/-- Settlement confidence for a transaction. -/
structure Confidence where
  executed : Bool
  height : Option ℕ
  blueScore : Option ℕ
  /-- How many blue blocks have accumulated since. -/
  blueScoreDepth : Option ℕ
  deriving DecidableEq

/-- The `chainname_*` methods over a node. -/
structure DagApiImpl where
  backend : NodeState

namespace DagApiImpl

/-- The current tip set and selected tip. -/
def getDagTips (api : DagApiImpl) : DagTipInfo where
  tips := api.backend.dag.sortedTips
  virtualSelectedParent := api.backend.dag.virtualSelectedParent
  blueScore := api.backend.dag.blueScore api.backend.dag.virtualSelectedParent
  blockCount := api.backend.dag.len
  executedHeight := api.backend.executor.height

/-- GHOSTDAG data for a block. -/
def getBlockDagInfo (api : DagApiImpl) (hash : BlockHash) : Option DagBlockInfo :=
  (api.backend.dag.data.lookup hash).bind fun data =>
  (api.backend.dag.headers.lookup hash).map fun header =>
    let chain := api.backend.dag.selectedParentChain api.backend.dag.virtualSelectedParent
    { hash := hash
      selectedParent := data.selectedParent
      parents := header.parents
      blueScore := data.blueScore
      blueWork := toString data.blueWork
      mergesetBlues := data.mergesetBlues
      mergesetReds := data.mergesetReds
      isChainBlock := chain.contains hash }

/-- The merge set of a block, in execution order. -/
def getMergeSet (api : DagApiImpl) (hash : BlockHash) : Option (List BlockHash) :=
  (api.backend.dag.data.lookup hash).map GhostdagData.mergesetOrdered

/-- Settlement confidence for a transaction. -/
def getConfidence (api : DagApiImpl) (txHash : B256) : Confidence :=
  match api.backend.txIndex.lookup txHash with
  | none => ⟨false, none, none, none⟩
  | some location =>
    let blockScore := api.backend.dag.blueScore location.chainBlock
    let tipScore := api.backend.dag.blueScore api.backend.dag.virtualSelectedParent
    ⟨true, some location.height, some blockScore, some (tipScore - blockScore)⟩

/-- The deferred state root a header at a height would publish, with the height it is of. -/
def getDeferredStateRoot (api : DagApiImpl) (height : ℕ) : Option (ℕ × B256) :=
  (api.backend.executor.results.lookup
    (height - api.backend.executor.params.deferredStateRootLag)).map fun result =>
      (result.height, result.stateRoot)

end DagApiImpl

namespace EthApiImpl

/-- The methods for the DAG of the same node. -/
def dag (api : EthApiImpl) : DagApiImpl := ⟨api.backend⟩

section Fit

variable [TxCodec] [TxType] [EthPrimitives]

/-- What is told of the DAG fits to the chain that is shown. -/
structure DagFits (api : EthApiImpl) : Prop where
  /-- The tips are the blocks that no block on top of genesis names, the selected one first. -/
  tips : ∃ others, api.dag.getDagTips.tips = api.dag.getDagTips.virtualSelectedParent :: others ∧
    ∀ b, b ∈ api.dag.getDagTips.tips ↔ (∃ info, api.dag.getBlockDagInfo b = some info) ∧
      ∀ c info, api.dag.getBlockDagInfo c = some info → c ≠ api.backend.dag.genesis →
        b ∉ info.parents
  /-- The selected tip is executed. -/
  executed : ∃ view, api.Serves api.dag.getDagTips.executedHeight false view ∧
    view.hash = api.dag.getDagTips.virtualSelectedParent ∧
    view.blueScore = api.dag.getDagTips.blueScore
  /-- Chain blocks are those that are found by hash, and they are told alike. -/
  chain : ∀ b info, api.dag.getBlockDagInfo b = some info →
    (info.isChainBlock = true ↔ ∃ view, api.getBlockByHash b (some false) = some view)
  same : ∀ b info view, api.dag.getBlockDagInfo b = some info →
    api.getBlockByHash b (some false) = some view → info.selectedParent = view.parentHash ∧
      info.blueScore = view.blueScore ∧ info.blueWork = toString view.totalDifficulty
  /-- Every block behind the selected tip was merged by one chain block. -/
  merged : ∀ b, api.backend.dag.Anc b api.dag.getDagTips.virtualSelectedParent →
    ∃! height, ∃ view mergeSet, api.Serves height false view ∧
      api.dag.getMergeSet view.hash = some mergeSet ∧ (b ∈ mergeSet ∨ b = view.hash)
  /-- The confidence of a transaction is exact, and what its receipt tells. -/
  confidence : ∀ hash r, api.getTransactionReceipt hash = some r → ∃ score,
    api.dag.getConfidence hash = ⟨true, some r.blockNumber, some score, some r.blueScoreDepth⟩ ∧
      score + r.blueScoreDepth = api.dag.getDagTips.blueScore ∧
      api.dag.getDagTips.executedHeight ≤ r.blockNumber + r.blueScoreDepth
  unexecuted : ∀ hash, api.getTransactionReceipt hash = none →
    api.dag.getConfidence hash = ⟨false, none, none, none⟩
  /-- The deferred root of a height is that of the block the lag below. -/
  deferred : ∀ height n root, api.dag.getDeferredStateRoot height = some (n, root) ↔
    n = height - api.backend.executor.params.deferredStateRootLag ∧
      ∃ view, api.Serves n false view ∧ view.stateRoot = root

end Fit

end EthApiImpl

/-! ### Execution is up to date -/

namespace NodeState

section Current

variable [HeaderHash] [TxCodec] [Evm] [Trie] [FeeRule] {known : Set ChainTx} {n : NodeState}

/-- The executor stands on the tip that the DAG selects. -/
def Current (n : NodeState) : Prop := n.executor.tip = n.dag.virtualSelectedParent

omit [TxCodec] in
/-- Bringing execution up to date, over a DAG in which the walk meets. -/
theorem current_advance (hvalid : n.dag.Valid) (htip : n.executor.tip ∈ n.dag.headers)
    (hreach : n.dag.divergence n.executor.tip n.dag.virtualSelectedParent ≤ maxReorgWalk)
    (hok : n.advance.2.isOk = true) : n.advance.1.Current := by
  unfold Current
  unfold NodeState.advance at hok ⊢
  by_cases hsame : n.dag.virtualSelectedParent = n.executor.tip
  · rw [if_pos hsame]
    exact hsame.symm
  rw [if_neg hsame] at hok ⊢
  obtain ⟨-, -, -, -, hlast⟩ := hvalid.reorgToSelected htip hreach
  change _ → n.reorg.added.getLast? = _ at hlast
  dsimp only at hok ⊢
  cases happlied : n.executor.applyReorg n.dag n.bodies n.reorg.removed n.reorg.added with
  | mk X result =>
    rw [happlied] at hok
    cases result with
    | error e => exact absurd hok Bool.false_ne_true
    | ok outcomes =>
      -- the last block executed is the selected tip
      have htipX := congrArg (fun applied => applied.1.tip) happlied
      have hokX : (n.executor.applyReorg n.dag n.bodies n.reorg.removed n.reorg.added).2.isOk
          = true := by rw [happlied]; rfl
      unfold ChainExecutor.applyReorg at htipX hokX
      cases hundo : n.executor.undoAll n.reorg.removed with
      | mk Y undone =>
        rw [hundo] at htipX hokX
        cases undone with
        | error e => exact absurd hokX Bool.false_ne_true
        | ok _ =>
          show X.tip = n.dag.virtualSelectedParent
          rw [← htipX]
          dsimp only at hokX ⊢
          rw [ChainExecutor.tip_executeAll hokX, hlast (Ne.symm hsame), Option.getD_some]

/-- **Every legal call** leaves execution up to date, also one that is refused. -/
theorem Current.step (h : n.Current) (hindex : IndexInv known n) {call : BackendCall}
    (hexec : n.Executes call) (hreach : n.InReach call) : (n.step call).Current := by
  cases call with
  | submitRaw encoded =>
    show (n.submitRaw encoded).1.Current
    unfold submitRaw
    split <;> exact h
  | addBlock header transactions =>
    change _ ≤ maxReorgWalk at hreach
    show (n.addBlock header transactions).1.Current
    obtain ⟨e, hrefused⟩ | hok := hexec.cases
    · -- a refusal leaves the tips as they were
      rw [addBlock_of_dag_error hrefused, DagStore.addBlock_of_error hrefused]
      exact h
    unfold Succeeds at hok
    -- the header joins, and the executor is moved to the new selected tip
    have hagree := hindex.valid.addBlock_agree header
    have hvalid := hindex.valid.addBlock header
    unfold NodeState.addBlock at hok ⊢
    dsimp only at hok ⊢
    cases hadd : n.dag.addBlock header with
    | mk D result =>
      rw [hadd] at hagree hvalid hok hreach
      cases result with
      | error e => exact absurd hok Bool.false_ne_true
      | ok _ => exact current_advance hvalid (hagree.mem' hindex.tip_mem) hreach hok

omit [TxCodec] [Trie] [FeeRule] in
theorem IndexInv.height_of_lookup (hindex : IndexInv known n) {height : ℕ}
    {outcome : ChainBlockOutcome} (hl : n.executor.results.lookup height = some outcome) :
    outcome.height = height := by
  obtain ⟨stack, hstands, -, -⟩ := hindex.stack
  rw [hstands.results.lookup] at hl
  exact hstands.results.height height outcome hl

omit [TxCodec] [Trie] [FeeRule] in
/-- The chain of the selected tip is what has been executed, and its highest block is the tip. -/
theorem IndexInv.selected_chain (hindex : IndexInv known n) (h : n.Current) :
    (∀ b, b ∈ n.dag.selectedParentChain n.dag.virtualSelectedParent ↔
      ∃ height outcome, n.executor.results.lookup height = some outcome ∧ outcome.hash = b) ∧
    ∃ outcome, n.executor.results.lookup n.executor.height = some outcome ∧
      outcome.hash = n.dag.virtualSelectedParent := by
  obtain ⟨stack, hstands, hchain, -⟩ := hindex.stack
  rw [← h]
  refine ⟨fun b => ?_, ?_⟩
  · -- the blocks of the stack are those with a result
    rw [← hchain, List.mem_map]
    refine ⟨?_, ?_⟩
    · rintro ⟨outcome, hmem, rfl⟩
      obtain ⟨height, hget⟩ := List.mem_iff_getElem?.mp (List.mem_reverse.mpr hmem)
      exact ⟨height, outcome, (hstands.results.lookup height).trans hget, rfl⟩
    · rintro ⟨height, outcome, hl, rfl⟩
      rw [hstands.results.lookup] at hl
      exact ⟨outcome, List.mem_reverse.mp (List.mem_of_getElem? hl), rfl⟩
  · -- the result on top is that of the tip
    have hhead := hindex.valid.head?_chain hindex.tip_mem
    rw [← hchain, List.head?_map] at hhead
    obtain ⟨outcome, hfirst, hhash⟩ := Option.map_eq_some_iff.mp hhead
    obtain ⟨older, rfl⟩ := List.head?_eq_some_iff.mp hfirst
    have hlength : older.reverse.length = n.executor.height := by
      rw [List.length_reverse]
      exact Nat.succ.inj hstands.results.length
    refine ⟨outcome, ?_, hhash⟩
    rw [hstands.results.lookup, List.reverse_cons, ← hlength, List.getElem?_concat_length]

omit [TxCodec] [Trie] [FeeRule] in
/-- **Scores grow along the chain**, by one block at least. -/
theorem IndexInv.score_add_le (hindex : IndexInv known n) {height d : ℕ}
    {outcome outcome' : ChainBlockOutcome}
    (hl : n.executor.results.lookup height = some outcome)
    (hl' : n.executor.results.lookup (height + d) = some outcome') :
    n.dag.blueScore outcome.hash + d ≤ n.dag.blueScore outcome'.hash := by
  -- one height after the other: every block adds at least itself to its score
  induction d generalizing outcome' with
  | zero =>
    obtain rfl := Option.some.inj (hl.symm.trans hl')
    exact le_rfl
  | succ d ih =>
    have hle := hindex.lookup_isSome_iff.mp ⟨outcome', hl'⟩
    obtain ⟨below, hbelow⟩ := hindex.lookup_isSome_iff.mpr (show height + d ≤ _ by omega)
    obtain ⟨data, hdata⟩ :=
      Maps.mem_iff_exists_lookup.mp (hindex.valid.data_mem.mpr (hindex.mem_of_lookup hl'))
    obtain ⟨hselected, hne⟩ := hindex.selected_of_lookup hbelow hl' hdata
    have hmore := (hindex.valid.adds_to_selected hdata hne).1
    rw [hselected] at hmore
    have hsofar := ih hbelow
    omega

end Current

end NodeState

/-! ### The DAG and the chain -/

namespace EthApiImpl

section Facts

variable [HeaderHash] [TxCodec] [TxType] [EthPrimitives] [Evm] {known : Set ChainTx}
  {api : EthApiImpl} {b : BlockHash} {info : DagBlockInfo}

omit [HeaderHash] [TxCodec] [TxType] [EthPrimitives] [Evm] in
/-- What is told of a block is what the DAG has for it. -/
theorem getBlockDagInfo_eq_some (h : api.dag.getBlockDagInfo b = some info) :
    ∃ data header, api.backend.dag.data.lookup b = some data ∧
      api.backend.dag.headers.lookup b = some header ∧ info.parents = header.parents ∧
      info.selectedParent = data.selectedParent ∧
      info.blueScore = api.backend.dag.blueScore b ∧
      info.blueWork = toString (api.backend.dag.blueWork b) ∧
      (info.isChainBlock = true ↔ b ∈
        api.backend.dag.selectedParentChain api.backend.dag.virtualSelectedParent) := by
  obtain ⟨data, hdata, hrest⟩ := Option.bind_eq_some_iff.mp h
  obtain ⟨header, hheader, rfl⟩ := Option.map_eq_some_iff.mp hrest
  change api.backend.dag.data.lookup b = some data at hdata
  change api.backend.dag.headers.lookup b = some header at hheader
  -- the entry is read from the data and the header of the block
  refine ⟨data, header, hdata, hheader, rfl, rfl, ?_, ?_, ?_⟩
  · simp [DagStore.blueScore, hdata]
  · simp [DagStore.blueWork, hdata]
  · exact List.contains_iff_mem

omit [TxCodec] [TxType] [EthPrimitives] [Evm] in
/-- Every block of the DAG is told of. -/
theorem exists_info_iff (hvalid : api.backend.dag.Valid) :
    (∃ info, api.dag.getBlockDagInfo b = some info) ↔ b ∈ api.backend.dag.headers := by
  refine ⟨?_, fun hmem => ?_⟩
  · rintro ⟨info, h⟩
    obtain ⟨-, header, -, hheader, -⟩ := getBlockDagInfo_eq_some h
    exact Maps.mem_of_lookup hheader
  · -- a stored header has its data, so the entry is there
    obtain ⟨header, hheader⟩ := Maps.mem_iff_exists_lookup.mp hmem
    obtain ⟨data, hdata⟩ := Maps.mem_iff_exists_lookup.mp (hvalid.data_mem.mpr hmem)
    rw [← Option.isSome_iff_exists]
    show ((api.backend.dag.data.lookup b).bind _).isSome = true
    rw [hdata, Option.bind_some]
    show ((api.backend.dag.headers.lookup b).map _).isSome = true
    rw [hheader]
    rfl

omit [TxCodec] [TxType] [EthPrimitives] in
/-- **Every block behind the selected tip** was merged by one chain block. -/
theorem existsUnique_merging (hindex : NodeState.IndexInv known api.backend)
    (hcurrent : api.backend.Current)
    (hanc : api.backend.dag.Anc b api.backend.dag.virtualSelectedParent) :
    ∃! height, ∃ outcome, api.backend.executor.results.lookup height = some outcome ∧
      b ∈ api.backend.dag.baseSequence outcome.hash := by
  obtain ⟨stack, hstands, hchain, -⟩ := hindex.stack
  have hlinear := hindex.valid.linearises hindex.tip_mem
  rw [← hcurrent] at hanc
  -- the linearisation goes through the results, oldest first
  have hsequence : api.backend.dag.linearise api.backend.executor.tip
      = stack.reverse.flatMap fun outcome => api.backend.dag.baseSequence outcome.hash := by
    unfold DagStore.linearise
    rw [← hchain, ← List.map_reverse, List.flatMap_map]
  have hmem := hlinear.mem_iff.mpr hanc
  have hnodup := hlinear.nodup
  rw [hsequence] at hmem hnodup
  obtain ⟨outcome, hout, hb⟩ := List.mem_flatMap.mp hmem
  obtain ⟨height, hget⟩ := List.mem_iff_getElem?.mp hout
  refine ⟨height, ⟨outcome, (hstands.results.lookup height).trans hget, hb⟩, ?_⟩
  rintro other ⟨outcome', hl', hb'⟩
  rw [hstands.results.lookup] at hl'
  -- base sequences at different heights share nothing
  have hpairwise := (List.nodup_flatMap.mp hnodup).2
  by_contra hne
  obtain ⟨hlt, rfl⟩ := List.getElem?_eq_some_iff.mp hget
  obtain ⟨hlt', rfl⟩ := List.getElem?_eq_some_iff.mp hl'
  rcases Nat.lt_or_gt_of_ne hne with hless | hless
  · exact List.pairwise_iff_getElem.mp hpairwise other height hlt' hlt hless hb' hb
  · exact List.pairwise_iff_getElem.mp hpairwise height other hlt hlt' hless hb hb'

omit [HeaderHash] [Evm] [TxType] in
/-- How deep a receipt says its block is buried. -/
theorem blueScoreDepth_of_receipt {hash : B256} {r : TransactionReceipt}
    (h : api.getTransactionReceipt hash = some r) :
    r.blueScoreDepth = api.backend.dag.blueScore api.backend.dag.virtualSelectedParent
      - api.backend.dag.blueScore r.blockHash := by
  obtain ⟨told, -, rfl⟩ := Option.map_eq_some_iff.mp h
  rfl

/-- Every block with a result is served under its height. -/
theorem served_of_lookup (hindex : NodeState.IndexInv known api.backend) {height : ℕ}
    {outcome : ChainBlockOutcome}
    (hl : api.backend.executor.results.lookup height = some outcome) :
    ∃ view, api.Serves height false view ∧ view.hash = outcome.hash ∧
      view.stateRoot = outcome.stateRoot ∧
      view.blueScore = api.backend.dag.blueScore outcome.hash := by
  have hle := hindex.lookup_isSome_iff.mp ⟨outcome, hl⟩
  obtain ⟨view, hview⟩ := (blocksFit hindex).served height hle false
  obtain ⟨outcome', -, hl', -, -, hhash, -, -, -, hscore, -⟩ := view_of_serves hindex hview
  obtain rfl := Option.some.inj (hl.symm.trans hl')
  refine ⟨view, hview, hhash, ?_, hscore⟩
  obtain ⟨outcome', hl', rfl⟩ := Option.map_eq_some_iff.mp (serves_iff.mp hview)
  obtain rfl := Option.some.inj (hl.symm.trans hl')
  rfl

omit [TxCodec] [TxType] [EthPrimitives] [Evm] in
/-- A tip is a block of the DAG that no other block of it names. -/
theorem mem_tips_iff_unnamed (hvalid : api.backend.dag.Valid) :
    b ∈ api.dag.getDagTips.tips ↔ (∃ info, api.dag.getBlockDagInfo b = some info) ∧
      ∀ c info, api.dag.getBlockDagInfo c = some info → c ≠ api.backend.dag.genesis →
        b ∉ info.parents := by
  rw [exists_info_iff hvalid]
  refine DagStore.mem_sortedTips.trans (hvalid.mem_tips.trans (and_congr_right fun _ => ?_))
  refine ⟨fun hno c info hinfo hne hmem => ?_, ?_⟩
  · obtain ⟨-, header, -, hheader, hparents, -⟩ := getBlockDagInfo_eq_some hinfo
    rw [hparents] at hmem
    exact hno c ⟨header, hheader, hne, hmem⟩
  · rintro hno c ⟨header, hheader, hne, hmem⟩
    obtain ⟨info, hinfo⟩ := (exists_info_iff hvalid).mpr (Maps.mem_of_lookup hheader)
    obtain ⟨-, header', -, hheader', hparents, -⟩ := getBlockDagInfo_eq_some hinfo
    obtain rfl := Option.some.inj (hheader.symm.trans hheader')
    exact hno c info hinfo hne (hparents ▸ hmem)

/-- The blocks of the selected chain are those served by their hash. -/
theorem isChainBlock_iff (hindex : NodeState.IndexInv known api.backend)
    (hcurrent : api.backend.Current) (hinfo : api.dag.getBlockDagInfo b = some info) :
    info.isChainBlock = true ↔ ∃ view, api.getBlockByHash b (some false) = some view := by
  have hblocks := blocksFit hindex
  obtain ⟨hchain, -⟩ := hindex.selected_chain hcurrent
  obtain ⟨-, -, -, -, -, -, -, -, hon⟩ := getBlockDagInfo_eq_some hinfo
  rw [hon, hchain]
  refine ⟨?_, ?_⟩
  · rintro ⟨height, outcome, hl, rfl⟩
    obtain ⟨view, hview, hhash, -⟩ := served_of_lookup hindex hl
    exact ⟨view, hhash ▸ (hblocks.numbered height false view hview).2⟩
  · rintro ⟨view, hview⟩
    obtain ⟨hhash, hnumbered⟩ := hblocks.hashed b false view hview
    obtain ⟨outcome, -, hl, -, -, hhash', -⟩ := view_of_serves hindex hnumbered
    exact ⟨view.number, outcome, hl, hhash'.symm.trans hhash⟩

/-- What the chain block at a height merges is its base sequence. -/
theorem merges_iff (hindex : NodeState.IndexInv known api.backend) {height : ℕ} :
    (∃ view mergeSet, api.Serves height false view ∧
      api.dag.getMergeSet view.hash = some mergeSet ∧ (b ∈ mergeSet ∨ b = view.hash)) ↔
    ∃ outcome, api.backend.executor.results.lookup height = some outcome ∧
      b ∈ api.backend.dag.baseSequence outcome.hash := by
  unfold DagStore.baseSequence
  refine ⟨?_, ?_⟩
  · rintro ⟨view, mergeSet, hview, hmerge, hb⟩
    obtain ⟨outcome, data, hl, hdata, -, hhash, -⟩ := view_of_serves hindex hview
    obtain ⟨data', hdata', rfl⟩ := Option.map_eq_some_iff.mp hmerge
    rw [hhash] at hdata' hb
    obtain rfl := Option.some.inj (hdata.symm.trans hdata')
    refine ⟨outcome, hl, ?_⟩
    rw [hdata]
    exact List.mem_append.mpr (hb.imp_right List.mem_singleton.mpr)
  · rintro ⟨outcome, hl, hb⟩
    obtain ⟨view, hview, hhash, -⟩ := served_of_lookup hindex hl
    obtain ⟨data, hdata⟩ :=
      Maps.mem_iff_exists_lookup.mp (hindex.valid.data_mem.mpr (hindex.mem_of_lookup hl))
    rw [hdata] at hb
    refine ⟨view, data.mergesetOrdered, hview, ?_, ?_⟩
    · rw [hhash]
      exact Option.map_eq_some_iff.mpr ⟨data, hdata, rfl⟩
    · rw [hhash]
      exact (List.mem_append.mp hb).imp_right List.mem_singleton.mp

omit [TxType] in
/-- The confirmations of a receipt reach from its block up to the tip. -/
theorem confidence_of_receipt (hindex : NodeState.IndexInv known api.backend)
    (hcurrent : api.backend.Current) {hash : B256} {r : TransactionReceipt}
    (hr : api.getTransactionReceipt hash = some r) :
    ∃ score, api.dag.getConfidence hash
        = ⟨true, some r.blockNumber, some score, some r.blueScoreDepth⟩ ∧
      score + r.blueScoreDepth = api.dag.getDagTips.blueScore ∧
      api.dag.getDagTips.executedHeight ≤ r.blockNumber + r.blueScoreDepth := by
  obtain ⟨-, tip, htip, htipHash⟩ := hindex.selected_chain hcurrent
  obtain ⟨outcome, hl, hblock, -, hlocation⟩ := place_of_receipt hindex hr
  have hle := hindex.lookup_isSome_iff.mp ⟨outcome, hl⟩
  -- every block on the way up adds at least itself to the score
  have hscores := hindex.score_add_le (d := api.backend.executor.height - r.blockNumber) hl
    (by rw [Nat.add_sub_cancel' hle]; exact htip)
  rw [hblock, htipHash] at hscores
  have hdepth := blueScoreDepth_of_receipt hr
  refine ⟨api.backend.dag.blueScore r.blockHash, ?_, ?_, ?_⟩
  · show (match api.backend.txIndex.lookup hash with | none => _ | some location => _) = _
    rw [hlocation, hdepth]
    rfl
  · show _ = api.backend.dag.blueScore api.backend.dag.virtualSelectedParent
    omega
  · show api.backend.executor.height ≤ _
    omega

/-- **The DAG fits to the chain**, in a node whose index mirrors its chain and whose execution is up
to date. -/
theorem dagFits (hindex : NodeState.IndexInv known api.backend) (hcurrent : api.backend.Current) :
    api.DagFits := by
  obtain ⟨-, tip, htip, htipHash⟩ := hindex.selected_chain hcurrent
  refine ⟨?_, ?_, fun b info hinfo => isChainBlock_iff hindex hcurrent hinfo,
    fun b info view hinfo hview => ?_, fun b hanc => ?_,
    fun hash r hr => confidence_of_receipt hindex hcurrent hr, fun hash hnone => ?_,
    fun height n root => ?_⟩
  · -- the first tip of `getTips` is the virtual selected parent
    obtain ⟨others, hothers⟩ :=
      DagStore.exists_sortedTips_cons hindex.valid.virtualSelectedParent_mem
    exact ⟨others, hothers, fun b => mem_tips_iff_unnamed hindex.valid⟩
  · -- the sink is the block at the tip's height
    obtain ⟨view, hview, hhash, -, hscore⟩ := served_of_lookup hindex htip
    rw [htipHash] at hhash hscore
    exact ⟨view, hview, hhash, hscore⟩
  · -- where both answer they answer alike
    obtain ⟨hhash, hnumbered⟩ := (blocksFit hindex).hashed b false view hview
    obtain ⟨outcome, data, -, hdata, -, hhash', hparent, -, hwork, hscore, -⟩ :=
      view_of_serves hindex hnumbered
    obtain rfl : outcome.hash = b := hhash'.symm.trans hhash
    obtain ⟨data', -, hdata', -, -, hselected, hscore', hwork', -⟩ := getBlockDagInfo_eq_some hinfo
    obtain rfl := Option.some.inj (hdata.symm.trans hdata')
    rw [hselected, hparent, hscore', hscore, hwork', hwork]
    exact ⟨rfl, rfl, rfl⟩
  · simp only [merges_iff hindex]
    exact existsUnique_merging hindex hcurrent hanc
  · -- no receipt, no index entry, no confirmations
    have hlookup := (receipt_eq_none_iff hindex).mp hnone
    show (match api.backend.txIndex.lookup hash with | none => _ | some location => _) = _
    rw [hlookup]
  · -- a result carries the height that it is recorded for
    unfold DagApiImpl.getDeferredStateRoot
    rw [Option.map_eq_some_iff]
    refine ⟨?_, ?_⟩
    · rintro ⟨result, hl, he⟩
      obtain ⟨rfl, rfl⟩ := Prod.mk.inj he
      have hheight := hindex.height_of_lookup hl
      obtain ⟨view, hview, -, hroot, -⟩ := served_of_lookup hindex hl
      exact ⟨hheight, view, hheight ▸ hview, hroot⟩
    · rintro ⟨rfl, view, hview, rfl⟩
      obtain ⟨outcome, hl, rfl⟩ := Option.map_eq_some_iff.mp (serves_iff.mp hview)
      exact ⟨outcome, hl, Prod.ext (hindex.height_of_lookup hl) rfl⟩

end Facts

/-- **What is told of the DAG fits to the chain that is shown**, throughout every run at whose calls
execution does not fail (a call may be refused) and that stays within the guard of the walk, if the
EVM guards nonces and hashes identify the transactions. -/
theorem dag_views [HeaderHash] [TxCodec] [TxType] [EthPrimitives] [Evm] [Trie] [FeeRule]
    (hevm : NonceGuarded) (params : ChainParams) (genesis : Header) (genesisState : WorldState)
    (k : UInt16) (calls : List BackendCall)
    (hhashes : ∀ tx ∈ NodeState.transactionsOf calls, ∀ tx' ∈ NodeState.transactionsOf calls,
      tx.hash = tx'.hash → tx = tx')
    (hexec : Runs.Each NodeState.step NodeState.Executes (.new params genesis genesisState k) calls)
    (hreach : Runs.Each NodeState.step NodeState.InReach (.new params genesis genesisState k) calls) :
    Runs.Throughout NodeState.step (fun n => ∀ txBytes, (EthApiImpl.mk n txBytes).DagFits)
      (.new params genesis genesisState k) calls := by
  have hinv := NodeState.indexInv_throughout hevm params genesis genesisState k calls hhashes hexec
    hreach
  -- a fresh node stands on genesis, the only block
  have hstart : (NodeState.new params genesis genesisState k).Current := rfl
  have hall := hinv.and_of_step
    (fun n call hindex hcurrent hlegal => hcurrent.step hindex hlegal.1 hlegal.2)
    (hexec.and hreach) hstart
  exact hall.imp fun n ⟨hindex, hcurrent⟩ txBytes => dagFits hindex hcurrent

section Moved

open Explorer Wallet Sample

/-- What `moved` asks for, and in between a block that is known and one without its parent. -/
def movedAndRefused : List BackendCall :=
  [.addBlock (block 1 [0] 0x2000ffff) [(call 0).tx], .addBlock (block 1 [0] 0x2000ffff) [],
    .addBlock (block 2 [0] 0x1f00ffff) [], .addBlock (block 5 [4] 0x2000ffff) [],
    .addBlock (block 3 [2] 0x2000ffff) [(call 0).tx]]

/-- The DAG and the chain of a node that undoes a block and executes its transaction on another
branch, and refuses two blocks. -/
theorem dag_views_moved :
    Runs.Throughout NodeState.step (fun n => ∀ txBytes, (EthApiImpl.mk n txBytes).DagFits)
      (.new Sample.params root funded 2) movedAndRefused := by
  refine dag_views walletEvm_nonceGuarded Sample.params root funded 2 movedAndRefused ?_ ?_ ?_
  · have hall : ∀ tx ∈ NodeState.transactionsOf movedAndRefused, tx = (call 0).tx := by
      simp [NodeState.transactionsOf, movedAndRefused]
    intro tx htx tx' htx' _
    rw [hall tx htx, hall tx' htx']
  · have hok : ∀ (n : NodeState) (header : Header) (transactions : List ChainTx),
        (n.addBlock header transactions).2.isOk = true →
          n.Executes (.addBlock header transactions) :=
      fun n header transactions h => NodeState.Succeeds.executes h
    refine ⟨hok _ _ _ ?_, fun e he => ?_, hok _ _ _ ?_, fun e he => ?_, hok _ _ _ ?_, trivial⟩
    · decide +kernel
    · rw [NodeState.addBlock_of_dag_error (e := .alreadyPresent (hashOf 1))] at he
      · cases he
      · decide +kernel
    · decide +kernel
    · rw [NodeState.addBlock_of_dag_error (e := .missingParent (hashOf 5) (hashOf 4))] at he
      · cases he
      · decide +kernel
    · decide +kernel
  · refine ⟨?_, ?_, ?_, ?_, ?_, trivial⟩ <;> (show _ ≤ _; decide +kernel)

end Moved

end EthApiImpl

end Chainname
