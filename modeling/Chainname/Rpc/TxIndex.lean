import Chainname.Chain.Nonces
import Chainname.Library.Runs
import Chainname.Library.StackIndex
import Chainname.Rpc.Backend

/-!
# The transaction index mirrors the executed chain

The index says where a transaction was executed: at which height, in which chain block, and in
which place. Before blocks are undone it drops what points to them, by hash; after blocks have
been executed it learns where their transactions are. The executor's results are a stack, so the
index mirrors them as long as no block and no transaction occurs twice (`StackIndex`).

Blocks do not occur twice, as the results are those of the selected chain of the tip, if no
reorganisation is longer than the guard of its walk. Transactions do not, by their nonces.
-/

namespace Chainname

namespace NodeState

/-! ### The index and the stack of results -/

/-- The index tells where the transactions of the stack are. -/
def IndexMirrors (txIndex : Map B256 TxLocation) (stack : List ChainBlockOutcome) : Prop :=
  StackIndex.Mirrors ChainBlockOutcome.hash ChainBlockOutcome.transactionHashes
    (fun hash height chainBlock index => txIndex.lookup hash = some ⟨height, chainBlock, index⟩) stack

variable {txIndex : Map B256 TxLocation} {stack top rest : List ChainBlockOutcome}

theorem mem_locations {outcome : ChainBlockOutcome} {hash : B256} {location : TxLocation} :
    (hash, location) ∈ locations outcome ↔ location.height = outcome.height ∧
      location.chainBlock = outcome.hash ∧ outcome.transactionHashes[location.index]? = some hash := by
  unfold locations
  rw [List.mem_map]
  refine ⟨?_, ?_⟩
  · rintro ⟨⟨hash', index⟩, hmem, he⟩
    obtain ⟨rfl, rfl⟩ := Prod.mk.inj he
    exact ⟨rfl, rfl, List.mem_zipIdx_iff_getElem?.mp hmem⟩
  · obtain ⟨height, chainBlock, index⟩ := location
    rintro ⟨rfl, rfl, hget⟩
    exact ⟨(hash, index), List.mem_zipIdx_iff_getElem?.mpr hget, rfl⟩

theorem map_fst_locations (outcome : ChainBlockOutcome) :
    (locations outcome).map Prod.fst = outcome.transactionHashes := by
  unfold locations
  rw [List.map_map]
  exact List.zipIdx_map_fst 0 outcome.transactionHashes

/-- Dropping what points to removed blocks. -/
theorem IndexMirrors.retain (h : IndexMirrors txIndex (top ++ rest))
    (hblocks : ((top ++ rest).map ChainBlockOutcome.hash).Nodup) :
    IndexMirrors (Maps.retain
      (fun _ location => !(top.map ChainBlockOutcome.hash).contains location.chainBlock) txIndex)
      rest := by
  intro hash height chainBlock index
  refine Iff.trans ?_ (StackIndex.Mirrors.pop h hblocks hash height chainBlock index)
  exact Maps.lookup_retain_eq_some.trans (and_congr_right fun _ => by simp)

/-- Learning where the transactions of one block are. -/
theorem IndexMirrors.insert (h : IndexMirrors txIndex rest) {outcome : ChainBlockOutcome}
    (hheight : outcome.height = rest.length)
    (hnodup : ((outcome :: rest).flatMap ChainBlockOutcome.transactionHashes).Nodup) :
    IndexMirrors (NodeState.indexAll txIndex [outcome]) (outcome :: rest) := by
  rw [List.flatMap_cons] at hnodup
  -- a transaction executes once on the chain, so none of these is indexed below
  have hfresh : ∀ hash ∈ outcome.transactionHashes,
      hash ∉ rest.flatMap ChainBlockOutcome.transactionHashes := fun hash hmem =>
    List.disjoint_of_nodup_append hnodup hmem
  have hkeys : ((locations outcome).map Prod.fst).Nodup := by
    rw [map_fst_locations]
    exact (List.nodup_append.mp hnodup).1
  intro hash height chainBlock index
  refine Iff.trans ?_ (StackIndex.Mirrors.push h hfresh hash height chainBlock index)
  unfold NodeState.indexAll
  rw [List.flatMap_singleton]
  refine (Maps.lookup_foldl_insert hkeys txIndex).trans ?_
  rw [mem_locations, map_fst_locations, hheight]

/-- Learning where the transactions of executed blocks are. -/
theorem IndexMirrors.indexAll {outcomes : List ChainBlockOutcome} (h : IndexMirrors txIndex rest)
    (hheights : ∀ i (outcome : ChainBlockOutcome),
      (outcomes.reverse ++ rest).reverse[i]? = some outcome → outcome.height = i)
    (hnodup : ((outcomes.reverse ++ rest).flatMap ChainBlockOutcome.transactionHashes).Nodup) :
    IndexMirrors (NodeState.indexAll txIndex outcomes) (outcomes.reverse ++ rest) := by
  -- outcome by outcome, each pushed on those before it
  induction outcomes generalizing txIndex rest with
  | nil => exact h
  | cons outcome outcomes ih =>
    have hsplit : (outcome :: outcomes).reverse ++ rest = outcomes.reverse ++ outcome :: rest := by
      rw [List.reverse_cons, List.append_assoc, List.singleton_append]
    rw [hsplit] at hheights hnodup ⊢
    have hall : NodeState.indexAll txIndex (outcome :: outcomes)
        = NodeState.indexAll (NodeState.indexAll txIndex [outcome]) outcomes := by
      unfold NodeState.indexAll
      rw [List.flatMap_cons, List.foldl_append, List.flatMap_singleton]
    rw [hall]
    refine ih (h.insert (hheights rest.length outcome ?_) ?_) hheights hnodup
    · -- it lies right on top of the rest
      rw [List.reverse_append, List.reverse_reverse, List.reverse_cons, List.append_assoc,
        ← List.length_reverse, List.getElem?_append_right le_rfl, Nat.sub_self]
      rfl
    · rw [List.flatMap_append] at hnodup
      exact (List.nodup_append.mp hnodup).2.1

/-! ### A node -/

/-- The transactions of the blocks that a run adds. -/
def transactionsOf (calls : List BackendCall) : List ChainTx :=
  calls.flatMap fun
    | .submitRaw _ => []
    | .addBlock _ transactions => transactions

section Node

variable [HeaderHash] [TxCodec] [Evm] [Trie] [FeeRule]

/-- The selected chains before and after the call differ in no more blocks than the guard of the
walk allows. -/
def InReach (n : NodeState) : BackendCall → Prop
  | .submitRaw _ => True
  | .addBlock header _ =>
    (n.dag.addBlock header).1.divergence n.executor.tip (n.dag.addBlock header).1.virtualSelectedParent
      ≤ maxReorgWalk

/-- The transaction index mirrors the executed chain. -/
structure IndexMirrorsChain (n : NodeState) : Prop where
  /-- The index knows where the executed transactions are, and nothing else. -/
  mirrors : ∀ hash location, n.txIndex.lookup hash = some location ↔
    ∃ outcome, n.executor.results.lookup location.height = some outcome ∧
      outcome.hash = location.chainBlock ∧ outcome.transactionHashes[location.index]? = some hash
  /-- What it points to is on the selected chain of the tip. -/
  on_chain : ∀ hash location, n.txIndex.lookup hash = some location →
    (n.dag.selectedParentChain n.executor.tip).reverse[location.height]? = some location.chainBlock
  /-- Every executed transaction has a receipt, and no other has one. -/
  receipt_isSome : ∀ hash, (n.receipt hash).isSome = true ↔
    ∃ height outcome, n.executor.results.lookup height = some outcome ∧
      hash ∈ outcome.transactionHashes
  /-- It is the receipt of the transaction itself. -/
  receipt_eq : ∀ hash location receipt outcome, n.receipt hash = some (location, receipt, outcome) →
    outcome.hash = location.chainBlock ∧ outcome.transactionHashes[location.index]? = some hash ∧
      ∃ ctx beneficiary tx s result changes, tx.hash = hash ∧
        Evm.transact n.executor.params ctx beneficiary tx s = some (result, changes) ∧
        receipt.status = result.success ∧ receipt.logs = result.logs

/-- The invariant of a node: its results are a stack over the selected chain of the tip, with
every transaction executed once, and the index mirrors the stack. -/
structure IndexInv (known : Set ChainTx) (n : NodeState) : Prop where
  valid : n.dag.Valid
  tip_mem : n.executor.tip ∈ n.dag.headers
  parallel : n.executor.parallel = false
  bodies : ∀ source, ∀ tx ∈ n.bodies.get source, tx ∈ known
  stack : ∃ stack, n.executor.Stands (ChainExecutor.Ledger n.executor.params known) stack ∧
    stack.map ChainBlockOutcome.hash = n.dag.selectedParentChain n.executor.tip ∧
    IndexMirrors n.txIndex stack

variable {known : Set ChainTx} {n : NodeState}

omit [TxCodec] [Trie] [FeeRule] in
/-- **What the invariant says of the index.** -/
theorem IndexInv.indexMirrorsChain (h : IndexInv known n) : IndexMirrorsChain n := by
  obtain ⟨stack, hstands, hchain, hmirrors⟩ := h.stack
  have hmirrors' : ∀ hash location, n.txIndex.lookup hash = some location ↔
      ∃ outcome, n.executor.results.lookup location.height = some outcome ∧
        outcome.hash = location.chainBlock ∧
        outcome.transactionHashes[location.index]? = some hash := fun hash location => by
    simp only [hstands.results.lookup]
    exact hmirrors hash location.height location.chainBlock location.index
  have hreported : ∀ {height outcome}, n.executor.results.lookup height = some outcome →
      ChainExecutor.Reported n.executor.params outcome := by
    intro height outcome hl
    rw [hstands.results.lookup] at hl
    exact hstands.now.reported outcome (List.mem_reverse.mp (List.mem_of_getElem? hl))
  -- an entry names a block of the chain, what was executed has a receipt, and it is its own
  refine ⟨hmirrors', fun hash location hl => ?_, fun hash => ⟨fun hsome => ?_, ?_⟩, ?_⟩
  · obtain ⟨outcome, hout, hhash, -⟩ := (hmirrors' hash location).mp hl
    rw [hstands.results.lookup] at hout
    rw [← hchain, ← List.map_reverse, List.getElem?_map, hout, Option.map_some, hhash]
  · obtain ⟨location, hl⟩ : ∃ location, n.txIndex.lookup hash = some location := by
      unfold receipt at hsome
      cases hl : n.txIndex.lookup hash with
      | none => simp [hl] at hsome
      | some location => exact ⟨location, rfl⟩
    obtain ⟨outcome, hout, -, hget⟩ := (hmirrors' hash location).mp hl
    exact ⟨location.height, outcome, hout, List.mem_of_getElem? hget⟩
  · rintro ⟨height, outcome, hout, hmem⟩
    obtain ⟨index, hget⟩ := List.mem_iff_getElem?.mp hmem
    have hl := (hmirrors' hash ⟨height, outcome.hash, index⟩).mpr ⟨outcome, hout, rfl, hget⟩
    have hlt : index < outcome.receipts.length := by
      rw [(hreported hout).1]
      exact (List.getElem?_eq_some_iff.mp hget).1
    unfold receipt
    rw [hl, Option.bind_some, hout, Option.bind_some, List.getElem?_eq_getElem hlt]
    rfl
  · intro hash location receipt outcome hreceipt
    unfold NodeState.receipt at hreceipt
    obtain ⟨location', hl, hreceipt⟩ := Option.bind_eq_some_iff.mp hreceipt
    obtain ⟨outcome', hout, hreceipt⟩ := Option.bind_eq_some_iff.mp hreceipt
    obtain ⟨receipt', hget, he⟩ := Option.map_eq_some_iff.mp hreceipt
    obtain ⟨rfl, rfl, rfl⟩ : location' = location ∧ receipt' = receipt ∧ outcome' = outcome := by
      simpa using he
    obtain ⟨outcome, hout', hhash, hat⟩ := (hmirrors' hash location').mp hl
    obtain rfl := Option.some.inj (hout.symm.trans hout')
    exact ⟨hhash, hat, (hreported hout).2 location'.index hash receipt' hat hget⟩

omit [TxCodec] in
/-- A node that reorganises to the virtual selected parent, over a DAG in which the walk
meets. -/
theorem IndexInv.advance (hevm : NonceGuarded) (hknown : Set.InjOn ChainTx.hash known)
    (h : IndexInv known n)
    (hreach : n.dag.divergence n.executor.tip n.dag.virtualSelectedParent ≤ maxReorgWalk)
    (hok : n.advance.2.isOk = true) : IndexInv known n.advance.1 := by
  obtain ⟨stack, hstands, hchain, hmirrors⟩ := h.stack
  unfold NodeState.advance at hok ⊢
  by_cases htip : n.dag.virtualSelectedParent = n.executor.tip
  · rw [if_pos htip]
    exact h
  rw [if_neg htip] at hok ⊢
  have hvsp : n.dag.virtualSelectedParent ∈ n.dag.headers :=
    (h.valid.mem_tips.mp h.valid.virtualSelectedParent_mem).1
  obtain ⟨fork, hfork, hold, hnew, hlast⟩ := h.valid.reorgToSelected h.tip_mem hreach
  change _ = n.reorg.removed ++ _ at hold
  change _ = n.reorg.added.reverse ++ _ at hnew
  unfold ChainExecutor.applyReorg at hok ⊢
  cases hundo : n.executor.undoAll n.reorg.removed with
  | mk Y result =>
    rw [hundo] at hok
    cases result with
    | error e => exact absurd hok Bool.false_ne_true
    | ok _ =>
      obtain ⟨top, rest, rfl, htop, hY, hmode, hparams⟩ := hstands.undoAll hundo
      have hadded : ∀ hash ∈ n.reorg.added, hash ∈ n.dag.headers := by
        intro hash hmem
        refine (h.valid.anc_of_mem_chain hvsp ?_).mem h.valid.layered.toRooted hvsp
        rw [hnew]
        exact List.mem_append_left _ (List.mem_reverse.mpr hmem)
      rw [← hparams] at hY
      obtain ⟨X, outcomes, hrun, hX, hhashes, hXtip, hXmode, hXparams⟩ := hY.executeAll hevm hknown
        h.bodies hadded [] (hmode.trans h.parallel)
      rw [List.nil_append] at hrun
      dsimp only
      rw [hrun]
      -- the outcomes left lie over the chain of the fork
      have hrest : rest.map ChainBlockOutcome.hash = n.dag.selectedParentChain fork := by
        rw [hold, ← htop, List.map_append] at hchain
        exact List.append_cancel_left hchain
      have hstack : (outcomes.reverse ++ rest).map ChainBlockOutcome.hash
          = n.dag.selectedParentChain n.dag.virtualSelectedParent := by
        rw [List.map_append, List.map_reverse, hhashes, hrest, hnew]
      have htipEq : X.tip = n.dag.virtualSelectedParent := by
        have hadded : n.reorg.added.getLast? = some n.dag.virtualSelectedParent :=
          hlast (Ne.symm htip)
        rw [hXtip, hadded]
        rfl
      rw [hparams] at hX hXparams
      refine ⟨h.valid, ?_, hXmode, h.bodies, outcomes.reverse ++ rest, ?_, ?_, ?_⟩
      · show X.tip ∈ n.dag.headers
        rw [htipEq]
        exact hvsp
      · show X.Stands (ChainExecutor.Ledger X.params known) _
        rw [hXparams]
        exact hX
      · show _ = n.dag.selectedParentChain X.tip
        rw [htipEq, hstack]
      · have hblocks : ((top ++ rest).map ChainBlockOutcome.hash).Nodup := by
          rw [hchain]
          exact h.valid.nodup_chain h.tip_mem
        have hkept := hmirrors.retain hblocks
        rw [htop] at hkept
        exact hkept.indexAll hX.results.height hX.now.nodup

/-- **Every legal call keeps the invariant**, also one that is refused. -/
theorem IndexInv.step (hevm : NonceGuarded) (hknown : Set.InjOn ChainTx.hash known)
    (h : IndexInv known n) {call : BackendCall} (hcall : ∀ tx ∈ transactionsOf [call], tx ∈ known)
    (hexec : n.Executes call) (hreach : n.InReach call) : IndexInv known (n.step call) := by
  cases call with
  | submitRaw encoded =>
    show IndexInv known (n.submitRaw encoded).1
    unfold submitRaw
    split
    · exact h
    · exact ⟨h.valid, h.tip_mem, h.parallel, h.bodies, h.stack⟩
  | addBlock header transactions =>
    change _ ≤ maxReorgWalk at hreach
    show IndexInv known (n.addBlock header transactions).1
    have hagree := h.valid.addBlock_agree header
    have hvalid := h.valid.addBlock header
    obtain ⟨stack, hstands, hchain, hmirrors⟩ := h.stack
    have hchain' := hchain.trans (hagree.selectedParentChain_eq h.tip_mem)
    -- refused by the store, or executed
    obtain ⟨e, hrefused⟩ | hok := hexec.cases
    · rw [addBlock_of_dag_error hrefused]
      exact ⟨hvalid, hagree.mem' h.tip_mem, h.parallel, h.bodies, stack, hstands, hchain', hmirrors⟩
    unfold Succeeds at hok
    unfold NodeState.addBlock at hok ⊢
    dsimp only at hok ⊢
    cases hadd : n.dag.addBlock header with
    | mk D result =>
      rw [hadd] at hagree hvalid hok hreach hchain'
      cases result with
      | error e => exact absurd hok Bool.false_ne_true
      | ok _ =>
        refine IndexInv.advance hevm hknown ⟨hvalid, hagree.mem' h.tip_mem, h.parallel, ?_, ?_⟩ hreach hok
        · -- the body stored carries transactions of the calls
          intro source tx htx
          obtain hcarried | hstored := BodyStore.mem_get_insert htx
          · exact hcall tx (by simpa [transactionsOf] using hcarried)
          · exact h.bodies source tx hstored
        · exact ⟨stack, hstands, hchain', hmirrors⟩

omit [TxCodec] in
theorem indexInv_new (params : ChainParams) (genesis : Header) (genesisState : WorldState)
    (k : UInt16) : IndexInv known (new params genesis genesisState k) := by
  have hvalid := DagStore.new_valid genesis k params.mergesetSizeLimit
  obtain ⟨outcome, hhash, hnone, hstands⟩ :=
    ChainExecutor.stands_new params genesisState genesis.hash
  refine ⟨hvalid, hvalid.genesis_mem, rfl, ?_, [outcome], hstands, ?_, ?_⟩
  · -- at the start: no bodies, the genesis alone on the chain, an empty index
    intro source tx htx
    exact absurd htx (by simp [new, BodyStore.get])
  · show [outcome.hash] = (DagStore.new genesis k params.mergesetSizeLimit).selectedParentChain
      (DagStore.new genesis k params.mergesetSizeLimit).genesis
    rw [DagStore.selectedParentChain_genesis, hhash]
    rfl
  · intro hash height chainBlock index
    refine iff_of_false (by simp [new]) ?_
    intro hlocated
    have hmem := hlocated.mem.2
    rw [List.flatMap_singleton, hnone] at hmem
    exact absurd hmem List.not_mem_nil

/-- **The invariant holds throughout** every run of calls at which execution does not fail, if the
EVM guards nonces and hashes identify the transactions. -/
theorem indexInv_throughout (hevm : NonceGuarded) (params : ChainParams) (genesis : Header)
    (genesisState : WorldState) (k : UInt16) (calls : List BackendCall)
    (hhashes : ∀ tx ∈ transactionsOf calls, ∀ tx' ∈ transactionsOf calls,
      tx.hash = tx'.hash → tx = tx')
    (hexec : Runs.Each step Executes (new params genesis genesisState k) calls)
    (hreach : Runs.Each step InReach (new params genesis genesisState k) calls) :
    Runs.Throughout step (IndexInv {tx | tx ∈ transactionsOf calls})
      (new params genesis genesisState k) calls := by
  set known : Set ChainTx := {tx | tx ∈ transactionsOf calls}
  have hknown : Set.InjOn ChainTx.hash known := fun tx htx tx' htx' he => hhashes tx htx tx' htx' he
  -- every transaction a call carries is one of the calls'
  have hcarried : ∀ call ∈ calls, ∀ tx ∈ transactionsOf [call], tx ∈ known := by
    intro call hcall tx htx
    rw [transactionsOf, List.flatMap_singleton] at htx
    exact List.mem_flatMap.mpr ⟨call, hcall, htx⟩
  have hlegal := (hexec.and hreach).and (Runs.each_of_mem (fun _ => hcarried) _)
  refine hlegal.throughout (fun n call h hcall => ?_) (indexInv_new params genesis genesisState k)
  exact h.step hevm hknown hcall.2 hcall.1.1 hcall.1.2

/-- **The transaction index mirrors the executed chain** throughout every run whose calls return
`Ok` and stay within the guard of the walk, if the EVM guards nonces and hashes identify the
transactions. -/
theorem index_mirrors_chain (hevm : NonceGuarded) (params : ChainParams) (genesis : Header)
    (genesisState : WorldState) (k : UInt16) (calls : List BackendCall)
    (hhashes : ∀ tx ∈ transactionsOf calls, ∀ tx' ∈ transactionsOf calls,
      tx.hash = tx'.hash → tx = tx')
    (hok : Runs.Each step Succeeds (new params genesis genesisState k) calls)
    (hreach : Runs.Each step InReach (new params genesis genesisState k) calls) :
    Runs.Throughout step IndexMirrorsChain (new params genesis genesisState k) calls := by
  have hexec := hok.mono fun _ _ => Succeeds.executes
  have hinv := indexInv_throughout hevm params genesis genesisState k calls hhashes hexec hreach
  exact hinv.imp fun n h => h.indexMirrorsChain

end Node

end NodeState

/-! ### A transaction that is executed on two branches -/

namespace Wallet

open Sample

theorem wallet_commit (ctx : ChainBlockCtx) (s : WorldState) (signer a : Address) :
    (s.commit (Finmap.singleton signer (paid ctx (infoOf (s.account signer))))).nonce a
      = if a = signer then s.nonce signer + 1 else s.nonce a := by
  unfold WorldState.nonce WorldState.account
  rw [WorldState.lookup_commit]
  split
  · next h =>
    rw [h, Finmap.lookup_singleton_eq]
    simp [WorldState.committed, paid, infoOf]
  · next h =>
    rw [Finmap.lookup_eq_none.mpr (by rwa [Finmap.mem_singleton])]
    rfl

theorem walletEvm_nonceGuarded : NonceGuarded := by
  -- a run of the wallet EVM pays its sender's account and touches no other
  have hrun : ∀ {params : ChainParams} {ctx beneficiary tx s result changes},
      Evm.transact params ctx beneficiary tx s = some (result, changes) →
      Payable ctx tx (infoOf (s.account tx.signer)) ∧
        changes = Finmap.singleton tx.signer (paid ctx (infoOf (s.account tx.signer))) := by
    intro params ctx beneficiary tx s result changes h
    unfold Evm.transact walletEvm at h
    dsimp only at h
    split at h
    · next hpay => exact ⟨hpay, (Prod.mk.inj (Option.some.inj h)).2.symm⟩
    · cases h
  refine ⟨fun h => (hrun h).1.1, fun {params ctx beneficiary tx s result changes} h => ?_,
    fun {params ctx beneficiary tx s result changes} h a => ?_⟩
  · obtain ⟨⟨hnonce, hlt, -⟩, rfl⟩ := hrun h
    rw [wallet_commit, if_pos rfl, hnonce]
    exact hlt
  · obtain ⟨⟨-, hlt, -⟩, rfl⟩ := hrun h
    rw [wallet_commit]
    split
    · next he =>
      rw [he]
      exact UInt64.le_of_lt hlt
    · exact UInt64.le_refl _

/-- A block executes a call, and a heavier branch beside it executes the same call later. -/
def moved : List BackendCall :=
  [.addBlock (block 1 [0] 0x2000ffff) [(call 0).tx], .addBlock (block 2 [0] 0x1f00ffff) [],
    .addBlock (block 3 [2] 0x2000ffff) [(call 0).tx]]

end Wallet

namespace NodeState

open Wallet Sample

/-- The index of a node that undoes a block and executes its transaction on another branch. -/
theorem index_mirrors_chain_moved :
    Runs.Throughout step IndexMirrorsChain (new Sample.params root funded 2) moved := by
  refine index_mirrors_chain walletEvm_nonceGuarded Sample.params root funded 2 moved ?_ ?_ ?_
  · intro tx htx tx' htx' _
    have hall : ∀ tx ∈ transactionsOf moved, tx = (call 0).tx := by
      simp [transactionsOf, moved]
    rw [hall tx htx, hall tx' htx']
  · refine ⟨?_, ?_, ?_, trivial⟩ <;> (unfold Succeeds; decide +kernel)
  · refine ⟨?_, ?_, ?_, trivial⟩ <;> (show _ ≤ _; decide +kernel)

end NodeState

end Chainname
