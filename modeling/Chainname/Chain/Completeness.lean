import Chainname.Chain.Rounds

/-!
# Every transaction is considered once

Executing a chain block goes through the transactions of its base sequence in canonical
order and either records a result or skips. `Accounts` says that an executed block is the
record of such a pass: counters, hashes and receipts are read off the list of what became of
each transaction (`Considered`). Both loops build it, one transaction at a time or a round
at a time, and absorbing a round that fell back appends its pass.

With what deduplication leaves (`taggedTransactions`) this is `executeChainBlock_complete`.
-/

namespace Chainname

/-- A transaction with its beneficiary, and its result, `none` if it was skipped. -/
structure Considered where
  item : Address × ChainTx
  result : Option ExecutionResult
  deriving DecidableEq

/-- The running sum of the gas that results report, as 64-bit arithmetic has it. -/
def runningGas (results : List ExecutionResult) : ℕ :=
  min (results.map ExecutionResult.txGasUsed).sum (2 ^ 64 - 1)

theorem runningGas_append (results results' : List ExecutionResult) :
    runningGas (results ++ results')
      = U64.saturatingAdd (runningGas results) (runningGas results') := by
  unfold runningGas U64.saturatingAdd
  rw [List.map_append, List.sum_append]
  omega

/-- The receipts of results that come after `earlier` ones. -/
def receiptsAfter (earlier : List ExecutionResult) : List ExecutionResult → List Receipt
  | [] => []
  | result :: results =>
    ⟨result.success, runningGas (earlier ++ [result]), result.logs⟩
      :: receiptsAfter (earlier ++ [result]) results

theorem receiptsAfter_append (earlier results results' : List ExecutionResult) :
    receiptsAfter earlier (results ++ results')
      = receiptsAfter earlier results ++ receiptsAfter (earlier ++ results) results' := by
  induction results generalizing earlier with
  | nil => rw [List.append_nil]; rfl
  | cons result results ih =>
    have happend : earlier ++ result :: results = earlier ++ [result] ++ results := by simp
    rw [List.cons_append, receiptsAfter, ih, happend]
    rfl

/-- Receipts that count from zero, rebased. -/
theorem receiptsAfter_rebase (base earlier results : List ExecutionResult) :
    receiptsAfter (base ++ earlier) results = (receiptsAfter earlier results).map fun receipt =>
      { receipt with
        cumulativeGasUsed := U64.saturatingAdd (runningGas base) receipt.cumulativeGasUsed } := by
  induction results generalizing earlier with
  | nil => rfl
  | cons result results ih =>
    rw [receiptsAfter, receiptsAfter, List.map_cons, List.append_assoc, ih, runningGas_append]

theorem length_receiptsAfter (earlier results : List ExecutionResult) :
    (receiptsAfter earlier results).length = results.length := by
  induction results generalizing earlier with
  | nil => rfl
  | cons result results ih => exact congrArg Nat.succ (ih _)

theorem getElem?_receiptsAfter (earlier results : List ExecutionResult) (i : ℕ) :
    (receiptsAfter earlier results)[i]? = results[i]?.map fun result =>
      ⟨result.success, runningGas (earlier ++ results.take (i + 1)), result.logs⟩ := by
  induction results generalizing earlier i with
  | nil => rfl
  | cons result results ih =>
    cases i with
    | zero => rfl
    | succ i =>
      rw [receiptsAfter, List.getElem?_cons_succ, List.getElem?_cons_succ, ih, List.append_assoc]
      rfl

/-- The transactions of a pass that were executed, with their results. -/
def executions (pass : List Considered) : List ((Address × ChainTx) × ExecutionResult) :=
  pass.filterMap fun entry => entry.result.map fun result => (entry.item, result)

theorem executions_append (pass pass' : List Considered) :
    executions (pass ++ pass') = executions pass ++ executions pass' :=
  List.filterMap_append

/-- The block is the record of a pass. -/
structure Accounts (block : ExecutedBlock) (pass : List Considered) : Prop where
  executed : block.executed = (executions pass).length
  /-- Nothing is lost: what is not executed is deferred. -/
  deferred : block.executed + block.deferred = pass.length
  hashes : block.transactionHashes = (executions pass).map fun entry => entry.1.2.hash
  gasUsed : block.gasUsed = runningGas ((executions pass).map Prod.snd)
  receipts : block.receipts = receiptsAfter [] ((executions pass).map Prod.snd)

theorem Accounts.empty : Accounts .empty [] := ⟨rfl, rfl, rfl, rfl, rfl⟩

section Steps

variable {block block' : ExecutedBlock} {pass pass' : List Considered}

theorem Accounts.skip (h : Accounts block pass) (item : Address × ChainTx) :
    Accounts block.skip (pass ++ [⟨item, none⟩]) := by
  have hexec : executions (pass ++ [⟨item, none⟩]) = executions pass := by
    rw [executions_append]
    exact List.append_nil _
  -- nothing was executed, so only `deferred` moves
  refine ⟨?_, ?_, ?_, ?_, ?_⟩
  · rw [hexec]
    exact h.executed
  · rw [List.length_append, ← h.deferred]
    rfl
  · rw [hexec]
    exact h.hashes
  · rw [hexec]
    exact h.gasUsed
  · rw [hexec]
    exact h.receipts

theorem Accounts.noteAll (h : Accounts block pass) (addresses : Finset Address)
    (s : WorldState) : Accounts (block.noteAll addresses s) pass :=
  ⟨h.executed, h.deferred, h.hashes, h.gasUsed, h.receipts⟩

theorem Accounts.record (h : Accounts block pass) (item : Address × ChainTx)
    (result : ExecutionResult) :
    Accounts (block.record item.2 result) (pass ++ [⟨item, some result⟩]) := by
  -- the receipt carries the gas used up to and including this execution
  have hexec : executions (pass ++ [⟨item, some result⟩])
      = executions pass ++ [(item, result)] := executions_append _ _
  have hgas : U64.saturatingAdd block.gasUsed result.txGasUsed
      = runningGas ((executions pass).map Prod.snd ++ [result]) := by
    rw [h.gasUsed]
    unfold runningGas U64.saturatingAdd
    rw [List.map_append, List.sum_append, List.map_singleton, List.sum_singleton]
    omega
  refine ⟨?_, ?_, ?_, ?_, ?_⟩
  · rw [hexec, List.length_append, ← h.executed]
    rfl
  · rw [List.length_append, ← h.deferred]
    show block.executed + 1 + block.deferred = block.executed + block.deferred + 1
    omega
  · rw [hexec, List.map_append, ← h.hashes]
    rfl
  · rw [hexec, List.map_append]
    exact hgas
  · rw [hexec, List.map_append, receiptsAfter_append, ← h.receipts]
    show block.receipts ++ [⟨result.success, _, result.logs⟩] = _
    rw [hgas]
    rfl

/-- **Absorbing** a block appends its pass, with its gas counted on. -/
theorem Accounts.absorb (h : Accounts block pass) (h' : Accounts block' pass') :
    Accounts (block.absorb block') (pass ++ pass') := by
  refine ⟨?_, ?_, ?_, ?_, ?_⟩
  · rw [executions_append, List.length_append, ← h.executed, ← h'.executed]
    rfl
  · rw [List.length_append, ← h.deferred, ← h'.deferred]
    show block.executed + block'.executed + (block.deferred + block'.deferred) = _
    omega
  · rw [executions_append, List.map_append, ← h.hashes, ← h'.hashes]
    rfl
  · rw [executions_append, List.map_append, runningGas_append, ← h.gasUsed, ← h'.gasUsed]
    rfl
  · -- the receipts of the round start where the block's gas stood
    have hrebase := receiptsAfter_rebase ((executions pass).map Prod.snd) []
      ((executions pass').map Prod.snd)
    rw [List.append_nil] at hrebase
    rw [executions_append, List.map_append, receiptsAfter_append, ← h.receipts, List.nil_append,
      hrebase, ← h'.receipts, ← h.gasUsed]
    rfl

end Steps

/-! ### The two loops -/

section Loops

variable [Evm] (params : ChainParams) (ctx : ChainBlockCtx) (gasLimit : ℕ)

/-- Every result of a pass is what the EVM reported for the transaction, run with its
beneficiary. -/
def RanBy (pass : List Considered) : Prop :=
  ∀ entry ∈ pass, ∀ result, entry.result = some result →
    ∃ s changes, Evm.transact params ctx entry.item.1 entry.item.2 s = some (result, changes)

/-- The block is the record of a pass over `items`, in their order. -/
def PassOver (block : ExecutedBlock) (items : List (Address × ChainTx)) : Prop :=
  ∃ pass, pass.map Considered.item = items ∧ Accounts block pass ∧ RanBy params ctx pass

variable {params ctx gasLimit}

theorem PassOver.empty : PassOver params ctx .empty [] :=
  ⟨[], rfl, Accounts.empty, fun _ h => absurd h List.not_mem_nil⟩

theorem RanBy.append {pass pass' : List Considered} (h : RanBy params ctx pass)
    (h' : RanBy params ctx pass') : RanBy params ctx (pass ++ pass') := fun entry hm =>
  (List.mem_append.mp hm).elim (h entry) (h' entry)

theorem PassOver.skip {block : ExecutedBlock} {items : List (Address × ChainTx)}
    (h : PassOver params ctx block items) (item : Address × ChainTx) :
    PassOver params ctx block.skip (items ++ [item]) := by
  obtain ⟨pass, rfl, haccounts, hran⟩ := h
  refine ⟨pass ++ [⟨item, none⟩], List.map_append, haccounts.skip item, hran.append ?_⟩
  intro entry hm result hresult
  rw [List.mem_singleton.mp hm] at hresult
  exact absurd hresult.symm (Option.some_ne_none result)

theorem PassOver.noteAll {block : ExecutedBlock} {items : List (Address × ChainTx)}
    (h : PassOver params ctx block items) (addresses : Finset Address) (s : WorldState) :
    PassOver params ctx (block.noteAll addresses s) items := by
  obtain ⟨pass, hitems, haccounts, hran⟩ := h
  exact ⟨pass, hitems, haccounts.noteAll addresses s, hran⟩

theorem PassOver.record {block : ExecutedBlock} {items : List (Address × ChainTx)}
    (h : PassOver params ctx block items) {item : Address × ChainTx} {s : WorldState}
    {result : ExecutionResult} {changes : EvmState}
    (htx : Evm.transact params ctx item.1 item.2 s = some (result, changes)) :
    PassOver params ctx (block.record item.2 result) (items ++ [item]) := by
  obtain ⟨pass, rfl, haccounts, hran⟩ := h
  refine ⟨pass ++ [⟨item, some result⟩], List.map_append, haccounts.record item result,
    hran.append ?_⟩
  intro entry hm result' hresult
  rw [List.mem_singleton.mp hm] at hresult ⊢
  obtain rfl := Option.some.inj hresult
  exact ⟨s, changes, htx⟩

theorem PassOver.absorb {block block' : ExecutedBlock} {items items' : List (Address × ChainTx)}
    (h : PassOver params ctx block items) (h' : PassOver params ctx block' items') :
    PassOver params ctx (block.absorb block') (items ++ items') := by
  obtain ⟨pass, rfl, haccounts, hran⟩ := h
  obtain ⟨pass', rfl, haccounts', hran'⟩ := h'
  exact ⟨pass ++ pass', List.map_append, haccounts.absorb haccounts', hran.append hran'⟩

/-- One transaction at a time. -/
theorem PassOver.foldl_transactOne {items : List (Address × ChainTx)} :
    ∀ {done : List (Address × ChainTx)} {st : WorldState × ExecutedBlock},
      PassOver params ctx st.2 done →
      PassOver params ctx (items.foldl (transactOne params ctx gasLimit) st).2 (done ++ items) := by
  induction items with
  | nil =>
    intro done st h
    rw [List.append_nil]
    exact h
  | cons item items ih =>
    intro done st h
    have hstep : PassOver params ctx (transactOne params ctx gasLimit st item).2
        (done ++ [item]) := by
      unfold transactOne
      -- no room: skipped; not executable: skipped; else recorded with its result
      split
      · exact h.skip item
      · split
        · next result changes htx => exact (h.noteAll changes.keys st.1).record htx
        · exact h.skip item
    rw [List.append_cons]
    exact ih hstep

/-- A speculation with a result is a run of the EVM. -/
theorem transact_of_speculation {s : WorldState} {item : Address × ChainTx}
    {result : ExecutionResult} (h : (speculation params ctx s item).result = some result) :
    ∃ changes, Evm.transact params ctx item.1 item.2 s = some (result, changes) := by
  unfold speculation speculateOne at h
  cases htx : Evm.transact params ctx item.1 item.2 s with
  | none =>
    rw [htx] at h
    exact absurd h.symm (Option.some_ne_none result)
  | some out =>
    obtain ⟨result', diff⟩ := out
    rw [htx] at h
    dsimp only at h
    -- the beneficiary's handling does not change the result
    have hresult : some result' = some result := by
      split at h
      · exact h
      · split at h
        · exact h
        · exact h
    exact ⟨diff, by rw [Option.some.inj hresult]⟩

/-- A round at a time. -/
theorem PassOver.commitRound {s : WorldState} {block : ExecutedBlock}
    {done round : List (Address × ChainTx)} (h : PassOver params ctx block done) :
    PassOver params ctx
      (commitRound gasLimit s block (round.zip (speculate s params ctx round))).2
      (done ++ round) := by
  -- the loop over the round, from any block so far
  have hloop : ∀ (items done : List (Address × ChainTx)) (st : RoundState),
      PassOver params ctx st.block done → PassOver params ctx
        (items.foldl (fun st item => commitOne gasLimit st (item, speculation params ctx s item))
          st).block (done ++ items) := by
    intro items
    induction items with
    | nil =>
      intro done st h
      rw [List.append_nil]
      exact h
    | cons item items ih =>
      intro done st h
      have hstep : PassOver params ctx
          (commitOne gasLimit st (item, speculation params ctx s item)).block
          (done ++ [item]) := by
        unfold commitOne
        split
        · exact h.skip item
        · -- a failed speculation is skipped, an executed one is recorded
          cases hresult : (speculation params ctx s item).result with
          | none => exact h.skip item
          | some result =>
            obtain ⟨changes, htx⟩ := transact_of_speculation hresult
            exact ((h.noteAll _ _).noteAll _ _).record htx
      rw [List.append_cons]
      exact ih _ _ hstep
  unfold Chainname.commitRound
  dsimp only
  rw [foldl_speculate _ fun _ _ _ _ => rfl]
  exact hloop round done _ h

/-- **The sequential path** passes over the order. -/
theorem executeSequentially_passOver (s : WorldState) (tagged : List (Address × ChainTx))
    (order : List ℕ) :
    PassOver params ctx (executeSequentially params ctx gasLimit s tagged order).2
      (pick tagged order) := by
  have hloop : PassOver params ctx
      ((pick tagged order).foldl (transactOne params ctx gasLimit) (s, .empty)).2
      ([] ++ pick tagged order) := PassOver.foldl_transactOne PassOver.empty
  exact hloop

/-- One round of the parallel path, committed or fallen back. -/
theorem PassOver.executeLayer {tagged : List (Address × ChainTx)} {st : LayerState}
    {done : List (Address × ChainTx)} (h : PassOver params ctx st.block done) (layer : List ℕ) :
    PassOver params ctx (executeLayer params ctx gasLimit tagged st layer).block
      (done ++ pick tagged layer) := by
  unfold Chainname.executeLayer
  dsimp only
  split
  · exact h.absorb (executeSequentially_passOver st.state tagged layer)
  · exact h.commitRound

/-- **The parallel path** passes over the order. -/
theorem executeRoundsParallel_passOver (s : WorldState) (tagged : List (Address × ChainTx))
    (order : List ℕ) (access : List TxAccessSet) :
    PassOver params ctx (executeRoundsParallel params ctx gasLimit s tagged order access).block
      (pick tagged order) := by
  -- the layers left, what has been passed over in `done`
  have hloop : ∀ (layers : List (List ℕ)) (st : LayerState) (done : List (Address × ChainTx)),
      PassOver params ctx st.block done → PassOver params ctx
        (layers.foldl (Chainname.executeLayer params ctx gasLimit tagged) st).block
        (done ++ pick tagged layers.flatten) := by
    intro layers
    induction layers with
    | nil =>
      intro st done h
      rw [List.flatten_nil, show pick tagged [] = [] from rfl, List.append_nil]
      exact h
    | cons layer layers ih =>
      intro st done h
      rw [List.flatten_cons, pick_append, ← List.append_assoc]
      exact ih _ _ (h.executeLayer layer)
  have hall := hloop (partitionRounds order access) ⟨s, .empty, 0, 0⟩ [] PassOver.empty
  rw [flatten_partitionRounds, List.nil_append] at hall
  exact hall

end Loops

/-! ### The transactions of a chain block -/

namespace ChainExecutor

/-- The canonical order of the transactions of a chain block, with their beneficiaries. -/
def canonicalOrder (D : DagStore) (bodies : BodyStore) (hash : BlockHash) :
    List (Address × ChainTx) :=
  pick (taggedTransactions D bodies hash)
    (layerAndSort ((taggedTransactions D bodies hash).map fun item => TxAccessSet.of item.2))

/-- The distinct transaction hashes in the bodies of the merge set and the block itself. -/
def hashesOf (D : DagStore) (bodies : BodyStore) (hash : BlockHash) : Finset B256 :=
  (((D.baseSequence hash).flatMap bodies.get).map ChainTx.hash).toFinset

/-- A block that carries a transaction of this hash. -/
def Carries (bodies : BodyStore) (source : BlockHash) (txHash : B256) : Prop :=
  ∃ tx ∈ bodies.get source, tx.hash = txHash

/-- What is left after deduplication is each hash once. -/
theorem map_hash_taggedTransactions (D : DagStore) (bodies : BodyStore) (hash : BlockHash) :
    ((taggedTransactions D bodies hash).map fun item => item.2.hash).Nodup ∧
      ((taggedTransactions D bodies hash).map fun item => item.2.hash).toFinset
        = hashesOf D bodies hash := by
  refine ⟨nodup_deduplicate _ _, ?_⟩
  ext txHash
  unfold taggedTransactions hashesOf
  rw [List.mem_toFinset, mem_map_deduplicate, List.mem_toFinset, List.map_flatMap,
    List.map_flatMap]
  simp [List.mem_flatMap]

/-- The canonical order is a permutation of what deduplication leaves. -/
theorem canonicalOrder_perm (D : DagStore) (bodies : BodyStore) (hash : BlockHash) :
    (canonicalOrder D bodies hash).Perm (taggedTransactions D bodies hash) :=
  pick_canonical_perm _

/-- An occurrence in a concatenation lies in one of its parts. -/
theorem exists_split_of_flatMap {α β : Type} {f : α → List β} {x : β} :
    ∀ {sources : List α} {before after : List β}, sources.flatMap f = before ++ x :: after →
      ∃ sources₁ source sources₂, sources = sources₁ ++ source :: sources₂ ∧ x ∈ f source ∧
        ∀ other ∈ sources₁, ∀ y ∈ f other, y ∈ before := by
  intro sources
  induction sources with
  | nil => intro before after h; simp at h
  | cons source sources ih =>
    intro before after h
    rw [List.flatMap_cons] at h
    -- either the occurrence is in the first part, or the first part is all before it
    obtain ⟨rest, hbefore, hrest⟩ | ⟨rest, hpart, hrest⟩ := List.append_eq_append_iff.mp h
    · obtain ⟨sources₁, found, sources₂, rfl, hmem, hearlier⟩ := ih hrest
      refine ⟨source :: sources₁, found, sources₂, rfl, hmem, fun other hother y hy => ?_⟩
      rw [hbefore]
      obtain rfl | hother := List.mem_cons.mp hother
      · exact List.mem_append_left _ hy
      · exact List.mem_append_right _ (hearlier other hother y hy)
    · cases rest with
      | nil =>
        obtain ⟨sources₁, found, sources₂, rfl, hmem, hearlier⟩ :=
          ih (show _ = [] ++ x :: after by simpa using hrest.symm)
        refine ⟨source :: sources₁, found, sources₂, rfl, hmem, fun other hother y hy => ?_⟩
        obtain rfl | hother := List.mem_cons.mp hother
        · rw [hpart, List.append_nil] at hy
          exact hy
        · exact absurd (hearlier other hother y hy) List.not_mem_nil
      | cons first rest =>
        obtain ⟨rfl, -⟩ := List.cons.inj hrest
        refine ⟨[], source, sources, rfl, ?_, fun other hother => absurd hother List.not_mem_nil⟩
        rw [hpart]
        exact List.mem_append_right _ List.mem_cons_self

/-- **Attribution.** The beneficiary of a transaction is the miner of the first block of the
base sequence whose body carries it. -/
theorem beneficiary_of_mem {D : DagStore} {bodies : BodyStore} {hash : BlockHash}
    {item : Address × ChainTx} (h : item ∈ taggedTransactions D bodies hash) :
    ∃ earlier source later, D.baseSequence hash = earlier ++ source :: later ∧
      item.2 ∈ bodies.get source ∧ (∀ other ∈ earlier, ¬ Carries bodies other item.2.hash) ∧
      item.1 = (D.headers.lookup source).elim 0 Header.miner := by
  obtain ⟨before, after, hsplit, hfirst⟩ := first_of_mem_deduplicate h
  obtain ⟨earlier, source, later, hseq, hmem, hearlier⟩ := exists_split_of_flatMap hsplit
  obtain ⟨tx, htx, rfl⟩ := List.mem_map.mp hmem
  refine ⟨earlier, source, later, hseq, htx, ?_, rfl⟩
  rintro other hother ⟨tx', htx', hhash⟩
  exact hfirst _ (hearlier other hother _ (List.mem_map_of_mem htx')) hhash

/-- What it is for an outcome to be complete, and to attribute every transaction to the
block that carried it first. -/
structure Complete [Evm] (params : ChainParams) (D : DagStore) (bodies : BodyStore)
    (hash : BlockHash) (ctx : ChainBlockCtx) (outcome : ChainBlockOutcome)
    (pass : List Considered) : Prop where
  /-- Every distinct transaction hash is considered exactly once, in canonical order. -/
  order : pass.map Considered.item = canonicalOrder D bodies hash
  once : (pass.map fun entry => entry.item.2.hash).Nodup
  all : (pass.map fun entry => entry.item.2.hash).toFinset = hashesOf D bodies hash
  count : outcome.executed + outcome.deferred = (hashesOf D bodies hash).card
  /-- The hashes are those of the executed transactions, without duplicates and in order. -/
  executed : outcome.executed = (executions pass).length
  hashes : outcome.transactionHashes = (executions pass).map fun entry => entry.1.2.hash
  hashes_nodup : outcome.transactionHashes.Nodup
  hashes_sublist : outcome.transactionHashes.Sublist
    ((canonicalOrder D bodies hash).map fun item => item.2.hash)
  /-- One receipt for each executed transaction, with the running sum of the gas used. -/
  receipts_length : outcome.receipts.length = outcome.executed
  receipt : ∀ i entry, (executions pass)[i]? = some entry →
    outcome.receipts[i]? = some (⟨entry.2.success,
      runningGas (((executions pass).map Prod.snd).take (i + 1)), entry.2.logs⟩ : Receipt)
  gasUsed : outcome.gasUsed = runningGas ((executions pass).map Prod.snd)
  /-- A result is what the EVM reports with the transaction's beneficiary in force. -/
  ran : RanBy params ctx pass
  /-- The beneficiary is the miner of the first block whose body carries the transaction. -/
  beneficiary : ∀ entry ∈ pass, ∃ earlier source later,
    D.baseSequence hash = earlier ++ source :: later ∧ entry.item.2 ∈ bodies.get source ∧
      (∀ other ∈ earlier, ¬ Carries bodies other entry.item.2.hash) ∧
      entry.item.1 = (D.headers.lookup source).elim 0 Header.miner

variable [Evm]

/-- The block that the transactions of a chain block make is a pass over the canonical order,
in either mode. -/
theorem runTransactions_passOver (X : ChainExecutor) (D : DagStore) (bodies : BodyStore)
    (hash : BlockHash) (ctx : ChainBlockCtx) :
    PassOver X.params ctx (X.runTransactions (taggedTransactions D bodies hash) ctx).block
      (canonicalOrder D bodies hash) := by
  unfold runTransactions
  dsimp only
  split
  · exact executeRoundsParallel_passOver _ _ _ _
  · exact executeSequentially_passOver _ _ _

omit [Evm] in
theorem executions_sublist (pass : List Considered) :
    ((executions pass).map fun entry => entry.1.2.hash).Sublist
      (pass.map fun entry => entry.item.2.hash) := by
  induction pass with
  | nil => exact .slnil
  | cons entry pass ih =>
    -- only executions leave a hash, and they stay in order
    cases hresult : entry.result with
    | none =>
      have hexec : executions (entry :: pass) = executions pass := by
        unfold executions
        rw [List.filterMap_cons, hresult]
        rfl
      rw [hexec]
      exact ih.cons _
    | some result =>
      have hexec : executions (entry :: pass) = (entry.item, result) :: executions pass := by
        unfold executions
        rw [List.filterMap_cons, hresult]
        rfl
      rw [hexec]
      exact ih.cons_cons _

variable [Trie] [FeeRule]

/-- Executing a block that is in the DAG considers every transaction of its base sequence once. -/
theorem complete_of_lookup (X : ChainExecutor) {D : DagStore} (bodies : BodyStore)
    {hash : BlockHash} {header : Header} (hl : D.headers.lookup hash = some header) :
    ∃ X' outcome pass, X.executeChainBlock D bodies hash = (X', .ok outcome) ∧
      Complete X.params D bodies hash (X.blockCtx hash header) outcome pass := by
  unfold executeChainBlock
  rw [hl]
  obtain ⟨pass, hitems, haccounts, hran⟩ :=
    X.runTransactions_passOver D bodies hash (X.blockCtx hash header)
  obtain ⟨hnodup, hall⟩ := map_hash_taggedTransactions D bodies hash
  have hperm := (canonicalOrder_perm D bodies hash).map fun item => item.2.hash
  have hmap : (pass.map fun entry => entry.item.2.hash)
      = (canonicalOrder D bodies hash).map fun item => item.2.hash := by
    rw [← hitems, List.map_map]
    rfl
  -- the pass is a permutation of the deduplicated transactions
  have honce : (pass.map fun entry => entry.item.2.hash).Nodup := by
    rw [hmap]
    exact hperm.nodup_iff.mpr hnodup
  have hset : (pass.map fun entry => entry.item.2.hash).toFinset = hashesOf D bodies hash := by
    rw [hmap, ← hall]
    exact List.toFinset_eq_of_perm _ _ hperm
  refine ⟨_, _, pass, rfl, hitems, honce, hset, ?_, haccounts.executed,
    haccounts.hashes, ?_, ?_, ?_, fun i entry hi => ?_, haccounts.gasUsed, hran, ?_⟩
  · refine haccounts.deferred.trans ?_
    rw [← hset, List.toFinset_card_of_nodup honce, List.length_map]
  · show (X.runTransactions _ _).block.transactionHashes.Nodup
    rw [haccounts.hashes]
    exact honce.sublist (executions_sublist pass)
  · show (X.runTransactions _ _).block.transactionHashes.Sublist _
    rw [haccounts.hashes, ← hmap]
    exact executions_sublist pass
  · show (X.runTransactions _ _).block.receipts.length = (X.runTransactions _ _).block.executed
    rw [haccounts.receipts, length_receiptsAfter, List.length_map, haccounts.executed]
  · show (X.runTransactions _ _).block.receipts[i]? = _
    rw [haccounts.receipts, getElem?_receiptsAfter, List.getElem?_map, hi]
    rfl
  · intro entry hm
    refine beneficiary_of_mem ((canonicalOrder_perm D bodies hash).mem_iff.mp ?_)
    rw [← hitems]
    exact List.mem_map_of_mem hm

/-- What an execution reports is complete. -/
theorem complete_of_executed {X X' : ChainExecutor} {D : DagStore} {bodies : BodyStore}
    {hash : BlockHash} {outcome : ChainBlockOutcome}
    (h : X.executeChainBlock D bodies hash = (X', .ok outcome)) :
    ∃ header pass, Complete X.params D bodies hash (X.blockCtx hash header) outcome pass := by
  cases hl : D.headers.lookup hash with
  | none =>
    unfold executeChainBlock at h
    rw [hl] at h
    cases (Prod.mk.inj h).2
  | some header =>
    obtain ⟨Y, outcome', pass, hrun, hcomplete⟩ := X.complete_of_lookup bodies hl
    obtain rfl := Except.ok.inj (Prod.mk.inj (h.symm.trans hrun)).2
    exact ⟨header, pass, hcomplete⟩

/-- **Completeness and attribution.** Executing a chain block, in either mode, either finds
that the block is not in the DAG or considers every transaction of its base sequence once,
with the beneficiary that carried it first. -/
theorem executeChainBlock_complete (X : ChainExecutor) (D : DagStore) (bodies : BodyStore)
    (hash : BlockHash) :
    (D.headers.lookup hash = none ∧
        X.executeChainBlock D bodies hash = (X, .error (.unknownBlock hash))) ∨
      ∃ header X' outcome pass, D.headers.lookup hash = some header ∧
        X.executeChainBlock D bodies hash = (X', .ok outcome) ∧
        Complete X.params D bodies hash (X.blockCtx hash header) outcome pass := by
  cases hl : D.headers.lookup hash with
  | none =>
    refine Or.inl ⟨rfl, ?_⟩
    unfold executeChainBlock
    rw [hl]
  | some header =>
    obtain ⟨X', outcome, pass, hrun, hcomplete⟩ := X.complete_of_lookup bodies hl
    exact Or.inr ⟨header, X', outcome, pass, rfl, hrun, hcomplete⟩

end ChainExecutor

end Chainname
