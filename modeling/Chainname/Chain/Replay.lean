import Chainname.Chain.Bookkeeping
import Chainname.Execution.CodeByHash

/-!
# Executing a block on two states that look the same

A block executed by the sequential path on two states that look the same to the EVM gives
the same receipts, the same undo record and states that look the same again (`InView`). The
undo record restores the accounts from before the block, and registered code stays.

For executors this says: two of them that agree on height, results and the view of the
state (`Like`) agree after executing the same block, whatever their journals and however
they got there.
-/

namespace Chainname

section Sequential

variable [Evm] (codeOf : B256 → Bytecode)

/-- Two runs of the sequential path, the first from `before`: they look the same, have
recorded the same, and the record undoes the first. -/
structure InView (before : WorldState) (p q : WorldState × ExecutedBlock) : Prop where
  view : SameView codeOf p.1 q.1
  block : q.2 = p.2
  restores : UndoRecord.Restores p.2.undo before p.1
  code : ∀ hash ∈ before.code, hash ∈ p.1.code
  blockHashes : p.1.blockHashes = before.blockHashes

variable {codeOf} {params : ChainParams} {ctx : ChainBlockCtx} {gasLimit : ℕ}

omit [Evm] in
theorem noteAll_congr {s S : WorldState} (h : S.accounts = s.accounts) (record : UndoRecord)
    (addresses : Finset Address) :
    UndoRecord.noteAll record addresses S = UndoRecord.noteAll record addresses s := by
  unfold UndoRecord.noteAll UndoRecord.note WorldState.account
  rw [h]

/-- One transaction. -/
theorem InView.step (hcode : CodeByHash codeOf) {before : WorldState}
    {p q : WorldState × ExecutedBlock} (h : InView codeOf before p q) (item : Address × ChainTx) :
    InView codeOf before (transactOne params ctx gasLimit p item)
      (transactOne params ctx gasLimit q item) := by
  obtain ⟨s, block⟩ := p
  obtain ⟨S, block'⟩ := q
  obtain rfl : block' = block := h.block
  have hskip : InView codeOf before (s, block'.skip) (S, block'.skip) :=
    ⟨h.view, rfl, h.restores, h.code, h.blockHashes⟩
  unfold transactOne
  dsimp only
  -- the block is full, the transaction is not executable, or both commit the same changes
  by_cases hgas : gasLimit < U64.saturatingAdd block'.gasUsed item.2.gasLimit
  · rw [if_pos hgas, if_pos hgas]
    exact hskip
  rw [if_neg hgas, if_neg hgas, h.view.transact_eq hcode]
  cases htx : Evm.transact params ctx item.1 item.2 s with
  | none => exact hskip
  | some out =>
    obtain ⟨result, changes⟩ := out
    refine ⟨h.view.commit hcode htx, ?_, ?_, fun hash hm => ?_, ?_⟩
    · -- the pre-values noted are those of the accounts, which are the same
      show (ExecutedBlock.noteAll block' changes.keys S).record item.2 result
        = (ExecutedBlock.noteAll block' changes.keys s).record item.2 result
      unfold ExecutedBlock.noteAll
      rw [noteAll_congr h.view.accounts]
    · exact h.restores.commit changes (Finset.Subset.refl _)
    · exact WorldState.mem_code_commit (h.code hash hm)
    · exact (WorldState.blockHashes_commit s changes).trans h.blockHashes

variable (params ctx gasLimit) in
/-- **A block on two states that look the same.** -/
theorem executeSequentially_inView (hcode : CodeByHash codeOf) {s S : WorldState}
    (h : SameView codeOf s S) (tagged : List (Address × ChainTx)) (order : List ℕ) :
    InView codeOf s (executeSequentially params ctx gasLimit s tagged order)
      (executeSequentially params ctx gasLimit S tagged order) := by
  have hrun : ∀ (l : List (Address × ChainTx)) (p q : WorldState × ExecutedBlock),
      InView codeOf s p q → InView codeOf s (l.foldl (transactOne params ctx gasLimit) p)
        (l.foldl (transactOne params ctx gasLimit) q) := by
    intro l
    induction l with
    | nil => exact fun _ _ hpq => hpq
    | cons item l ih => exact fun p q hpq => ih _ _ (hpq.step hcode item)
  exact hrun _ _ _ ⟨h, rfl, UndoRecord.Restores.refl s, fun _ hm => hm, rfl⟩

end Sequential

namespace ChainExecutor

/-- Two executors in sequential mode that agree on height and results, and whose states look
the same. -/
structure Like (codeOf : B256 → Bytecode) (X Y : ChainExecutor) : Prop where
  params : Y.params = X.params
  left : X.parallel = false
  right : Y.parallel = false
  height : Y.height = X.height
  results : Y.results = X.results
  view : SameView codeOf X.state Y.state

/-- What executing a block in sequential mode does to an executor, besides what every mode
does: the record undoes it and registered code stays. -/
structure Executed (X : ChainExecutor) (hash : BlockHash) (outcome : ChainBlockOutcome)
    (record : UndoRecord) (X' : ChainExecutor) : Prop where
  params : X'.params = X.params
  parallel : X'.parallel = X.parallel
  hash_eq : outcome.hash = hash
  results : X'.results = X.results.insert (X.height + 1) outcome
  height : X'.height = X.height + 1
  tip : X'.tip = hash
  journal : ∃ below, X'.journal
    = (X.journal ++ [(X.height + 1, hash, record)]).filter fun entry => below ≤ entry.1
  restores : UndoRecord.Restores record X.state X'.state
  code : ∀ h ∈ X.state.code, h ∈ X'.state.code
  blockHashes : X'.state.blockHashes = X.state.blockHashes

/-- The new record is the newest, and old ones may be pruned. -/
theorem Executed.newestFirst {X X' : ChainExecutor} {hash : BlockHash}
    {outcome : ChainBlockOutcome} {record : UndoRecord} (h : Executed X hash outcome record X') :
    ∃ below, X'.newestFirst
      = ((X.height + 1, hash, record) :: X.newestFirst).filter fun entry => below ≤ entry.1 := by
  obtain ⟨below, hjournal⟩ := h.journal
  refine ⟨below, ?_⟩
  unfold ChainExecutor.newestFirst
  rw [hjournal, ← List.filter_reverse, List.reverse_append]
  rfl

section Like

variable [Evm] [Trie] [FeeRule] {codeOf : B256 → Bytecode}

omit [Evm] [FeeRule] in
theorem stateRoot_congr {s S : WorldState} (h : S.accounts = s.accounts) :
    S.stateRoot = s.stateRoot := by
  unfold WorldState.stateRoot
  rw [h]

/-- The run of a known block in sequential mode. -/
def blockRun (X : ChainExecutor) (D : DagStore) (bodies : BodyStore) (hash : BlockHash)
    (header : Header) : WorldState × ExecutedBlock :=
  executeSequentially X.params (X.blockCtx hash header) X.params.blockGasLimit X.state
    (taggedTransactions D bodies hash)
    (layerAndSort ((taggedTransactions D bodies hash).map fun item => TxAccessSet.of item.2))

/-- Executing a known block in sequential mode is running it and finishing. -/
theorem executeChainBlock_sequential {X : ChainExecutor} (hmode : X.parallel = false)
    {D : DagStore} (bodies : BodyStore) {hash : BlockHash} {header : Header}
    (hl : D.headers.lookup hash = some header) :
    X.executeChainBlock D bodies hash =
      ((X.finish hash header (X.blockCtx hash header)
          ⟨(X.blockRun D bodies hash header).1, (X.blockRun D bodies hash header).2,
            X.parallelRounds, X.fallbackRounds⟩).1,
        .ok (X.finish hash header (X.blockCtx hash header)
          ⟨(X.blockRun D bodies hash header).1, (X.blockRun D bodies hash header).2,
            X.parallelRounds, X.fallbackRounds⟩).2) := by
  -- the sequential mode runs the block and counts no rounds
  have hrun : X.runTransactions (taggedTransactions D bodies hash) (X.blockCtx hash header)
      = ⟨(X.blockRun D bodies hash header).1, (X.blockRun D bodies hash header).2,
          X.parallelRounds, X.fallbackRounds⟩ := by
    unfold runTransactions
    rw [hmode]
    rfl
  rw [X.executeChainBlock_of_header bodies hl, hrun]

omit [Evm] in
theorem finish_state (X : ChainExecutor) (hash : BlockHash) (header : Header)
    (ctx : ChainBlockCtx) (st : LayerState) :
    (X.finish hash header ctx st).1.state = st.state := by
  obtain ⟨below, hfinish⟩ := X.finish_eq hash header ctx st
  rw [hfinish]

omit [Evm] in
/-- What finishing a run leaves of the executor. -/
theorem executed_finish {X : ChainExecutor} (hash : BlockHash) (header : Header)
    {run : WorldState × ExecutedBlock} (parallelRounds fallbackRounds : ℕ)
    (hrestores : UndoRecord.Restores run.2.undo X.state run.1)
    (hcode : ∀ h ∈ X.state.code, h ∈ run.1.code)
    (hhashes : run.1.blockHashes = X.state.blockHashes) :
    Executed X hash
      (X.finish hash header (X.blockCtx hash header)
        ⟨run.1, run.2, parallelRounds, fallbackRounds⟩).2 run.2.undo
      (X.finish hash header (X.blockCtx hash header)
        ⟨run.1, run.2, parallelRounds, fallbackRounds⟩).1 := by
  obtain ⟨below, hfinish⟩ := X.finish_eq hash header (X.blockCtx hash header)
    ⟨run.1, run.2, parallelRounds, fallbackRounds⟩
  rw [hfinish]
  exact ⟨rfl, rfl, rfl, rfl, rfl, rfl, ⟨below, rfl⟩, hrestores, hcode, hhashes⟩

/-- **Two like executors execute the same block alike.** -/
theorem Like.execute (hcode : CodeByHash codeOf) {X Y : ChainExecutor} (h : Like codeOf X Y)
    {D D' : DagStore} {bodies bodies' : BodyStore} {hash : BlockHash} {header : Header}
    (hl : D.headers.lookup hash = some header) (hl' : D'.headers.lookup hash = some header)
    (htagged : taggedTransactions D' bodies' hash = taggedTransactions D bodies hash) :
    ∃ outcome record X' Y', X.executeChainBlock D bodies hash = (X', .ok outcome) ∧
      Y.executeChainBlock D' bodies' hash = (Y', .ok outcome) ∧ Like codeOf X' Y' ∧
      Executed X hash outcome record X' ∧ Executed Y hash outcome record Y' := by
  -- the context reads only what like executors share
  have hctx : Y.blockCtx hash header = X.blockCtx hash header := by
    unfold blockCtx nextBaseFee
    rw [h.params, h.height, h.results]
  have hview : InView codeOf X.state (X.blockRun D bodies hash header)
      (Y.blockRun D' bodies' hash header) := by
    unfold blockRun
    rw [htagged, hctx, h.params]
    exact executeSequentially_inView _ _ _ hcode h.view _ _
  have hsymm : SameView codeOf Y.state X.state :=
    ⟨h.view.accounts.symm, h.view.blockHashes.symm, h.view.right, h.view.left⟩
  have hviewY : InView codeOf Y.state (Y.blockRun D' bodies' hash header)
      (X.blockRun D bodies hash header) := by
    unfold blockRun
    rw [htagged, hctx, h.params]
    exact executeSequentially_inView _ _ _ hcode hsymm _ _
  have hX := executed_finish hash header X.parallelRounds X.fallbackRounds hview.restores
    hview.code hview.blockHashes
  have hY := executed_finish hash header Y.parallelRounds Y.fallbackRounds hviewY.restores
    hviewY.code hviewY.blockHashes
  have houtcome : (Y.finish hash header (Y.blockCtx hash header)
      ⟨(Y.blockRun D' bodies' hash header).1, (Y.blockRun D' bodies' hash header).2,
        Y.parallelRounds, Y.fallbackRounds⟩).2 =
      (X.finish hash header (X.blockCtx hash header)
        ⟨(X.blockRun D bodies hash header).1, (X.blockRun D bodies hash header).2,
          X.parallelRounds, X.fallbackRounds⟩).2 := by
    unfold finish
    dsimp only
    rw [hctx, hview.block, stateRoot_congr hview.view.accounts]
  have hrecord : (Y.blockRun D' bodies' hash header).2.undo
      = (X.blockRun D bodies hash header).2.undo := congrArg ExecutedBlock.undo hview.block
  have hrunY := executeChainBlock_sequential h.right bodies' hl'
  rw [houtcome] at hrunY hY
  rw [hrecord] at hY
  refine ⟨_, _, _, _, executeChainBlock_sequential h.left bodies hl, hrunY, ?_, hX, hY⟩
  refine ⟨?_, hX.parallel.trans h.left, hY.parallel.trans h.right, ?_, ?_, ?_⟩
  · rw [hX.params, hY.params, h.params]
  · rw [hX.height, hY.height, h.height]
  · rw [hX.results, hY.results, h.results, h.height]
  · rw [finish_state, finish_state]
    exact hview.view

end Like

end ChainExecutor

end Chainname
