import Chainname.Chain.Journal
import Chainname.Chain.Parallel

/-!
# Chain-block execution

The executor runs the transactions of a chain block's base sequence in canonical order,
one by one (`executeSequentially`) or a round at a time (`executeRoundsParallel`), records
the outcome by height and an undo record in the journal, and undoes blocks by applying
records in reverse. A call that fails part-way leaves what it did in place, so the calls
return the executor next to the result.
-/

namespace Chainname

/-- `saturating_add` on 64-bit unsigned integers. -/
def U64.saturatingAdd (a b : ℕ) : ℕ := min (a + b) (2 ^ 64 - 1)

/-- A receipt. Its bloom is a function of the logs. -/
structure Receipt where
  status : Bool
  cumulativeGasUsed : ℕ
  logs : List Log
  deriving DecidableEq

/-- The fee rule and the receipt trie, which are library code. -/
class FeeRule where
  /-- `calc_next_block_base_fee` at the chain's base fee parameters, of the parent's gas
  used, its gas limit and its base fee. -/
  calcNextBlockBaseFee : ℕ → ℕ → ℕ → ℕ
  orderedTrieRoot : List Receipt → B256
  emptyReceiptsRoot : B256

theorem U64.saturatingAdd_assoc (a b c : ℕ) :
    U64.saturatingAdd (U64.saturatingAdd a b) c = U64.saturatingAdd a (U64.saturatingAdd b c) := by
  unfold U64.saturatingAdd
  omega

/-- Initial base fee, in wei per gas. -/
def initialBaseFee : ℕ := 1000000000

/-- What executing one chain block produced. -/
structure ChainBlockOutcome where
  height : ℕ
  hash : BlockHash
  stateRoot : B256
  receiptsRoot : B256
  gasUsed : ℕ
  baseFeePerGas : ℕ
  /-- Transactions that executed, in canonical order. -/
  executed : ℕ
  /-- Transactions skipped: they did not fit, or were not executable. -/
  deferred : ℕ
  transactionHashes : List B256
  receipts : List Receipt
  timestampSecs : ℕ
  miner : Address
  deriving DecidableEq

/-- Reasons a chain block could not be executed or undone. -/
inductive ExecutionError where
  /-- The block is not in the DAG. -/
  | unknownBlock (hash : BlockHash)
  /-- An undo was requested with nothing left to undo. -/
  | nothingToUndo (expected : BlockHash)
  /-- An undo was requested out of order. -/
  | undoOutOfOrder (expected found : BlockHash)
  deriving DecidableEq

/-! ### The transactions of a block -/

/-- Accumulated results of executing one chain block. -/
structure ExecutedBlock where
  undo : UndoRecord
  gasUsed : ℕ
  executed : ℕ
  deferred : ℕ
  receipts : List Receipt
  transactionHashes : List B256

namespace ExecutedBlock

def empty : ExecutedBlock := ⟨∅, 0, 0, 0, [], []⟩

/-- Counts a transaction that was skipped. -/
def skip (block : ExecutedBlock) : ExecutedBlock := { block with deferred := block.deferred + 1 }

/-- Notes the pre-values of accounts about to be written. -/
def noteAll (block : ExecutedBlock) (addresses : Finset Address) (s : WorldState) :
    ExecutedBlock :=
  { block with undo := UndoRecord.noteAll block.undo addresses s }

/-- Records one executed transaction's receipt and gas. -/
def record (block : ExecutedBlock) (tx : ChainTx) (result : ExecutionResult) : ExecutedBlock :=
  let gasUsed := U64.saturatingAdd block.gasUsed result.txGasUsed
  { block with
    gasUsed := gasUsed
    executed := block.executed + 1
    transactionHashes := block.transactionHashes ++ [tx.hash]
    receipts := block.receipts ++ [⟨result.success, gasUsed, result.logs⟩] }

/-- Folds another block's results into this one, rebasing its cumulative gas. -/
def absorb (block other : ExecutedBlock) : ExecutedBlock where
  undo := UndoRecord.merge block.undo other.undo
  gasUsed := U64.saturatingAdd block.gasUsed other.gasUsed
  executed := block.executed + other.executed
  deferred := block.deferred + other.deferred
  transactionHashes := block.transactionHashes ++ other.transactionHashes
  receipts := block.receipts ++ other.receipts.map fun receipt =>
    { receipt with
      cumulativeGasUsed := U64.saturatingAdd block.gasUsed receipt.cumulativeGasUsed }

end ExecutedBlock

/-- The transactions an order of indices picks out. -/
def pick (tagged : List (Address × ChainTx)) (order : List ℕ) : List (Address × ChainTx) :=
  order.filterMap fun index => tagged[index]?

theorem pick_append (tagged : List (Address × ChainTx)) (order order' : List ℕ) :
    pick tagged (order ++ order') = pick tagged order ++ pick tagged order' :=
  List.filterMap_append

theorem pick_range : ∀ tagged : List (Address × ChainTx),
    pick tagged (List.range tagged.length) = tagged := by
  intro tagged
  induction tagged with
  | nil => rfl
  | cons item tagged ih =>
    unfold pick at ih ⊢
    rw [List.length_cons, List.range_succ_eq_map, List.filterMap_cons, List.filterMap_map]
    exact congrArg (item :: ·) ih

/-- The canonical order picks every transaction once. -/
theorem pick_canonical_perm (tagged : List (Address × ChainTx)) :
    (pick tagged (layerAndSort (tagged.map fun item => TxAccessSet.of item.2))).Perm tagged := by
  have hperm := layerAndSort_perm (tagged.map fun item => TxAccessSet.of item.2)
  rw [List.length_map] at hperm
  have hpick := hperm.filterMap fun index => tagged[index]?
  exact hpick.trans (List.Perm.of_eq (pick_range tagged))

section Execute

variable [Evm] (params : ChainParams) (ctx : ChainBlockCtx) (gasLimit : ℕ)

/-- One transaction of the sequential path. One that does not fit in the gas left, or is not
executable, is skipped. -/
def transactOne (st : WorldState × ExecutedBlock) (item : Address × ChainTx) :
    WorldState × ExecutedBlock :=
  -- a transaction too large for the gas left does not end the block: a smaller one may follow
  if gasLimit < U64.saturatingAdd st.2.gasUsed item.2.gasLimit then (st.1, st.2.skip)
  else
    match Evm.transact params ctx item.1 item.2 st.1 with
    | some (result, changes) =>
      (st.1.commit changes, (st.2.noteAll changes.keys st.1).record item.2 result)
    | none => (st.1, st.2.skip)

/-- Executes the canonical order one transaction at a time. -/
def executeSequentially (s : WorldState) (tagged : List (Address × ChainTx)) (order : List ℕ) :
    WorldState × ExecutedBlock :=
  (pick tagged order).foldl (transactOne params ctx gasLimit) (s, .empty)

/-- What committing a round accumulates: the state, the block, and the fees to credit. -/
structure RoundState where
  state : WorldState
  block : ExecutedBlock
  credited : List (Address × B256)

/-- Commits one speculation, under the same inclusion rules as the sequential path. -/
def commitOne (st : RoundState) (item : (Address × ChainTx) × Speculation) : RoundState :=
  if gasLimit < U64.saturatingAdd st.block.gasUsed item.1.2.gasLimit then
    { st with block := st.block.skip }
  else
    match item.2.result with
    | none => { st with block := st.block.skip }
    | some result =>
      { state := st.state.commit item.2.diff
        -- the miner is noted as well, whose fee is credited after the round
        block := ((st.block.noteAll item.2.diff.keys st.state).noteAll {item.1.1} st.state).record
          item.1.2 result
        credited := st.credited ++ [(item.1.1, item.2.feeCredit)] }

/-- Credits one fee that was taken out of a change set. -/
def creditOne (s : WorldState) (credit : Address × B256) : WorldState :=
  -- a fee of nothing leaves the account as it is, also if it does not exist
  if credit.2 = 0 then s
  else
    let account := (s.account credit.1).getD .default
    s.insertAccount credit.1
      { account with
        info := { account.info with
          balance := B256.saturatingAdd account.info.balance credit.2 } }

/-- Commits an accepted round: the speculations in order, then the fees. -/
def commitRound (s : WorldState) (block : ExecutedBlock)
    (round : List ((Address × ChainTx) × Speculation)) : WorldState × ExecutedBlock :=
  let st := round.foldl (commitOne gasLimit) ⟨s, block, []⟩
  (st.credited.foldl creditOne st.state, st.block)

/-- What the parallel path accumulates: the state, the block, and how many rounds were
committed and how many fell back. -/
structure LayerState where
  state : WorldState
  block : ExecutedBlock
  parallelRounds : ℕ
  fallbackRounds : ℕ

/-- One round: speculate, validate, and commit or fall back to the sequential path. -/
def executeLayer (tagged : List (Address × ChainTx)) (st : LayerState) (layer : List ℕ) :
    LayerState :=
  let round := pick tagged layer
  let speculations := speculate st.state params ctx round
  match validate speculations with
  | some _ =>
    let fallback := executeSequentially params ctx gasLimit st.state tagged layer
    { st with
      state := fallback.1
      block := st.block.absorb fallback.2
      fallbackRounds := st.fallbackRounds + 1 }
  | none =>
    let committed := commitRound gasLimit st.state st.block (round.zip speculations)
    { st with
      state := committed.1
      block := committed.2
      parallelRounds := st.parallelRounds + 1 }

/-- Executes the canonical order a round at a time, speculatively. -/
def executeRoundsParallel (s : WorldState) (tagged : List (Address × ChainTx)) (order : List ℕ)
    (access : List TxAccessSet) : LayerState :=
  (partitionRounds order access).foldl (executeLayer params ctx gasLimit tagged)
    ⟨s, .empty, 0, 0⟩

end Execute

/-! ### The executor -/

/-- Executes selected-chain blocks and maintains the world state. -/
structure ChainExecutor where
  params : ChainParams
  state : WorldState
  /-- Results by height. -/
  results : Map ℕ ChainBlockOutcome
  /-- Undo records by height, newest last. -/
  journal : List (ℕ × BlockHash × UndoRecord)
  parallelRounds : ℕ
  fallbackRounds : ℕ
  parallel : Bool
  /-- Height of the current chain tip. -/
  height : ℕ
  /-- Hash of the current chain tip. -/
  tip : BlockHash

namespace ChainExecutor

variable [Evm] [Trie] [FeeRule]

omit [Evm] in
/-- An executor over a genesis state. -/
def new (params : ChainParams) (genesisState : WorldState) (genesisHash : BlockHash) :
    ChainExecutor where
  params := params
  state := genesisState
  results := Finmap.singleton 0
    { height := 0
      hash := genesisHash
      stateRoot := genesisState.stateRoot
      receiptsRoot := FeeRule.emptyReceiptsRoot
      gasUsed := 0
      baseFeePerGas := initialBaseFee
      executed := 0
      deferred := 0
      transactionHashes := []
      receipts := []
      timestampSecs := 0
      miner := 0 }
  journal := []
  parallelRounds := 0
  fallbackRounds := 0
  parallel := false
  height := 0
  tip := genesisHash

/-- Turns parallel round execution on or off. -/
def setParallel (X : ChainExecutor) (parallel : Bool) : ChainExecutor :=
  { X with parallel := parallel }

omit [Evm] [Trie] in
/-- Base fee for the block following `parentHeight`. -/
def nextBaseFee (X : ChainExecutor) (parentHeight : ℕ) : ℕ :=
  match X.results.lookup parentHeight with
  | none => initialBaseFee
  | some parent =>
    FeeRule.calcNextBlockBaseFee parent.gasUsed
      (min (X.params.blockGasTarget * 2) (2 ^ 64 - 1)) parent.baseFeePerGas

/-- Discards undo records below a height. -/
def pruneJournal (X : ChainExecutor) (belowHeight : ℕ) : ChainExecutor :=
  { X with journal := X.journal.filter fun entry => belowHeight ≤ entry.1 }

/-- The transactions of a chain block's base sequence, each with the miner of the block that
carried it, deduplicated by hash. -/
def taggedTransactions (D : DagStore) (bodies : BodyStore) (hash : BlockHash) :
    List (Address × ChainTx) :=
  deduplicate (fun item => item.2.hash) ∅
    ((D.baseSequence hash).flatMap fun source =>
      (bodies.get source).map fun tx => ((D.headers.lookup source).elim 0 Header.miner, tx))

omit [Evm] [Trie] in
/-- The context a chain block executes in. -/
def blockCtx (X : ChainExecutor) (hash : BlockHash) (header : Header) : ChainBlockCtx where
  height := X.height + 1
  timestampSecs := header.timestampMs.toNat / 1000
  baseFeePerGas := X.nextBaseFee X.height
  gasLimit := X.params.blockGasLimit
  prevrandao := hash

omit [Trie] in
/-- Runs the transactions of a chain block in the executor's mode. -/
def runTransactions (X : ChainExecutor) (tagged : List (Address × ChainTx))
    (ctx : ChainBlockCtx) : LayerState :=
  let access := tagged.map fun item => TxAccessSet.of item.2
  let order := layerAndSort access
  if X.parallel then
    let st := executeRoundsParallel X.params ctx X.params.blockGasLimit X.state tagged order access
    { st with
      parallelRounds := X.parallelRounds + st.parallelRounds
      fallbackRounds := X.fallbackRounds + st.fallbackRounds }
  else
    let run := executeSequentially X.params ctx X.params.blockGasLimit X.state tagged order
    ⟨run.1, run.2, X.parallelRounds, X.fallbackRounds⟩

/-- The executor and the outcome after the transactions of a chain block have run: the
journal gets the undo record, the results the outcome, and old records are pruned. -/
def finish (X : ChainExecutor) (hash : BlockHash) (header : Header) (ctx : ChainBlockCtx)
    (st : LayerState) : ChainExecutor × ChainBlockOutcome :=
  let outcome : ChainBlockOutcome :=
    { height := ctx.height
      hash := hash
      stateRoot := st.state.stateRoot
      receiptsRoot := FeeRule.orderedTrieRoot st.block.receipts
      gasUsed := st.block.gasUsed
      baseFeePerGas := ctx.baseFeePerGas
      executed := st.block.executed
      deferred := st.block.deferred
      transactionHashes := st.block.transactionHashes
      receipts := st.block.receipts
      timestampSecs := ctx.timestampSecs
      miner := header.miner }
  let X : ChainExecutor :=
    { X with
      state := st.state
      results := X.results.insert ctx.height outcome
      journal := X.journal ++ [(ctx.height, hash, st.block.undo)]
      parallelRounds := st.parallelRounds
      fallbackRounds := st.fallbackRounds
      height := ctx.height
      tip := hash }
  let window := X.params.pruningWindowBlocks
  (if window < ctx.height then X.pruneJournal (ctx.height - window) else X, outcome)

/-- Executes one selected-chain block. -/
def executeChainBlock (X : ChainExecutor) (D : DagStore) (bodies : BodyStore)
    (hash : BlockHash) : ChainExecutor × Except ExecutionError ChainBlockOutcome :=
  match D.headers.lookup hash with
  | none => (X, .error (.unknownBlock hash))
  | some header =>
    let ctx := X.blockCtx hash header
    let done := X.finish hash header ctx
      (X.runTransactions (taggedTransactions D bodies hash) ctx)
    (done.1, .ok done.2)

/-- The tip after an undo: the newest record left, or what is recorded for genesis. -/
def tipAfterUndo (journal : List (ℕ × BlockHash × UndoRecord))
    (results : Map ℕ ChainBlockOutcome) (undone : BlockHash) : BlockHash :=
  match journal.getLast? with
  | some entry => entry.2.1
  | none => (results.lookup 0).elim undone ChainBlockOutcome.hash

/-- Undoes the most recently executed chain block. -/
def undoOne (X : ChainExecutor) (expected : BlockHash) :
    ChainExecutor × Except ExecutionError Unit :=
  match X.journal.getLast? with
  | none => (X, .error (.nothingToUndo expected))
  | some (height, hash, record) =>
    if hash ≠ expected then (X, .error (.undoOutOfOrder expected hash))
    else
      let results := X.results.erase height
      let journal := X.journal.dropLast
      ({ X with
          state := UndoRecord.apply record X.state
          results := results
          journal := journal
          height := height - 1
          tip := tipAfterUndo journal results hash }, .ok ())

/-- The first loop of `apply_reorg`. -/
def undoAll (X : ChainExecutor) : List BlockHash → ChainExecutor × Except ExecutionError Unit
  | [] => (X, .ok ())
  | hash :: removed =>
    match X.undoOne hash with
    | (X, .ok ()) => undoAll X removed
    | (X, .error e) => (X, .error e)

/-- The second loop of `apply_reorg`. -/
def executeAll (X : ChainExecutor) (D : DagStore) (bodies : BodyStore) :
    List BlockHash → List ChainBlockOutcome →
      ChainExecutor × Except ExecutionError (List ChainBlockOutcome)
  | [], outcomes => (X, .ok outcomes)
  | hash :: added, outcomes =>
    match X.executeChainBlock D bodies hash with
    | (X, .ok outcome) => executeAll X D bodies added (outcomes ++ [outcome])
    | (X, .error e) => (X, .error e)

/-- Applies a chain reorganisation: undo `removed`, then execute `added`. -/
def applyReorg (X : ChainExecutor) (D : DagStore) (bodies : BodyStore)
    (removed added : List BlockHash) :
    ChainExecutor × Except ExecutionError (List ChainBlockOutcome) :=
  match X.undoAll removed with
  | (X, .ok ()) => X.executeAll D bodies added []
  | (X, .error e) => (X, .error e)

end ChainExecutor

end Chainname
