import Chainname.Chain.Bookkeeping
import Chainname.Library.Runs
import Chainname.Rpc.Backend

/-!
# What a reorganisation does to the pool

A transaction that a block executes leaves the pool, and one whose nonce has been used leaves it
too. Nothing brings it back: when the block is undone, and the new branch neither executes the
transaction nor uses its nonce, it is pending and the pool does not hold it.

An observer notes which transactions a node admits, and which hashes leave the pool because a
transaction is submitted, so replaced or evicted (`observe`). `Retained` says that every
admitted transaction that is neither displaced nor settled is in the pool, and
`retained_iff_nothing_taken_back` when it holds throughout a run: exactly when no added block
takes back what settled a transaction that has left the pool.
-/

namespace Chainname

/-- The transaction is among the results of the chain the executor is on. -/
def ChainExecutor.HasExecuted (X : ChainExecutor) (hash : B256) : Prop :=
  ∃ height outcome, X.results.lookup height = some outcome ∧ hash ∈ outcome.transactionHashes

/-- Nothing remains to be done for the transaction: it was executed, or its nonce was used. -/
def ChainExecutor.Settled (X : ChainExecutor) (tx : ChainTx) : Prop :=
  X.HasExecuted tx.hash ∨ tx.nonce < X.state.nonce tx.signer

namespace ChainExecutor

/-- Membership in the results, one result at a time. -/
theorem hasExecuted_iff_toList {X : ChainExecutor} {hash : B256} : X.HasExecuted hash ↔
    ∃ entry ∈ Maps.toList X.results, hash ∈ entry.2.transactionHashes := by
  refine ⟨?_, ?_⟩
  · rintro ⟨height, outcome, hl, hmem⟩
    exact ⟨(height, outcome), Maps.mem_toList.mpr hl, hmem⟩
  · rintro ⟨⟨height, outcome⟩, hentry, hmem⟩
    exact ⟨height, outcome, Maps.mem_toList.mp hentry, hmem⟩

instance decidableHasExecuted (X : ChainExecutor) (hash : B256) : Decidable (X.HasExecuted hash) :=
  decidable_of_iff _ hasExecuted_iff_toList.symm

instance decidableSettled (X : ChainExecutor) (tx : ChainTx) : Decidable (X.Settled tx) :=
  inferInstanceAs (Decidable (_ ∨ _))

section Outcomes

variable [Evm] [Trie] [FeeRule]

/-- The outcomes are among the results, at heights up to the executor's. -/
def Reports (X : ChainExecutor) (outcomes : List ChainBlockOutcome) : Prop :=
  ∀ outcome ∈ outcomes, ∃ height ≤ X.height, X.results.lookup height = some outcome

/-- **What is executed is among the results**: later blocks go on top of earlier ones. -/
theorem Reports.executeAll {X : ChainExecutor} {D : DagStore} {bodies : BodyStore}
    {added : List BlockHash} {outcomes final : List ChainBlockOutcome}
    (h : X.Reports outcomes) (hrun : (X.executeAll D bodies added outcomes).2 = .ok final) :
    (X.executeAll D bodies added outcomes).1.Reports final := by
  -- block by block; a result reported stays, since the heights only rise
  induction added generalizing X outcomes with
  | nil =>
    obtain rfl := Except.ok.inj hrun
    exact h
  | cons hash added ih =>
    unfold ChainExecutor.executeAll at hrun ⊢
    obtain ⟨-, heq⟩ | ⟨outcome, -, -, X', -, heq, -, hresults, hheight, -⟩ :=
      executeChainBlock_cases X D bodies hash
    · rw [heq] at hrun
      cases hrun
    · rw [heq] at hrun ⊢
      refine ih (fun o ho => ?_) hrun
      obtain ho | ho := List.mem_append.mp ho
      · -- an older result lies below the new height
        obtain ⟨height, hle, hl⟩ := h o ho
        refine ⟨height, by omega, ?_⟩
        rw [hresults, Maps.lookup_insert, if_neg (by omega), hl]
      · obtain rfl := List.mem_singleton.mp ho
        refine ⟨X.height + 1, le_of_eq hheight.symm, ?_⟩
        rw [hresults, Maps.lookup_insert, if_pos rfl]

/-- What a reorganisation reports as executed is executed. -/
theorem hasExecuted_of_applyReorg {X : ChainExecutor} {D : DagStore} {bodies : BodyStore}
    {removed added : List BlockHash} {outcomes : List ChainBlockOutcome}
    (hrun : (X.applyReorg D bodies removed added).2 = .ok outcomes) {hash : B256}
    (hmem : hash ∈ outcomes.flatMap ChainBlockOutcome.transactionHashes) :
    (X.applyReorg D bodies removed added).1.HasExecuted hash := by
  unfold applyReorg at hrun ⊢
  generalize X.undoAll removed = undone at hrun ⊢
  obtain ⟨Y, _ | _⟩ := undone
  · cases hrun
  · -- after the undo every outcome returned is recorded at its height
    have hreports : (Y.executeAll D bodies added []).1.Reports outcomes :=
      Reports.executeAll (fun _ h => absurd h List.not_mem_nil) hrun
    obtain ⟨outcome, ho, hmem⟩ := List.mem_flatMap.mp hmem
    obtain ⟨height, -, hl⟩ := hreports outcome ho
    exact ⟨height, outcome, hl, hmem⟩

end Outcomes

end ChainExecutor

namespace NodeState

/-! ### What the pool keeps when blocks have been executed -/

/-- Every sender with a transaction in the pool is looked up. -/
theorem lookup_pooledNonces {pool : TxPool} {s : WorldState} {b : B256} {pooled : PooledTx}
    (h : pool.byHash.lookup b = some pooled) :
    (pooledNonces pool s).lookup pooled.sender = some (s.nonce pooled.sender) := by
  -- the fold over the senders, each written with its nonce in the state
  have hfold : ∀ (senders : List Address) (nonces : Map Address UInt64) (a : Address),
      a ∈ senders ∨ nonces.lookup a = some (s.nonce a) →
      (senders.foldl (fun nonces sender => nonces.insert sender (s.nonce sender)) nonces).lookup a
        = some (s.nonce a) := by
    intro senders
    induction senders with
    | nil => exact fun _ _ h => h.resolve_left List.not_mem_nil
    | cons sender senders ih =>
      intro nonces a ha
      refine ih _ a ?_
      by_cases he : a = sender
      · exact Or.inr (by rw [Maps.lookup_insert, if_pos he, he])
      · rw [Maps.lookup_insert, if_neg he]
        exact ha.imp_left fun hmem => (List.mem_cons.mp hmem).resolve_left he
  refine hfold _ _ _ (Or.inl (List.mem_filterMap.mpr ⟨b, ?_, by rw [h]; rfl⟩))
  exact Maps.mem_sortedKeys.mpr (Finmap.mem_keys.mpr (Maps.mem_of_lookup h))

/-- **What the pool keeps**: what was not executed, and whose nonce was not used. -/
theorem lookup_settlePool {pool : TxPool} (hpool : pool.Keyed) {s : WorldState}
    {outcomes : List ChainBlockOutcome} {b : B256} {pooled : PooledTx} :
    (settlePool pool s outcomes).byHash.lookup b = some pooled ↔
      pool.byHash.lookup b = some pooled ∧
        b ∉ outcomes.flatMap ChainBlockOutcome.transactionHashes ∧
        ¬ pooled.nonce < s.nonce pooled.sender := by
  unfold settlePool
  dsimp only
  generalize outcomes.flatMap ChainBlockOutcome.transactionHashes = executed
  -- first the executed ones go, then those of a nonce already used
  have hremoved : ∀ {c p}, (executed.foldl TxPool.remove pool).byHash.lookup c = some p ↔
      pool.byHash.lookup c = some p ∧ c ∉ executed := by
    intro c p
    rw [TxPool.lookup_foldl_remove]
    split
    · next hmem => simp [hmem]
    · next hmem => simp [hmem]
  rw [TxPool.lookup_prune_eq_some (hpool.of_subset fun c p h => (hremoved.mp h).1), ← and_assoc,
    ← hremoved]
  refine and_congr_right fun h => ?_
  rw [lookup_pooledNonces h, Option.getD_some]

variable [TxCodec] [Evm] [Trie] [FeeRule]

/-! ### An observer of the pool -/

/-- A node, with what an observer has noted: the transactions that were admitted, and the hashes
of those that were replaced or evicted. -/
structure Observed where
  node : NodeState
  admitted : List RecoveredTx
  displaced : Finset B256

/-- The transaction that a call to `submit_raw` admits, if it returns `Ok`. -/
def admission (n : NodeState) (encoded : List UInt8) : Option RecoveredTx :=
  match recover encoded, (n.submitRaw encoded).2 with
  | .ok tx, .ok _ => some tx
  | _, _ => none

/-- One call under observation. A submission displaces what was in the pool, or was admitted by
it, and is not in the pool afterwards. -/
def observe [HeaderHash] (w : Observed) (call : BackendCall) : Observed :=
  match call with
  | .submitRaw encoded =>
    let node := w.node.step call
    let admitted := (w.node.admission encoded).toList
    { node := node
      admitted := w.admitted ++ admitted
      displaced := w.displaced ∪
        (w.node.pool.byHash.keys ∪ (admitted.map fun tx => tx.tx.hash).toFinset) \
          node.pool.byHash.keys }
  | .addBlock _ _ => { w with node := w.node.step call }

/-- Every admitted transaction that was not replaced or evicted, was not executed on the current
chain, and has a nonce not below its sender's, is in the pool. -/
def Retained (w : Observed) : Prop :=
  ∀ tx ∈ w.admitted, tx.tx.hash ∉ w.displaced → ¬ w.node.executor.Settled tx.tx →
    tx.tx.hash ∈ w.node.pool.byHash

/-- The executor that a block leaves behind. -/
def executorAfter [HeaderHash] (n : NodeState) (header : Header) (transactions : List ChainTx) :
    ChainExecutor :=
  match n.dag.addBlock header with
  | (_, .error _) => n.executor
  | (dag, .ok _) =>
    let tip := dag.virtualSelectedParent
    if tip = n.executor.tip then n.executor
    else
      let reorg := dag.computeReorg n.executor.tip tip
      (n.executor.applyReorg dag (n.bodies.insert header.hash transactions)
        reorg.removed reorg.added).1

/-- An added block takes back what settled an admitted transaction: this has left the pool, as
it was executed or its nonce was used, and the executor that the block leaves behind has neither
executed it nor used its nonce. -/
def TakesBack [HeaderHash] (w : Observed) : BackendCall → Prop
  | .submitRaw _ => False
  | .addBlock header transactions =>
    ∃ tx ∈ w.admitted, tx.tx.hash ∉ w.displaced ∧ tx.tx.hash ∉ w.node.pool.byHash ∧
      w.node.executor.Settled tx.tx ∧ ¬ (w.node.executorAfter header transactions).Settled tx.tx

/-! ### What the calls do to executor and pool -/

/-- A transaction with the signer that was recovered from its signature. -/
def IsRecovered (tx : RecoveredTx) : Prop :=
  ∃ envelope signer, TxCodec.recoverSigner envelope = .ok signer ∧
    TxCodec.recovered envelope signer = tx

omit [Evm] [Trie] [FeeRule] in
theorem IsRecovered.ext {tx tx' : RecoveredTx} (h : IsRecovered tx) (h' : IsRecovered tx')
    (hhash : tx.tx.hash = tx'.tx.hash) : tx = tx' := by
  obtain ⟨e, a, hsigner, rfl⟩ := h
  obtain ⟨e', a', hsigner', rfl⟩ := h'
  exact TxCodec.recovered_inj hsigner hsigner' hhash

omit [Evm] [Trie] [FeeRule] in
theorem isRecovered_recover {encoded : List UInt8} {tx : RecoveredTx}
    (h : recover encoded = .ok tx) : IsRecovered tx := by
  unfold recover at h
  split at h
  · cases h
  · split at h
    · cases h
    · next signer hsigner => exact ⟨_, signer, hsigner, Except.ok.inj h⟩

omit [Evm] [Trie] in
/-- A submission that cannot be decoded leaves the node alone; any other is the pool's to
judge. -/
theorem submitRaw_cases (n : NodeState) (encoded : List UInt8) :
    (n.submitRaw encoded).1 = n ∧ n.admission encoded = none ∨
    ∃ tx baseFee nonce balance, recover encoded = .ok tx ∧
      n.submitRaw encoded = ({ n with pool := (n.pool.add tx baseFee nonce balance).1 },
        (n.pool.add tx baseFee nonce balance).2.mapError .pool) := by
  unfold admission submitRaw
  cases hr : recover encoded with
  | error e => exact Or.inl ⟨rfl, rfl⟩
  | ok tx => exact Or.inr ⟨tx, _, _, _, rfl, rfl⟩

omit [Evm] [Trie] in
theorem admission_eq_some {n : NodeState} {encoded : List UInt8} {tx : RecoveredTx} :
    n.admission encoded = some tx ↔
      recover encoded = .ok tx ∧ ∃ hash, (n.submitRaw encoded).2 = .ok hash := by
  unfold admission
  cases recover encoded with
  | error e => simp
  | ok tx' => cases (n.submitRaw encoded).2 with
    | error e => simp
    | ok hash => simp

omit [Evm] [Trie] in
/-- What a submission leaves in the pool: what it admitted, and some of what was there. -/
theorem lookup_of_submitRaw {n : NodeState} {encoded : List UInt8} {b : B256} {p : PooledTx}
    (h : (n.submitRaw encoded).1.pool.byHash.lookup b = some p) :
    n.admission encoded = some p.tx ∧ b = p.hash ∨ n.pool.byHash.lookup b = some p := by
  obtain ⟨hsame, -⟩ | ⟨tx, baseFee, nonce, balance, hrecover, hadd⟩ := n.submitRaw_cases encoded
  · rw [hsame] at h
    exact Or.inr h
  · rw [hadd] at h
    obtain ⟨hok, rfl, rfl⟩ | hl := TxPool.lookup_of_lookup_add h
    · refine Or.inl ⟨admission_eq_some.mpr ⟨hrecover, p.tx.tx.hash, ?_⟩, rfl⟩
      rw [hadd, hok]
      rfl
    · exact Or.inr hl

omit [Evm] [Trie] in
/-- A submission leaves the executor alone. -/
theorem executor_submitRaw (n : NodeState) (encoded : List UInt8) :
    (n.submitRaw encoded).1.executor = n.executor := by
  obtain ⟨hsame, -⟩ | ⟨tx, baseFee, nonce, balance, -, hadd⟩ := n.submitRaw_cases encoded
  · rw [hsame]
  · rw [hadd]

omit [TxCodec] in
/-- **What an added block does to the pool.** The executor goes where the DAG leads, and the
pool keeps what that executor has not settled, if anything was executed. -/
theorem addBlock_cases [HeaderHash] (n : NodeState) (header : Header)
    (transactions : List ChainTx) :
    (n.addBlock header transactions).1.executor = n.executorAfter header transactions ∧
      ((n.addBlock header transactions).1.pool = n.pool ∨
        ∃ outcomes, (n.addBlock header transactions).1.pool
            = settlePool n.pool (n.executorAfter header transactions).state outcomes ∧
          ∀ hash ∈ outcomes.flatMap ChainBlockOutcome.transactionHashes,
            (n.executorAfter header transactions).HasExecuted hash) := by
  unfold addBlock executorAfter
  obtain ⟨D, _ | _⟩ := n.dag.addBlock header
  · exact ⟨rfl, Or.inl rfl⟩
  · dsimp only
    unfold advance
    dsimp only
    -- the tip has not moved, the reorg fails, or it goes through and the pool is settled
    by_cases htip : D.virtualSelectedParent = n.executor.tip
    · rw [if_pos htip, if_pos htip]
      exact ⟨rfl, Or.inl rfl⟩
    · rw [if_neg htip, if_neg htip]
      unfold reorg
      dsimp only
      generalize D.computeReorg n.executor.tip D.virtualSelectedParent = reorg
      generalize hrun : n.executor.applyReorg D (n.bodies.insert header.hash transactions)
        reorg.removed reorg.added = applied
      obtain ⟨X, _ | outcomes⟩ := applied
      · exact ⟨rfl, Or.inl rfl⟩
      · refine ⟨rfl, Or.inr ⟨outcomes, rfl, fun hash hmem => ?_⟩⟩
        have hexecuted := ChainExecutor.hasExecuted_of_applyReorg (congrArg Prod.snd hrun) hmem
        rwa [hrun] at hexecuted

/-! ### The invariant and the main theorem -/

/-- Pool and notes hold recovered transactions, the pool under their hashes. -/
structure Sound (w : Observed) : Prop where
  keyed : w.node.pool.Keyed
  pooled : ∀ b p, w.node.pool.byHash.lookup b = some p → IsRecovered p.tx
  admitted : ∀ tx ∈ w.admitted, IsRecovered tx

variable [HeaderHash] {w : Observed}

theorem Sound.observe (h : Sound w) (call : BackendCall) : Sound (observe w call) := by
  cases call with
  | submitRaw encoded =>
    have hadmission : ∀ {tx}, w.node.admission encoded = some tx → IsRecovered tx := fun htx =>
      isRecovered_recover (admission_eq_some.mp htx).1
    refine ⟨fun b p hl => ?_, fun b p hl => ?_, fun tx hmem => ?_⟩
    · obtain ⟨-, rfl⟩ | hl := lookup_of_submitRaw hl
      · rfl
      · exact h.keyed b p hl
    · obtain ⟨htx, -⟩ | hl := lookup_of_submitRaw hl
      · exact hadmission htx
      · exact h.pooled b p hl
    · obtain hmem | hmem := List.mem_append.mp hmem
      · exact h.admitted tx hmem
      · exact hadmission (Option.mem_toList.mp hmem)
  | addBlock header transactions =>
    have hpool : ∀ b p, (w.node.addBlock header transactions).1.pool.byHash.lookup b = some p →
        w.node.pool.byHash.lookup b = some p := by
      -- a block can only take transactions out of the pool
      obtain ⟨-, hsame | ⟨outcomes, hsettled, -⟩⟩ := w.node.addBlock_cases header transactions
      · rw [hsame]
        exact fun _ _ hl => hl
      · rw [hsettled]
        exact fun _ _ hl => ((lookup_settlePool h.keyed).mp hl).1
    exact ⟨h.keyed.of_subset hpool, fun b p hl => h.pooled b p (hpool b p hl), h.admitted⟩

/-- A submission loses nothing: what leaves the pool is displaced. -/
theorem Retained.submitRaw (h : Retained w) (encoded : List UInt8) :
    Retained (observe w (.submitRaw encoded)) := by
  intro tx hmem hkept hpending
  have hexecutor : (observe w (.submitRaw encoded)).node.executor = w.node.executor :=
    w.node.executor_submitRaw encoded
  rw [hexecutor] at hpending
  by_contra hgone
  -- a transaction that has been in the pool and is gone is displaced
  have hwas : ∀ {hash}, hash ∉ (observe w (.submitRaw encoded)).displaced →
      hash ∉ (observe w (.submitRaw encoded)).node.pool.byHash →
      hash ∉ w.displaced ∧ hash ∉ w.node.pool.byHash ∧
        ∀ tx, w.node.admission encoded = some tx → tx.tx.hash ≠ hash := by
    intro hash hkept hgone
    refine ⟨fun hd => hkept (Finset.mem_union_left _ hd), fun hin => hkept ?_,
      fun tx htx he => hkept ?_⟩
    · refine Finset.mem_union_right _ (Finset.mem_sdiff.mpr ⟨?_, fun h => hgone ?_⟩)
      · exact Finset.mem_union_left _ (Finmap.mem_keys.mpr hin)
      · exact Finmap.mem_keys.mp h
    · refine Finset.mem_union_right _ (Finset.mem_sdiff.mpr ⟨?_, fun h => hgone ?_⟩)
      · refine Finset.mem_union_right _ (List.mem_toFinset.mpr (List.mem_map.mpr ⟨tx, ?_, he⟩))
        exact Option.mem_toList.mpr htx
      · exact Finmap.mem_keys.mp h
  obtain ⟨hundisplaced, hout, hnew⟩ := hwas hkept hgone
  obtain hold | hadmitted := List.mem_append.mp hmem
  · exact hout (h tx hold hundisplaced hpending)
  · exact hnew tx (Option.mem_toList.mp hadmitted) rfl

/-- **An added block** keeps what is to be retained exactly when it takes nothing back. -/
theorem retained_addBlock_iff (hsound : Sound w) (h : Retained w) (header : Header)
    (transactions : List ChainTx) :
    Retained (observe w (.addBlock header transactions)) ↔
      ¬ TakesBack w (.addBlock header transactions) := by
  obtain ⟨hexecutor, hpool⟩ := w.node.addBlock_cases header transactions
  refine ⟨?_, ?_⟩
  · rintro hretained ⟨tx, hmem, hkept, hgone, -, hpending⟩
    have hin := hretained tx hmem hkept (hexecutor ▸ hpending)
    obtain ⟨p, hl⟩ := Maps.mem_iff_exists_lookup.mp hin
    refine hgone (Maps.mem_of_lookup (v := p) ?_)
    obtain hsame | ⟨outcomes, hsettled, -⟩ := hpool
    · exact hsame ▸ hl
    · have hl : (settlePool w.node.pool _ outcomes).byHash.lookup tx.tx.hash = some p := hsettled ▸ hl
      exact ((lookup_settlePool hsound.keyed).mp hl).1
  · intro hnothing tx hmem hkept hpending
    have hpending : ¬ (w.node.executorAfter header transactions).Settled tx.tx := hexecutor ▸ hpending
    -- it is in the pool before the call, or else what settled it is taken back
    have hin : tx.tx.hash ∈ w.node.pool.byHash := by
      by_contra hgone
      by_cases hsettled : w.node.executor.Settled tx.tx
      · exact hnothing ⟨tx, hmem, hkept, hgone, hsettled, hpending⟩
      · exact hgone (h tx hmem hkept hsettled)
    obtain ⟨p, hl⟩ := Maps.mem_iff_exists_lookup.mp hin
    obtain hsame | ⟨outcomes, hsettled, hexecuted⟩ := hpool
    · exact Maps.mem_of_lookup (hsame ▸ hl)
    · obtain rfl : p.tx = tx := (hsound.pooled _ p hl).ext (hsound.admitted tx hmem) (hsound.keyed _ p hl)
      refine Maps.mem_of_lookup (v := p) ?_
      show (w.node.addBlock header transactions).1.pool.byHash.lookup _ = _
      rw [hsettled, lookup_settlePool hsound.keyed]
      exact ⟨hl, fun hmem => hpending (Or.inl (hexecuted _ hmem)), fun hnonce => hpending (Or.inr hnonce)⟩

/-- A fresh node under observation. -/
def observed (params : ChainParams) (genesis : Header) (genesisState : WorldState) (k : UInt16) :
    Observed :=
  ⟨.new params genesis genesisState k, [], ∅⟩

omit [Evm] in
theorem sound_observed (params : ChainParams) (genesis : Header) (genesisState : WorldState)
    (k : UInt16) : Sound (observed params genesis genesisState k) where
  keyed := TxPool.keyed_new _
  pooled b p hl := absurd (hl.symm.trans (Finmap.lookup_empty b)) (Option.some_ne_none p)
  admitted _ h := absurd h List.not_mem_nil

/-- **Pending transactions stay in the pool** throughout a run exactly when no added block takes
back what settled a transaction that has left it. -/
theorem retained_iff_nothing_taken_back (params : ChainParams) (genesis : Header)
    (genesisState : WorldState) (k : UInt16) (calls : List BackendCall) :
    Runs.Throughout observe Retained (observed params genesis genesisState k) calls ↔
      Runs.Each observe (fun w call => ¬ TakesBack w call) (observed params genesis genesisState k)
        calls := by
  have hlegal : Runs.Each observe (fun _ _ => True) (observed params genesis genesisState k) calls :=
    Runs.each_of_forall (fun _ _ => trivial) _ _
  refine Runs.throughout_iff_each (I := Sound)
    (fun w call hsound _ _ _ => hsound.observe call) (fun w call hsound hretained _ => ?_)
    (sound_observed params genesis genesisState k) (fun _ h => absurd h List.not_mem_nil) hlegal
  cases call with
  | submitRaw encoded => exact iff_of_true (hretained.submitRaw encoded) id
  | addBlock header transactions => exact retained_addBlock_iff hsound hretained header transactions

end NodeState

/-! ### A branch that loses without being merged -/

namespace Wallet

open Sample

/-- A node at genesis. -/
def start : NodeState.Observed := NodeState.observed params root funded 2

/-- A call is submitted and executed by a block, and a heavier block that does not merge this
one takes its place. -/
def dropped : List BackendCall :=
  [.submitRaw [0], .addBlock (block 1 [0] 0x2000ffff) [(call 0).tx],
    .addBlock (block 2 [0] 0x1f00ffff) []]

end Wallet

namespace NodeState

open Wallet Sample

/-- **A transaction is lost in a reorganisation.** It was admitted, executed on a branch that
loses, and is pending again: its nonce is its sender's, and the pool is empty. -/
theorem reorg_loses_transaction :
    Runs.Each observe (fun w call => w.node.Succeeds call) Wallet.start dropped ∧
      ¬ Runs.Throughout observe Retained Wallet.start dropped := by
  refine ⟨?_, fun h => ?_⟩
  · refine ⟨?_, ?_, ?_, trivial⟩ <;> (unfold Succeeds; decide +kernel)
  · have hretained := h.last (call 0) ?_ ?_ ?_
    · revert hretained
      decide +kernel
    · decide +kernel
    · decide +kernel
    · decide +kernel

end NodeState

end Chainname
