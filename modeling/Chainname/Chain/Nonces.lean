import Chainname.Chain.Completeness
import Chainname.Chain.Rewind

/-!
# No transaction is executed twice

The EVM executes a transaction only at its sender's nonce and raises this nonce, and no nonce
ever falls (`NonceGuarded`). So what has been executed cannot be executed again on the state it
led to. Undoing a block gives the nonces back and takes the block's results away, and the rule of
`Stands` carries the argument through every reorganisation: the transactions among the results of
an executor are different ones (`Ledger`).
-/

namespace Chainname

/-- What the EVM does about nonces: it executes a transaction only at its sender's nonce, raises
this nonce, and lowers none. -/
structure NonceGuarded [Evm] : Prop where
  guard : ∀ {params ctx beneficiary tx s result changes},
    Evm.transact params ctx beneficiary tx s = some (result, changes) → tx.nonce = s.nonce tx.signer
  bumps : ∀ {params ctx beneficiary tx s result changes},
    Evm.transact params ctx beneficiary tx s = some (result, changes) →
      tx.nonce < (s.commit changes).nonce tx.signer
  rises : ∀ {params ctx beneficiary tx s result changes},
    Evm.transact params ctx beneficiary tx s = some (result, changes) →
      ∀ a, s.nonce a ≤ (s.commit changes).nonce a

theorem WorldState.nonce_congr {s S : WorldState} (h : S.accounts = s.accounts) (a : Address) :
    S.nonce a = s.nonce a := by
  unfold nonce account
  rw [h]

/-! ### One block -/

section Block

variable [Evm] {known : Set ChainTx} {params : ChainParams} {ctx : ChainBlockCtx} {gasLimit : ℕ}

variable (known) in
/-- A run of the sequential path from `before`: what it executed is known, was not spent before
and is now, each transaction once, and its record undoes it. -/
structure Spends (before : WorldState) (st : WorldState × ExecutedBlock) : Prop where
  restores : UndoRecord.Restores st.2.undo before st.1
  code : ∀ hash ∈ before.code, hash ∈ st.1.code
  blockHashes : st.1.blockHashes = before.blockHashes
  rises : ∀ a, before.nonce a ≤ st.1.nonce a
  spent : ∀ hash ∈ st.2.transactionHashes, ∃ tx ∈ known, tx.hash = hash ∧
    before.nonce tx.signer ≤ tx.nonce ∧ tx.nonce < st.1.nonce tx.signer
  nodup : st.2.transactionHashes.Nodup

/-- **One transaction.** -/
theorem Spends.step (hevm : NonceGuarded) (hknown : Set.InjOn ChainTx.hash known)
    {before : WorldState} {st : WorldState × ExecutedBlock} (h : Spends known before st)
    {item : Address × ChainTx} (hitem : item.2 ∈ known) :
    Spends known before (transactOne params ctx gasLimit st item) := by
  have hskip : Spends known before (st.1, st.2.skip) :=
    ⟨h.restores, h.code, h.blockHashes, h.rises, h.spent, h.nodup⟩
  unfold transactOne
  split
  · exact hskip
  split
  · next result changes htx =>
    have hguard := hevm.guard htx
    refine ⟨?_, fun hash hm => WorldState.mem_code_commit (h.code hash hm), ?_,
      fun a => UInt64.le_trans (h.rises a) (hevm.rises htx a), fun hash hm => ?_, ?_⟩
    · exact h.restores.commit changes (Finset.Subset.refl _)
    · exact (WorldState.blockHashes_commit st.1 changes).trans h.blockHashes
    · obtain hm | hm := List.mem_append.mp hm
      · obtain ⟨tx, htxKnown, hhash, hle, hlt⟩ := h.spent hash hm
        exact ⟨tx, htxKnown, hhash, hle, UInt64.lt_of_lt_of_le hlt (hevm.rises htx tx.signer)⟩
      · obtain rfl := List.mem_singleton.mp hm
        exact ⟨item.2, hitem, rfl, hguard ▸ h.rises item.2.signer, hevm.bumps htx⟩
    · show (st.2.transactionHashes ++ [item.2.hash]).Nodup
      rw [List.nodup_append_comm, List.singleton_append, List.nodup_cons]
      refine ⟨fun hm => ?_, h.nodup⟩
      -- it would be spent already, but its nonce is that of its sender
      obtain ⟨tx, htxKnown, hhash, -, hlt⟩ := h.spent _ hm
      obtain rfl := hknown htxKnown hitem hhash
      exact absurd hlt (hguard ▸ UInt64.lt_irrefl _)
  · exact hskip

/-- **One block.** -/
theorem executeSequentially_spends (hevm : NonceGuarded) (hknown : Set.InjOn ChainTx.hash known)
    (s : WorldState) {tagged : List (Address × ChainTx)} (htagged : ∀ item ∈ tagged, item.2 ∈ known)
    (order : List ℕ) :
    Spends known s (executeSequentially params ctx gasLimit s tagged order) := by
  have hpick : ∀ item ∈ pick tagged order, item.2 ∈ known := by
    intro item hitem
    obtain ⟨i, -, hi⟩ := List.mem_filterMap.mp hitem
    exact htagged item (List.mem_of_getElem? hi)
  have hrun : ∀ (l : List (Address × ChainTx)) (st : WorldState × ExecutedBlock),
      (∀ item ∈ l, item.2 ∈ known) → Spends known s st →
      Spends known s (l.foldl (transactOne params ctx gasLimit) st) := by
    intro l
    induction l with
    | nil => exact fun _ _ h => h
    | cons item l ih =>
      intro st hl h
      exact ih _ (fun x hx => hl x (List.mem_cons_of_mem item hx))
        (h.step hevm hknown (hl item List.mem_cons_self))
  -- nothing is spent yet
  refine hrun _ _ hpick ⟨UndoRecord.Restores.refl s, fun _ h => h, rfl,
    fun _ => UInt64.le_refl _, fun _ h => absurd h List.not_mem_nil, List.nodup_nil⟩

end Block

namespace ChainExecutor

/-! ### The stack of results -/

/-- The receipts are those of the transactions in the same places: one for each, with the status
and the logs of an execution of it. -/
def Reported [Evm] (params : ChainParams) (outcome : ChainBlockOutcome) : Prop :=
  outcome.receipts.length = outcome.transactionHashes.length ∧
    ∀ (i : ℕ) (hash : B256) (receipt : Receipt), outcome.transactionHashes[i]? = some hash →
      outcome.receipts[i]? = some receipt →
      ∃ ctx beneficiary tx s result changes, tx.hash = hash ∧
        Evm.transact params ctx beneficiary tx s = some (result, changes) ∧
        receipt.status = result.success ∧ receipt.logs = result.logs

variable [Evm]

/-- What holds of the accounts and the results of an executor: everything executed is known and
spent, every transaction was executed once, and the receipts are those of the transactions. -/
structure Ledger (params : ChainParams) (known : Set ChainTx) (s : WorldState)
    (stack : List ChainBlockOutcome) : Prop where
  spent : ∀ hash ∈ stack.flatMap ChainBlockOutcome.transactionHashes,
    ∃ tx ∈ known, tx.hash = hash ∧ tx.nonce < s.nonce tx.signer
  nodup : (stack.flatMap ChainBlockOutcome.transactionHashes).Nodup
  reported : ∀ outcome ∈ stack, Reported params outcome

variable {params : ChainParams} {known : Set ChainTx}

theorem ledger_ofAccounts : OfAccounts (Ledger params known) := by
  intro s S stack hsame h
  refine ⟨fun hash hm => ?_, h.nodup, h.reported⟩
  obtain ⟨tx, htx, hhash, hlt⟩ := h.spent hash hm
  exact ⟨tx, htx, hhash, WorldState.nonce_congr hsame tx.signer ▸ hlt⟩

omit [Evm] in
/-- The transactions of a chain block are among those that the bodies hold. -/
theorem mem_of_mem_taggedTransactions {D : DagStore} {bodies : BodyStore} {hash : BlockHash}
    (hbodies : ∀ source, ∀ tx ∈ bodies.get source, tx ∈ known) :
    ∀ item ∈ taggedTransactions D bodies hash, item.2 ∈ known := by
  intro item hitem
  obtain ⟨earlier, source, later, -, hmem, -⟩ := beneficiary_of_mem hitem
  exact hbodies source item.2 hmem

variable [Trie] [FeeRule] {X : ChainExecutor} {stack : List ChainBlockOutcome}

omit [Trie] [FeeRule] in
/-- The receipts of an executed block are those of its transactions. -/
theorem reported_of_complete {D : DagStore} {bodies : BodyStore} {hash : BlockHash}
    {ctx : ChainBlockCtx} {outcome : ChainBlockOutcome} {pass : List Considered}
    (h : Complete params D bodies hash ctx outcome pass) : Reported params outcome := by
  refine ⟨?_, fun i txHash receipt hhash hreceipt => ?_⟩
  · rw [h.receipts_length, h.executed, h.hashes, List.length_map]
  · rw [h.hashes, List.getElem?_map] at hhash
    obtain ⟨entry, hentry, rfl⟩ := Option.map_eq_some_iff.mp hhash
    obtain rfl := Option.some.inj (hreceipt.symm.trans (h.receipt i entry hentry))
    obtain ⟨considered, hmem, hresult⟩ := List.mem_filterMap.mp (List.mem_of_getElem? hentry)
    obtain ⟨result, hsome, rfl⟩ := Option.map_eq_some_iff.mp hresult
    obtain ⟨s, changes, htx⟩ := h.ran considered hmem result hsome
    exact ⟨ctx, considered.item.1, considered.item.2, s, result, changes, rfl, htx, rfl, rfl⟩

/-- **Executing a block keeps the ledger.** -/
theorem Stands.executeChainBlock (hevm : NonceGuarded) (hknown : Set.InjOn ChainTx.hash known)
    (h : X.Stands (Ledger X.params known) stack) (hmode : X.parallel = false) {D : DagStore}
    {bodies : BodyStore} (hbodies : ∀ source, ∀ tx ∈ bodies.get source, tx ∈ known)
    {hash : BlockHash} (hmem : hash ∈ D.headers) :
    ∃ X' outcome, X.executeChainBlock D bodies hash = (X', .ok outcome) ∧
      X'.Stands (Ledger X.params known) (outcome :: stack) ∧ outcome.hash = hash ∧ X'.tip = hash ∧
      X'.parallel = false ∧ X'.params = X.params := by
  obtain ⟨header, hl⟩ := Maps.mem_iff_exists_lookup.mp hmem
  have hrun := executeChainBlock_sequential hmode bodies hl
  have hspends : Spends known X.state (X.blockRun D bodies hash header) :=
    executeSequentially_spends hevm hknown _ (mem_of_mem_taggedTransactions hbodies) _
  have hexec := executed_finish hash header X.parallelRounds X.fallbackRounds hspends.restores
    hspends.code hspends.blockHashes
  refine ⟨_, _, hrun, h.execute ledger_ofAccounts hexec rfl ?_, rfl, hexec.tip,
    hexec.parallel.trans hmode, hexec.params⟩
  obtain ⟨_, _, hcomplete⟩ := complete_of_executed hrun
  rw [finish_state]
  refine ⟨fun txHash hm => ?_, ?_, fun o ho => ?_⟩
  · rw [List.flatMap_cons] at hm
    obtain hm | hm := List.mem_append.mp hm
    · obtain ⟨tx, htx, hhash, -, hlt⟩ := hspends.spent txHash hm
      exact ⟨tx, htx, hhash, hlt⟩
    · obtain ⟨tx, htx, hhash, hlt⟩ := h.now.spent txHash hm
      exact ⟨tx, htx, hhash, UInt64.lt_of_lt_of_le hlt (hspends.rises tx.signer)⟩
  · rw [List.flatMap_cons]
    refine List.nodup_append.mpr ⟨hspends.nodup, h.now.nodup, ?_⟩
    rintro txHash hm _ hold rfl
    -- executed before, it would be spent
    obtain ⟨tx, htx, hhash, hle, -⟩ := hspends.spent txHash hm
    obtain ⟨tx', htx', hhash', hlt⟩ := h.now.spent txHash hold
    obtain rfl := hknown htx' htx (hhash'.trans hhash.symm)
    exact absurd (UInt64.lt_of_lt_of_le hlt hle) (UInt64.lt_irrefl _)
  · obtain rfl | ho := List.mem_cons.mp ho
    · exact reported_of_complete hcomplete
    · exact h.now.reported o ho

/-- Executing a list of blocks, oldest first. -/
theorem Stands.executeAll (hevm : NonceGuarded) (hknown : Set.InjOn ChainTx.hash known)
    {D : DagStore} {bodies : BodyStore} (hbodies : ∀ source, ∀ tx ∈ bodies.get source, tx ∈ known)
    {added : List BlockHash} (hadded : ∀ hash ∈ added, hash ∈ D.headers)
    (earlier : List ChainBlockOutcome) (h : X.Stands (Ledger X.params known) stack)
    (hmode : X.parallel = false) :
    ∃ X' outcomes, X.executeAll D bodies added earlier = (X', .ok (earlier ++ outcomes)) ∧
      X'.Stands (Ledger X.params known) (outcomes.reverse ++ stack) ∧
      outcomes.map ChainBlockOutcome.hash = added ∧ X'.tip = added.getLast?.getD X.tip ∧
      X'.parallel = false ∧ X'.params = X.params := by
  -- the stack grows by one outcome a block
  induction added generalizing X stack earlier with
  | nil => exact ⟨X, [], by rw [List.append_nil]; rfl, h, rfl, rfl, hmode, rfl⟩
  | cons hash added ih =>
    obtain ⟨X₁, outcome, hrun, h₁, hhash, htip, hmode₁, hparams⟩ :=
      h.executeChainBlock hevm hknown hmode hbodies (hadded hash List.mem_cons_self)
    rw [← hparams] at h₁
    -- the rest runs from the executor the first block left
    obtain ⟨X', outcomes, hrest, h', hhashes, htip', hmode', hparams'⟩ :=
      ih (fun b hb => hadded b (List.mem_cons_of_mem hash hb)) (earlier ++ [outcome]) h₁ hmode₁
    refine ⟨X', outcome :: outcomes, ?_, ?_, ?_, ?_, hmode', hparams'.trans hparams⟩
    · unfold ChainExecutor.executeAll
      rw [hrun, List.append_cons]
      exact hrest
    · rw [List.reverse_cons, List.append_assoc, ← hparams]
      exact h'
    · rw [List.map_cons, hhash, hhashes]
    · rw [htip', List.getLast?_cons, Option.getD_some, htip]

omit [Trie] [FeeRule] in
/-- Nothing has been executed in a fresh executor. -/
theorem stands_new [Trie] [FeeRule] (params : ChainParams) (genesisState : WorldState)
    (genesisHash : BlockHash) : ∃ outcome : ChainBlockOutcome, outcome.hash = genesisHash ∧
      outcome.transactionHashes = [] ∧
      (new params genesisState genesisHash).Stands (Ledger params known) [outcome] := by
  -- height 0 is the genesis, and nothing lies above it
  refine ⟨⟨0, genesisHash, genesisState.stateRoot, FeeRule.emptyReceiptsRoot, 0, initialBaseFee,
    0, 0, [], [], 0, 0⟩, rfl, rfl, ⟨rfl, fun i => ?_, fun i outcome hi => ?_⟩, ?_, ?_, ?_⟩
  · cases i with
    | zero => exact Finmap.lookup_singleton_eq
    | succ i =>
      refine Finmap.lookup_eq_none.mpr fun hm => ?_
      exact absurd ((Finmap.mem_singleton _ _ _).mp hm) (Nat.succ_ne_zero i)
  · cases i with
    | zero =>
      obtain rfl := Option.some.inj hi
      rfl
    | succ i => cases hi
  · exact fun _ h => absurd h List.not_mem_nil
  · exact List.nodup_nil
  · intro outcome ho
    obtain rfl := List.mem_singleton.mp ho
    exact ⟨rfl, fun i _ _ hi => absurd hi (by simp)⟩

end ChainExecutor

end Chainname
