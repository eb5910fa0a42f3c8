import Chainname.Execution.Evm

/-!
# The transaction pool

The pool holds transactions that are not yet in a block, by hash and by sender and nonce. A
transaction leaves it when it is removed as executed, pruned as stale, replaced by one of the
same nonce that pays more, or evicted because the pool is full.

The encoding that is kept for relaying is not modelled.
-/

namespace Chainname

/-- A transaction with its recovered sender, and what the pool alone looks at. -/
structure RecoveredTx where
  tx : ChainTx
  chainId : Option ℕ
  /-- An EIP-4844 transaction. -/
  blob : Bool
  deriving DecidableEq

/-- A transaction held in the pool. -/
structure PooledTx where
  tx : RecoveredTx
  /-- Arrival order, used to break fee ties. -/
  sequence : ℕ
  deriving DecidableEq

namespace PooledTx

variable (pooled : PooledTx)

def hash : B256 := pooled.tx.tx.hash

def sender : Address := pooled.tx.tx.signer

def nonce : UInt64 := pooled.tx.tx.nonce

/-- Priority fee actually payable at a base fee, in wei per gas. -/
def effectiveTip (baseFee : ℕ) : ℕ :=
  if pooled.tx.tx.maxFeePerGas ≤ baseFee then 0
  else min (pooled.tx.tx.maxPriorityFeePerGas.getD 0) (pooled.tx.tx.maxFeePerGas - baseFee)

end PooledTx

/-- The largest gas limit a single transaction may declare. -/
def txGasLimitCap : ℕ := 16777216

/-- Pool limits. -/
structure PoolConfig where
  maxTransactions : ℕ
  maxPerSender : ℕ
  chainId : ℕ
  maxTxGasLimit : ℕ
  deriving DecidableEq

/-- Defaults for a network. -/
def PoolConfig.new (chainId blockGasLimit : ℕ) : PoolConfig where
  maxTransactions := 5000
  maxPerSender := 64
  chainId := chainId
  maxTxGasLimit := if blockGasLimit < txGasLimitCap then blockGasLimit else txGasLimitCap

/-- Reasons a transaction was refused. -/
inductive PoolError where
  | alreadyKnown (hash : B256)
  | wrongChainId (found : Option ℕ) (expected : ℕ)
  | blobTransaction (hash : B256)
  | gasLimitTooHigh (found limit : ℕ)
  | nonceTooLow (found account : UInt64)
  | insufficientFunds (required available : B256)
  | tooManyFromSender (sender : Address) (limit : ℕ)
  | replacementUnderpriced (offered existing : ℕ)
  deriving DecidableEq

/-- The pool. -/
structure TxPool where
  config : PoolConfig
  byHash : Map B256 PooledTx
  bySender : Map Address (Map UInt64 B256)
  /-- How many have been admitted. As it goes up by one, the 64 bits it is given do not run out. -/
  sequence : ℕ

namespace TxPool

/-- An empty pool. -/
def new (config : PoolConfig) : TxPool := ⟨config, ∅, ∅, 0⟩

section Operations

variable (pool : TxPool)

/-- Every held transaction's hash. -/
def hashes : List B256 := Maps.sortedKeys pool.byHash.keys

/-- Every held transaction. -/
def values : List PooledTx := (Maps.toList pool.byHash).map Prod.snd

/-- Removes a transaction. -/
def remove (hash : B256) : TxPool :=
  match pool.byHash.lookup hash with
  | none => pool
  | some pooled =>
    let nonces := ((pool.bySender.lookup pooled.sender).getD ∅).erase pooled.nonce
    { pool with
      byHash := pool.byHash.erase hash
      bySender :=
        -- a sender without a transaction is not kept
        if nonces = ∅ then pool.bySender.erase pooled.sender
        else pool.bySender.insert pooled.sender nonces }

/-- Drops transactions that a newly executed state has made obsolete. -/
def prune (accountNonces : Address → UInt64) : TxPool :=
  ((pool.values.filter fun pooled => pooled.nonce < accountNonces pooled.sender).map
    PooledTx.hash).foldl remove pool

/-- Of two transactions the one to evict: the cheaper one, or the newer of two equally cheap. -/
def worse (baseFee : ℕ) (a b : PooledTx) : PooledTx :=
  if b.effectiveTip baseFee < a.effectiveTip baseFee ∨
      b.effectiveTip baseFee = a.effectiveTip baseFee ∧ a.sequence < b.sequence then b
  else a

/-- Evicts the lowest fee-rate transaction. -/
def evictWorst (baseFee : ℕ) : TxPool :=
  match pool.values with
  | [] => pool
  | pooled :: rest => pool.remove (rest.foldl (worse baseFee) pooled).hash

/-- Holds an admitted transaction, and evicts one if the pool has become too large. -/
def hold (pooled : PooledTx) (baseFee : ℕ) : TxPool :=
  let nonces := (pool.bySender.lookup pooled.sender).getD ∅
  -- both indexes first: the eviction below looks at the new transaction too
  let pool : TxPool :=
    { pool with
      bySender := pool.bySender.insert pooled.sender (nonces.insert pooled.nonce pooled.hash)
      byHash := pool.byHash.insert pooled.hash pooled }
  if pool.config.maxTransactions < pool.byHash.keys.card then pool.evictWorst baseFee else pool

/-- The most a transaction could cost, with what it sends. -/
def maxCost (tx : ChainTx) : B256 :=
  B256.saturatingAdd (B256.saturatingMul tx.maxFeePerGas tx.gasLimit) tx.value

/-- Admits a transaction. -/
def add (tx : RecoveredTx) (baseFee : ℕ) (accountNonce : UInt64) (accountBalance : B256) :
    TxPool × Except PoolError B256 :=
  let hash := tx.tx.hash
  if hash ∈ pool.byHash then (pool, .error (.alreadyKnown hash))
  else if tx.chainId ≠ some pool.config.chainId then
    (pool, .error (.wrongChainId tx.chainId pool.config.chainId))
  -- there is no blob market on this chain
  else if tx.blob then (pool, .error (.blobTransaction hash))
  else if pool.config.maxTxGasLimit < tx.tx.gasLimit then
    (pool, .error (.gasLimitTooHigh tx.tx.gasLimit pool.config.maxTxGasLimit))
  else if tx.tx.nonce < accountNonce then
    (pool, .error (.nonceTooLow tx.tx.nonce accountNonce))
  else if accountBalance < maxCost tx.tx then
    (pool, .error (.insufficientFunds (maxCost tx.tx) accountBalance))
  else
    let nonces := (pool.bySender.lookup tx.tx.signer).getD ∅
    let replacing := nonces.lookup tx.tx.nonce
    if replacing = none ∧ pool.config.maxPerSender ≤ nonces.keys.card then
      (pool, .error (.tooManyFromSender tx.tx.signer pool.config.maxPerSender))
    else
      -- counted before the price is compared, so that a refused replacement uses a number up
      let pool := { pool with sequence := pool.sequence + 1 }
      let pooled : PooledTx := ⟨tx, pool.sequence⟩
      match replacing with
      | none => (pool.hold pooled baseFee, .ok hash)
      | some existing =>
        -- the index names held transactions only, so the default is never read
        let existingTip := (pool.byHash.lookup existing).elim 0 (·.effectiveTip baseFee)
        -- a replacement must pay strictly more
        if pooled.effectiveTip baseFee ≤ existingTip then
          (pool, .error (.replacementUnderpriced (pooled.effectiveTip baseFee) existingTip))
        else ((pool.remove existing).hold pooled baseFee, .ok hash)

end Operations

/-! ### What is held -/

/-- Transactions are held under their hashes. -/
def Keyed (pool : TxPool) : Prop :=
  ∀ b pooled, pool.byHash.lookup b = some pooled → pooled.hash = b

section Held

variable {pool : TxPool}

theorem keyed_new (config : PoolConfig) : (new config).Keyed := fun _ _ h => nomatch h

/-- **What is held after a removal.** -/
theorem lookup_remove (pool : TxPool) (hash b : B256) :
    (pool.remove hash).byHash.lookup b = if b = hash then none else pool.byHash.lookup b := by
  unfold remove
  cases hl : pool.byHash.lookup hash with
  | none =>
    dsimp only
    split
    · next he => rw [he, hl]
    · rfl
  | some pooled => exact Maps.lookup_erase _ _ _

theorem lookup_foldl_remove (removed : List B256) (pool : TxPool) (b : B256) :
    (removed.foldl remove pool).byHash.lookup b
      = if b ∈ removed then none else pool.byHash.lookup b := by
  induction removed generalizing pool with
  | nil => exact (if_neg List.not_mem_nil).symm
  | cons hash removed ih =>
    rw [List.foldl_cons, ih, lookup_remove]
    by_cases hb : b = hash
    · simp [hb]
    · simp [hb]

theorem mem_values {pooled : PooledTx} :
    pooled ∈ pool.values ↔ ∃ b, pool.byHash.lookup b = some pooled := by
  unfold values
  rw [List.mem_map]
  refine ⟨?_, ?_⟩
  · rintro ⟨⟨b, p⟩, hmem, rfl⟩
    exact ⟨b, Maps.mem_toList.mp hmem⟩
  · rintro ⟨b, hl⟩
    exact ⟨(b, pooled), Maps.mem_toList.mpr hl, rfl⟩

/-- **What is held after pruning**: all but the stale transactions. -/
theorem lookup_prune_eq_some (hpool : pool.Keyed) (accountNonces : Address → UInt64) {b : B256}
    {pooled : PooledTx} : (pool.prune accountNonces).byHash.lookup b = some pooled ↔
      pool.byHash.lookup b = some pooled ∧ ¬ pooled.nonce < accountNonces pooled.sender := by
  have hstale : ∀ {b pooled}, pool.byHash.lookup b = some pooled →
      (b ∈ (pool.values.filter fun p => p.nonce < accountNonces p.sender).map PooledTx.hash ↔
        pooled.nonce < accountNonces pooled.sender) := by
    intro b pooled hl
    rw [List.mem_map]
    refine ⟨?_, ?_⟩
    · rintro ⟨p, hmem, rfl⟩
      obtain ⟨hvalue, hnonce⟩ := List.mem_filter.mp hmem
      obtain ⟨c, hc⟩ := mem_values.mp hvalue
      -- held under its own hash, so it is the one found there
      obtain rfl := hpool c p hc
      obtain rfl := Option.some.inj (hc.symm.trans hl)
      exact of_decide_eq_true hnonce
    · intro hnonce
      exact ⟨pooled, List.mem_filter.mpr ⟨mem_values.mpr ⟨b, hl⟩, decide_eq_true hnonce⟩,
        hpool b pooled hl⟩
  unfold prune
  rw [lookup_foldl_remove]
  refine ⟨?_, ?_⟩
  · intro h
    split at h
    · cases h
    · next hnot => exact ⟨h, fun hnonce => hnot ((hstale h).mpr hnonce)⟩
  · rintro ⟨hl, hnonce⟩
    rw [if_neg fun hmem => hnonce ((hstale hl).mp hmem), hl]

/-- A pool that holds nothing new is keyed as before. -/
theorem Keyed.of_subset {pool' : TxPool} (h : pool.Keyed)
    (hsub : ∀ b pooled, pool'.byHash.lookup b = some pooled → pool.byHash.lookup b = some pooled) :
    pool'.Keyed :=
  fun b pooled hl => h b pooled (hsub b pooled hl)

theorem lookup_of_lookup_remove {hash b : B256} {pooled : PooledTx}
    (h : (pool.remove hash).byHash.lookup b = some pooled) : pool.byHash.lookup b = some pooled := by
  rw [lookup_remove] at h
  split at h
  · cases h
  · exact h

/-- What is held after holding one more: it, and some of what was held. -/
theorem lookup_of_lookup_hold {pooled p : PooledTx} {baseFee : ℕ} {b : B256}
    (h : (pool.hold pooled baseFee).byHash.lookup b = some p) :
    b = pooled.hash ∧ p = pooled ∨ pool.byHash.lookup b = some p := by
  have hinsert : ∀ {p}, (pool.byHash.insert pooled.hash pooled).lookup b = some p →
      b = pooled.hash ∧ p = pooled ∨ pool.byHash.lookup b = some p := by
    exact fun hl => (Maps.lookup_insert_eq_some.mp hl).imp_right And.right
  unfold hold evictWorst at h
  dsimp only at h
  split at h
  · split at h
    · exact hinsert h
    · exact hinsert (lookup_of_lookup_remove h)
  · exact hinsert h

/-- What an admission does: it is refused and what is held stays, or the transaction is held
with what was held before, a transaction that it replaces excepted. -/
theorem add_cases (pool : TxPool) (tx : RecoveredTx) (baseFee : ℕ) (accountNonce : UInt64)
    (accountBalance : B256) :
    (∃ e, (pool.add tx baseFee accountNonce accountBalance).2 = .error e ∧
      (pool.add tx baseFee accountNonce accountBalance).1.byHash = pool.byHash) ∨
    ((pool.add tx baseFee accountNonce accountBalance).2 = .ok tx.tx.hash ∧
      ∃ base : TxPool, ∃ pooled : PooledTx, pooled.tx = tx ∧
        (∀ b p, base.byHash.lookup b = some p → pool.byHash.lookup b = some p) ∧
        (pool.add tx baseFee accountNonce accountBalance).1 = base.hold pooled baseFee) := by
  generalize hadd : pool.add tx baseFee accountNonce accountBalance = added
  have hrefused : ∀ {pool' : TxPool} {e : PoolError}, pool'.byHash = pool.byHash →
      (pool', .error e) = added →
      (∃ e, added.2 = .error e ∧ added.1.byHash = pool.byHash) := by
    rintro pool' e hsame rfl
    exact ⟨e, rfl, hsame⟩
  unfold add at hadd
  dsimp only at hadd
  split at hadd
  · exact Or.inl (hrefused rfl hadd)
  split at hadd
  · exact Or.inl (hrefused rfl hadd)
  split at hadd
  · exact Or.inl (hrefused rfl hadd)
  split at hadd
  · exact Or.inl (hrefused rfl hadd)
  split at hadd
  · exact Or.inl (hrefused rfl hadd)
  split at hadd
  · exact Or.inl (hrefused rfl hadd)
  split at hadd
  · exact Or.inl (hrefused rfl hadd)
  -- the transaction is numbered, whether it is held or not
  let counted : TxPool := { pool with sequence := pool.sequence + 1 }
  split at hadd
  · subst hadd
    exact Or.inr ⟨rfl, counted, _, rfl, fun _ _ h => h, rfl⟩
  · next existing _ =>
    split at hadd
    · refine Or.inl (hrefused ?_ hadd)
      rfl
    · subst hadd
      refine Or.inr ⟨rfl, counted.remove existing, _, rfl, fun b p h => ?_, rfl⟩
      have hremoved : (counted.remove existing).byHash.lookup b = some p := h
      have hcounted := lookup_of_lookup_remove hremoved
      exact hcounted

/-- **What is held after an admission**: the transaction, if it was admitted, and some of what
was held. -/
theorem lookup_of_lookup_add {tx : RecoveredTx} {baseFee : ℕ} {accountNonce : UInt64}
    {accountBalance : B256} {b : B256} {p : PooledTx}
    (h : (pool.add tx baseFee accountNonce accountBalance).1.byHash.lookup b = some p) :
    (pool.add tx baseFee accountNonce accountBalance).2 = .ok tx.tx.hash ∧ b = tx.tx.hash ∧
        p.tx = tx ∨
      pool.byHash.lookup b = some p := by
  obtain ⟨e, -, hsame⟩ | ⟨hok, base, pooled, rfl, hbase, hadd⟩ :=
    pool.add_cases tx baseFee accountNonce accountBalance
  · rw [hsame] at h
    exact Or.inr h
  · -- the entry that was added, or one that was there
    rw [hadd] at h
    obtain ⟨rfl, rfl⟩ | hl := lookup_of_lookup_hold h
    · exact Or.inl ⟨hok, rfl, rfl⟩
    · exact Or.inr (hbase b p hl)

end Held

end TxPool

end Chainname
