import Chainname.Library.Index
import Chainname.Library.Runs
import Chainname.Rpc.Pool

/-!
# The two indexes of the pool

A pool files its transactions by hash and, for each sender, by nonce. Both are updated by an
admission, which may remove a replaced transaction before it inserts the new one and may evict
one after, by a removal and by a pruning.

`AddOutcome` says what an admission can do, with the checks it went through. From it and from
the two rules of an indexed table follow `Sound`, that the indexes agree and that arrivals are
numbered, and `Bounded`, that the pool keeps its limits, after every call.
-/

namespace Chainname

/-- What is done to a pool. -/
inductive PoolCall where
  | add (tx : RecoveredTx) (baseFee : ℕ) (accountNonce : UInt64) (accountBalance : B256)
  | remove (hash : B256)
  | prune (accountNonces : Address → UInt64)

namespace TxPool

/-- One call. -/
def step (pool : TxPool) : PoolCall → TxPool
  | .add tx baseFee accountNonce accountBalance =>
    (pool.add tx baseFee accountNonce accountBalance).1
  | .remove hash => pool.remove hash
  | .prune accountNonces => pool.prune accountNonces

/-- The hashes of the held transactions of a sender. -/
def heldFrom (pool : TxPool) (sender : Address) : Finset B256 :=
  pool.byHash.keys.filter fun hash => (pool.byHash.lookup hash).map PooledTx.sender = some sender

/-- The held transaction of the same sender and nonce. -/
def replaced (pool : TxPool) (tx : RecoveredTx) : Option B256 :=
  (Index.slots pool.bySender tx.tx.signer).lookup tx.tx.nonce

/-- How many transactions of a sender are queued. -/
def queued (pool : TxPool) (sender : Address) : ℕ := (Index.slots pool.bySender sender).keys.card

/-- The checks of an admission that look at the transaction and its account only. -/
structure Passes (pool : TxPool) (tx : RecoveredTx) (accountNonce : UInt64)
    (accountBalance : B256) : Prop where
  unknown : tx.tx.hash ∉ pool.byHash
  chainId : tx.chainId = some pool.config.chainId
  noBlob : tx.blob = false
  gasLimit : tx.tx.gasLimit ≤ pool.config.maxTxGasLimit
  nonce : accountNonce ≤ tx.tx.nonce
  funds : maxCost tx.tx ≤ accountBalance

/-- The pool once an arrival has been numbered. -/
def counted (pool : TxPool) : TxPool := { pool with sequence := pool.sequence + 1 }

/-- An arrival, as it is held. -/
def arrival (pool : TxPool) (tx : RecoveredTx) : PooledTx := ⟨tx, pool.sequence + 1⟩

/-- A pool with one more transaction in both indexes. -/
def filed (pool : TxPool) (pooled : PooledTx) : TxPool :=
  { pool with
    bySender := Index.file pool.bySender pooled.sender pooled.nonce pooled.hash
    byHash := pool.byHash.insert pooled.hash pooled }

/-- What an admission can do. -/
inductive AddOutcome (pool : TxPool) (tx : RecoveredTx) (baseFee : ℕ) (accountNonce : UInt64)
    (accountBalance : B256) : TxPool × Except PoolError B256 → Prop
  | refused (e : PoolError)
      (hcheck : pool.Passes tx accountNonce accountBalance →
        pool.replaced tx = none ∧ pool.config.maxPerSender ≤ pool.queued tx.tx.signer)
      (hother : ∀ offered existing, e ≠ .replacementUnderpriced offered existing) :
      AddOutcome pool tx baseFee accountNonce accountBalance (pool, .error e)
  | underpriced (existing : B256) (existingTip : ℕ)
      (hpasses : pool.Passes tx accountNonce accountBalance)
      (hreplaced : pool.replaced tx = some existing)
      (htip : existingTip = (pool.byHash.lookup existing).elim 0 (·.effectiveTip baseFee))
      (hle : (pool.arrival tx).effectiveTip baseFee ≤ existingTip) :
      AddOutcome pool tx baseFee accountNonce accountBalance
        (pool.counted,
          .error (.replacementUnderpriced ((pool.arrival tx).effectiveTip baseFee) existingTip))
  | joined (hpasses : pool.Passes tx accountNonce accountBalance)
      (hreplaced : pool.replaced tx = none)
      (hroom : pool.queued tx.tx.signer < pool.config.maxPerSender) :
      AddOutcome pool tx baseFee accountNonce accountBalance
        (pool.counted.hold (pool.arrival tx) baseFee, .ok tx.tx.hash)
  | replaced (existing : B256) (hpasses : pool.Passes tx accountNonce accountBalance)
      (hreplaced : pool.replaced tx = some existing)
      (hlt : (pool.byHash.lookup existing).elim 0 (·.effectiveTip baseFee)
        < (pool.arrival tx).effectiveTip baseFee) :
      AddOutcome pool tx baseFee accountNonce accountBalance
        ((pool.counted.remove existing).hold (pool.arrival tx) baseFee, .ok tx.tx.hash)

/-- The two indexes agree, and the arrivals are numbered. -/
structure Sound (pool : TxPool) : Prop where
  keyed : pool.Keyed
  indexed : Index.Indexes PooledTx.sender PooledTx.nonce pool.byHash pool.bySender
  numbered : ∀ b p, pool.byHash.lookup b = some p → p.sequence ≤ pool.sequence
  distinct : ∀ b b' p p', pool.byHash.lookup b = some p → pool.byHash.lookup b' = some p' →
    p.sequence = p'.sequence → b = b'

/-- The pool keeps its limits. -/
structure Bounded (pool : TxPool) : Prop where
  total : pool.byHash.keys.card ≤ pool.config.maxTransactions
  perSender : ∀ sender, pool.queued sender ≤ pool.config.maxPerSender

section Add

variable {pool : TxPool} {tx : RecoveredTx} {baseFee : ℕ} {accountNonce : UInt64}
  {accountBalance : B256}

/-- **What an admission does**, by the checks in their order. -/
theorem add_outcome : AddOutcome pool tx baseFee accountNonce accountBalance
    (pool.add tx baseFee accountNonce accountBalance) := by
  -- a failed check leaves the pool, and is not about a replacement
  have hfails : ∀ {e : PoolError}, ¬ pool.Passes tx accountNonce accountBalance →
      (∀ offered existing, e ≠ .replacementUnderpriced offered existing) →
      AddOutcome pool tx baseFee accountNonce accountBalance (pool, .error e) :=
    fun hnot hother => .refused _ (fun hpasses => absurd hpasses hnot) hother
  unfold add
  dsimp only
  split
  · next h => exact hfails (fun hp => hp.unknown h) fun _ _ => nofun
  next hunknown =>
  split
  · next h => exact hfails (fun hp => h hp.chainId) fun _ _ => nofun
  next hchain =>
  split
  · next h => exact hfails (fun hp => by rw [hp.noBlob] at h; cases h) fun _ _ => nofun
  next hblob =>
  split
  · next h => exact hfails (fun hp => absurd h (Nat.not_lt.mpr hp.gasLimit)) fun _ _ => nofun
  next hgas =>
  split
  · next h => exact hfails (fun hp => absurd h (UInt64.not_lt.mpr hp.nonce)) fun _ _ => nofun
  next hnonce =>
  split
  · next h => exact hfails (fun hp => absurd h (not_lt.mpr hp.funds)) fun _ _ => nofun
  next hfunds =>
  have hpasses : pool.Passes tx accountNonce accountBalance :=
    ⟨hunknown, not_not.mp hchain, eq_false_of_ne_true hblob, Nat.not_lt.mp hgas,
      UInt64.not_lt.mp hnonce, not_lt.mp hfunds⟩
  split
  · next h => exact .refused _ (fun _ => h) fun _ _ => nofun
  next hroom =>
  split
  · next hreplaced => exact .joined hpasses hreplaced (Nat.not_le.mp fun h => hroom ⟨hreplaced, h⟩)
  · next existing hreplaced =>
    split
    · next hle => exact .underpriced existing _ hpasses hreplaced rfl hle
    · next hlt => exact .replaced existing hpasses hreplaced (Nat.not_le.mp hlt)

end Add

/-! ### One update of both indexes -/

section Updates

variable {pool : TxPool}

theorem remove_of_held {b : B256} {p : PooledTx} (h : pool.byHash.lookup b = some p) :
    pool.remove b =
      { pool with
        byHash := pool.byHash.erase b
        bySender := Index.unfile pool.bySender p.sender p.nonce } := by
  unfold remove
  rw [h]
  rfl

theorem remove_of_not_held {b : B256} (h : pool.byHash.lookup b = none) : pool.remove b = pool := by
  unfold remove
  rw [h]

@[simp] theorem config_remove (b : B256) : (pool.remove b).config = pool.config := by
  cases h : pool.byHash.lookup b with
  | none => rw [remove_of_not_held h]
  | some p => rw [remove_of_held h]

@[simp] theorem sequence_remove (b : B256) : (pool.remove b).sequence = pool.sequence := by
  cases h : pool.byHash.lookup b with
  | none => rw [remove_of_not_held h]
  | some p => rw [remove_of_held h]

/-- A removal frees the slot of the transaction, and no other. -/
theorem slots_remove {b : B256} {p : PooledTx} (h : pool.byHash.lookup b = some p)
    (sender : Address) : Index.slots (pool.remove b).bySender sender
      = if sender = p.sender then (Index.slots pool.bySender p.sender).erase p.nonce
        else Index.slots pool.bySender sender := by
  rw [remove_of_held h]
  exact Index.slots_unfile _ _ _ _

theorem queued_remove_le (b : B256) (sender : Address) :
    (pool.remove b).queued sender ≤ pool.queued sender := by
  cases h : pool.byHash.lookup b with
  | none => rw [remove_of_not_held h]
  | some p =>
    unfold queued
    rw [slots_remove h]
    split
    · next heq =>
      rw [heq, Finmap.keys_erase]
      exact Finset.card_erase_le
    · exact le_rfl

theorem card_remove_le (b : B256) :
    (pool.remove b).byHash.keys.card ≤ pool.byHash.keys.card := by
  cases h : pool.byHash.lookup b with
  | none => rw [remove_of_not_held h]
  | some p =>
    rw [remove_of_held h]
    exact (Nat.le_succ _).trans (Maps.card_keys_erase (Maps.mem_of_lookup h)).le

theorem Sound.remove (h : pool.Sound) (b : B256) : (pool.remove b).Sound := by
  cases hb : pool.byHash.lookup b with
  | none =>
    rw [remove_of_not_held hb]
    exact h
  | some p =>
    -- fewer transactions, so that what held of all of them still does
    have hkeep : ∀ {c q}, (pool.remove b).byHash.lookup c = some q →
        pool.byHash.lookup c = some q := lookup_of_lookup_remove
    refine ⟨h.keyed.of_subset fun _ _ => hkeep, ?_, ?_, ?_⟩
    · rw [remove_of_held hb]
      exact h.indexed.erase hb
    · intro c q hq
      rw [sequence_remove]
      exact h.numbered c q (hkeep hq)
    · intro c c' q q' hq hq' heq
      exact h.distinct c c' q q' (hkeep hq) (hkeep hq') heq

theorem Bounded.remove (h : pool.Bounded) (b : B256) : (pool.remove b).Bounded where
  total := by
    rw [config_remove]
    exact (card_remove_le b).trans h.total
  perSender := fun sender => by
    rw [config_remove]
    exact (queued_remove_le b sender).trans (h.perSender sender)

/-- What removals keep, a loop of them does. -/
theorem foldl_remove_induction {P : TxPool → Prop} (hP : ∀ pool b, P pool → P (pool.remove b))
    (removed : List B256) (h : P pool) : P (removed.foldl TxPool.remove pool) := by
  induction removed generalizing pool with
  | nil => exact h
  | cons b removed ih => exact ih (hP pool b h)

/-- A transaction that arrives later than all others, at a free nonce, can be held. -/
theorem Sound.filed (h : pool.Sound) {pooled : PooledTx} (hnew : pooled.hash ∉ pool.byHash)
    (hfree : (Index.slots pool.bySender pooled.sender).lookup pooled.nonce = none)
    (hseq : pooled.sequence ≤ pool.sequence)
    (hlate : ∀ b p, pool.byHash.lookup b = some p → p.sequence < pooled.sequence) :
    (pool.filed pooled).Sound where
  keyed := by
    intro b p hl
    obtain ⟨rfl, rfl⟩ | ⟨-, hl⟩ := Maps.lookup_insert_eq_some.mp hl
    · rfl
    · exact h.keyed b p hl
  indexed := h.indexed.insert (Finmap.lookup_eq_none.mpr hnew) hfree
  numbered := by
    intro b p hl
    obtain ⟨-, rfl⟩ | ⟨-, hl⟩ := Maps.lookup_insert_eq_some.mp hl
    · exact hseq
    · exact h.numbered b p hl
  distinct := by
    intro b b' p p' hl hl' heq
    obtain ⟨rfl, rfl⟩ | ⟨-, hold⟩ := Maps.lookup_insert_eq_some.mp hl
    · obtain ⟨rfl, -⟩ | ⟨-, hold'⟩ := Maps.lookup_insert_eq_some.mp hl'
      · rfl
      · -- the other came earlier
        exact absurd heq (hlate b' p' hold').ne'
    · obtain ⟨-, rfl⟩ | ⟨-, hold'⟩ := Maps.lookup_insert_eq_some.mp hl'
      · exact absurd heq (hlate b p hold).ne
      · exact h.distinct b b' p p' hold hold' heq

/-- An eviction removes a held transaction, if there is one. -/
theorem evictWorst_cases (baseFee : ℕ) :
    pool.values = [] ∧ pool.evictWorst baseFee = pool ∨
      ∃ p rest, pool.values = p :: rest ∧
        pool.evictWorst baseFee = pool.remove (rest.foldl (worse baseFee) p).hash := by
  unfold evictWorst
  cases h : pool.values with
  | nil => exact Or.inl ⟨rfl, rfl⟩
  | cons p rest => exact Or.inr ⟨p, rest, rfl, rfl⟩

theorem evictWorst_induction {P : TxPool → Prop} (hP : ∀ b, P (pool.remove b)) (h : P pool)
    (baseFee : ℕ) : P (pool.evictWorst baseFee) := by
  obtain ⟨-, heq⟩ | ⟨p, rest, -, heq⟩ := pool.evictWorst_cases baseFee
  · rw [heq]
    exact h
  · rw [heq]
    exact hP _

@[simp] theorem config_evictWorst (baseFee : ℕ) :
    (pool.evictWorst baseFee).config = pool.config :=
  evictWorst_induction (P := fun p => p.config = pool.config) (fun b => config_remove b) rfl baseFee

/-- The worse of two is one of them. -/
theorem worse_eq (baseFee : ℕ) (a b : PooledTx) :
    worse baseFee a b = a ∨ worse baseFee a b = b := by
  unfold worse
  split
  · exact Or.inr rfl
  · exact Or.inl rfl

theorem foldl_worse_mem (baseFee : ℕ) (rest : List PooledTx) (p : PooledTx) :
    rest.foldl (worse baseFee) p ∈ p :: rest := by
  -- the worst so far is one of those compared
  induction rest generalizing p with
  | nil => exact List.mem_cons_self
  | cons q rest ih =>
    rw [List.foldl_cons]
    obtain heq | hmem := List.mem_cons.mp (ih (worse baseFee p q))
    · rw [heq]
      obtain h | h := worse_eq baseFee p q
      · rw [h]
        exact List.mem_cons_self
      · rw [h]
        exact List.mem_cons_of_mem _ List.mem_cons_self
    · exact List.mem_cons_of_mem _ (List.mem_cons_of_mem _ hmem)

/-- An eviction from a pool that holds something leaves one transaction less. -/
theorem card_evictWorst (hkeyed : pool.Keyed) (baseFee : ℕ) :
    (pool.evictWorst baseFee).byHash.keys.card = pool.byHash.keys.card - 1 := by
  obtain ⟨hvalues, heq⟩ | ⟨p, rest, hvalues, heq⟩ := pool.evictWorst_cases baseFee
  · rw [heq]
    -- nothing to evict means that nothing is held
    have hempty : pool.byHash.keys = ∅ := by
      refine Finset.eq_empty_of_forall_notMem fun b hb => ?_
      obtain ⟨q, hq⟩ := Maps.mem_iff_exists_lookup.mp (Finmap.mem_keys.mp hb)
      have hmem := mem_values.mpr ⟨b, hq⟩
      rw [hvalues] at hmem
      exact List.not_mem_nil hmem
    rw [hempty]
    rfl
  · have hmem := foldl_worse_mem baseFee rest p
    rw [← hvalues] at hmem
    obtain ⟨b, hb⟩ := mem_values.mp hmem
    rw [heq, hkeyed b _ hb, remove_of_held hb, ← Maps.card_keys_erase (Maps.mem_of_lookup hb)]
    rfl

/-- Holding a transaction files it, and evicts one when the pool is over its limit. -/
theorem hold_eq (pooled : PooledTx) (baseFee : ℕ) :
    pool.hold pooled baseFee =
      if pool.config.maxTransactions < (pool.filed pooled).byHash.keys.card then
        (pool.filed pooled).evictWorst baseFee
      else pool.filed pooled := rfl

theorem queued_filed {pooled : PooledTx}
    (hfree : (Index.slots pool.bySender pooled.sender).lookup pooled.nonce = none)
    (sender : Address) :
    (pool.filed pooled).queued sender
      = if sender = pooled.sender then pool.queued pooled.sender + 1 else pool.queued sender := by
  unfold queued
  have hslots : Index.slots (pool.filed pooled).bySender sender = _ := Index.slots_file _ _ _ _ _
  rw [hslots]
  split
  · exact Maps.card_keys_insert _ (Finmap.lookup_eq_none.mp hfree)
  · rfl

theorem hold_of_room {pooled : PooledTx}
    (hroom : (pool.filed pooled).byHash.keys.card ≤ pool.config.maxTransactions) (baseFee : ℕ) :
    pool.hold pooled baseFee = pool.filed pooled := by
  rw [hold_eq, if_neg (Nat.not_lt.mpr hroom)]

theorem Sound.hold {pooled : PooledTx} (h : (pool.filed pooled).Sound) (baseFee : ℕ) :
    (pool.hold pooled baseFee).Sound := by
  rw [hold_eq]
  split
  · exact evictWorst_induction h.remove h baseFee
  · exact h

/-- The pool keeps its limits when one transaction is held, if it kept them before and the
sender's queue has room: one eviction is enough. -/
theorem Bounded.hold (h : pool.Bounded) {pooled : PooledTx} (hsound : (pool.filed pooled).Sound)
    (hnew : pooled.hash ∉ pool.byHash)
    (hfree : (Index.slots pool.bySender pooled.sender).lookup pooled.nonce = none)
    (hroom : pool.queued pooled.sender < pool.config.maxPerSender) (baseFee : ℕ) :
    (pool.hold pooled baseFee).Bounded := by
  have hcard : (pool.filed pooled).byHash.keys.card = pool.byHash.keys.card + 1 :=
    Maps.card_keys_insert _ hnew
  have hqueued : ∀ sender, (pool.filed pooled).queued sender ≤ pool.config.maxPerSender := by
    intro sender
    rw [queued_filed hfree]
    split
    · exact hroom
    · exact h.perSender sender
  rw [hold_eq]
  split
  · -- over the bound one is evicted, which brings it back
    refine ⟨?_, fun sender => ?_⟩
    · rw [config_evictWorst, card_evictWorst hsound.keyed, hcard]
      exact h.total
    · rw [config_evictWorst]
      refine le_trans ?_ (hqueued sender)
      exact evictWorst_induction (P := fun p => p.queued sender ≤ (pool.filed pooled).queued sender)
        (fun b => queued_remove_le b sender) le_rfl baseFee
  · -- below it nothing is
    next hlt => exact ⟨Nat.not_lt.mp hlt, hqueued⟩

end Updates

/-! ### An admission -/

section Admission

variable {pool : TxPool} {tx : RecoveredTx} {baseFee : ℕ} {accountNonce : UInt64}
  {accountBalance : B256} {added : TxPool × Except PoolError B256}

theorem Sound.counted (h : pool.Sound) : pool.counted.Sound where
  keyed := h.keyed
  indexed := h.indexed
  numbered := fun b p hl => (h.numbered b p hl).trans (Nat.le_succ _)
  distinct := h.distinct

theorem Bounded.counted (h : pool.Bounded) : pool.counted.Bounded := ⟨h.total, h.perSender⟩

/-- What is held after the removal of a replaced transaction was held before. -/
theorem held_of_held_remove {existing b : B256} {p : PooledTx}
    (h : (pool.counted.remove existing).byHash.lookup b = some p) :
    pool.byHash.lookup b = some p := by
  have hcounted : pool.counted.byHash.lookup b = some p := lookup_of_lookup_remove h
  exact hcounted

theorem notMem_remove {existing b : B256} (h : b ∉ pool.byHash) :
    b ∉ (pool.counted.remove existing).byHash := by
  intro hmem
  obtain ⟨p, hp⟩ := Maps.mem_iff_exists_lookup.mp hmem
  exact h (Maps.mem_of_lookup (held_of_held_remove hp))

/-- The replaced transaction is held, with the sender and the nonce of the new one. -/
theorem Sound.replaced_held (h : pool.Sound) {existing : B256}
    (hreplaced : pool.replaced tx = some existing) : ∃ p, pool.byHash.lookup existing = some p ∧
      p.sender = tx.tx.signer ∧ p.nonce = tx.tx.nonce :=
  (h.indexed.filed _ _ _).mp hreplaced

/-- The nonce of the new transaction is free once the replaced one has been removed. -/
theorem Sound.free_of_replaced (h : pool.Sound) {existing : B256}
    (hreplaced : pool.replaced tx = some existing) :
    (Index.slots (pool.counted.remove existing).bySender tx.tx.signer).lookup tx.tx.nonce
      = none := by
  obtain ⟨p, hp, hsender, hnonce⟩ := h.replaced_held hreplaced
  have hheld : pool.counted.byHash.lookup existing = some p := hp
  rw [slots_remove hheld, if_pos hsender.symm, hnonce, Finmap.lookup_erase]

theorem Sound.queued_of_replaced (h : pool.Sound) {existing : B256}
    (hreplaced : pool.replaced tx = some existing) :
    (pool.counted.remove existing).queued tx.tx.signer + 1 = pool.queued tx.tx.signer := by
  obtain ⟨p, hp, hsender, hnonce⟩ := h.replaced_held hreplaced
  have hheld : pool.counted.byHash.lookup existing = some p := hp
  unfold queued
  rw [slots_remove hheld, if_pos hsender.symm, hsender, hnonce]
  exact Maps.card_keys_erase (Maps.mem_of_lookup hreplaced)

/-- The pool with the new transaction in place of the replaced one. -/
theorem Sound.filed_replaced (h : pool.Sound) {existing : B256}
    (hnew : tx.tx.hash ∉ pool.byHash) (hreplaced : pool.replaced tx = some existing) :
    ((pool.counted.remove existing).filed (pool.arrival tx)).Sound := by
  refine (h.counted.remove existing).filed (notMem_remove hnew) (h.free_of_replaced hreplaced)
    ?_ ?_
  · rw [sequence_remove]
    exact le_rfl
  · exact fun b p hl => Nat.lt_succ_of_le (h.numbered b p (held_of_held_remove hl))

/-- A replacement leaves as many transactions as there were. -/
theorem Sound.card_filed_replaced (h : pool.Sound) {existing : B256}
    (hnew : tx.tx.hash ∉ pool.byHash) (hreplaced : pool.replaced tx = some existing) :
    ((pool.counted.remove existing).filed (pool.arrival tx)).byHash.keys.card
      = pool.byHash.keys.card := by
  obtain ⟨p, hp, -⟩ := h.replaced_held hreplaced
  have hheld : pool.counted.byHash.lookup existing = some p := hp
  calc ((pool.counted.remove existing).filed (pool.arrival tx)).byHash.keys.card
      = (pool.counted.remove existing).byHash.keys.card + 1 :=
        Maps.card_keys_insert _ (notMem_remove hnew)
    _ = pool.byHash.keys.card := by
      rw [remove_of_held hheld]
      exact Maps.card_keys_erase (Maps.mem_of_lookup hp)

/-- The pool with one transaction more. -/
theorem Sound.filed_joined (h : pool.Sound) (hnew : tx.tx.hash ∉ pool.byHash)
    (hfree : pool.replaced tx = none) : (pool.counted.filed (pool.arrival tx)).Sound :=
  h.counted.filed hnew hfree le_rfl fun b p hl => Nat.lt_succ_of_le (h.numbered b p hl)

theorem not_free_of_replaced {existing : B256} (hreplaced : pool.replaced tx = some existing) :
    pool.replaced tx ≠ none := by
  rw [hreplaced]
  exact Option.some_ne_none existing

theorem AddOutcome.sound
    (houtcome : AddOutcome pool tx baseFee accountNonce accountBalance added) (h : pool.Sound) :
    added.1.Sound := by
  cases houtcome with
  | refused => exact h
  | underpriced => exact h.counted
  | joined hpasses hfree => exact (h.filed_joined hpasses.unknown hfree).hold baseFee
  | replaced existing hpasses hreplaced =>
    exact (h.filed_replaced hpasses.unknown hreplaced).hold baseFee

theorem AddOutcome.bounded
    (houtcome : AddOutcome pool tx baseFee accountNonce accountBalance added) (h : pool.Bounded)
    (hsound : pool.Sound) : added.1.Bounded := by
  cases houtcome with
  | refused => exact h
  | underpriced => exact h.counted
  | joined hpasses hfree hroom =>
    exact h.counted.hold (hsound.filed_joined hpasses.unknown hfree) hpasses.unknown hfree hroom
      baseFee
  | replaced existing hpasses hreplaced =>
    refine (h.counted.remove existing).hold (hsound.filed_replaced hpasses.unknown hreplaced)
      (notMem_remove hpasses.unknown) (hsound.free_of_replaced hreplaced) ?_ baseFee
    -- one slot was given back
    rw [config_remove]
    exact Nat.lt_of_succ_le ((hsound.queued_of_replaced hreplaced).le.trans (h.perSender _))

theorem config_hold (pooled : PooledTx) (baseFee : ℕ) :
    (pool.hold pooled baseFee).config = pool.config := by
  rw [hold_eq]
  split
  · exact config_evictWorst baseFee
  · rfl

theorem AddOutcome.config_eq
    (houtcome : AddOutcome pool tx baseFee accountNonce accountBalance added) :
    added.1.config = pool.config := by
  cases houtcome with
  | refused => rfl
  | underpriced => rfl
  | joined => exact config_hold _ baseFee
  | replaced existing => exact (config_hold _ baseFee).trans (config_remove existing)

/-- A refused admission changes neither index. -/
theorem AddOutcome.of_error
    (houtcome : AddOutcome pool tx baseFee accountNonce accountBalance added) {e : PoolError}
    (h : added.2 = .error e) :
    added.1.byHash = pool.byHash ∧ added.1.bySender = pool.bySender := by
  cases houtcome with
  | refused => exact ⟨rfl, rfl⟩
  | underpriced => exact ⟨rfl, rfl⟩
  | joined => cases h
  | replaced => cases h

/-- **What a replacement leaves**: no eviction follows it, so that the new transaction is held in
place of the old one and nothing else changes. -/
theorem AddOutcome.of_replaced
    (houtcome : AddOutcome pool tx baseFee accountNonce accountBalance added) (h : pool.Sound)
    (hbounded : pool.Bounded) {existing hash : B256}
    (hreplaced : pool.replaced tx = some existing) (hok : added.2 = .ok hash) :
    added.1 = (pool.counted.remove existing).filed (pool.arrival tx) := by
  cases houtcome with
  | refused => cases hok
  | underpriced => cases hok
  | joined hpasses hfree => exact absurd hfree (not_free_of_replaced hreplaced)
  | replaced existing' hpasses hreplaced' =>
    obtain rfl := Option.some.inj (hreplaced'.symm.trans hreplaced)
    -- the pool is not larger than it was, hence not over its limit
    refine hold_of_room ?_ baseFee
    rw [h.card_filed_replaced hpasses.unknown hreplaced, config_remove]
    exact hbounded.total

/-- What a replacement does to the transactions that were held. -/
theorem Sound.lookup_add_replaced (h : pool.Sound) (hbounded : pool.Bounded) {existing : B256}
    (hreplaced : pool.replaced tx = some existing) {hash : B256}
    (hok : (pool.add tx baseFee accountNonce accountBalance).2 = .ok hash) {b : B256}
    {p : PooledTx} (hb : pool.byHash.lookup b = some p) :
    (pool.add tx baseFee accountNonce accountBalance).1.byHash.lookup b
      = if b = existing then none else some p := by
  have hne : b ≠ tx.tx.hash := by
    rintro rfl
    -- a known transaction is refused
    have hknown : pool.add tx baseFee accountNonce accountBalance
        = (pool, .error (.alreadyKnown tx.tx.hash)) := if_pos (Maps.mem_of_lookup hb)
    rw [hknown] at hok
    cases hok
  obtain ⟨q, hq, -⟩ := h.replaced_held hreplaced
  have hheld : pool.counted.byHash.lookup existing = some q := hq
  have houtcome : AddOutcome pool tx baseFee accountNonce accountBalance _ := add_outcome
  rw [houtcome.of_replaced h hbounded hreplaced hok, remove_of_held hheld]
  calc ((pool.byHash.erase existing).insert tx.tx.hash (pool.arrival tx)).lookup b
      = (pool.byHash.erase existing).lookup b := Finmap.lookup_insert_of_ne _ hne
    _ = if b = existing then none else some p := by rw [Maps.lookup_erase, hb]

end Admission

/-! ### Every run -/

section Reached

/-- The pool after a sequence of calls. -/
def reached (config : PoolConfig) (calls : List PoolCall) : TxPool :=
  Runs.after step (new config) calls

theorem sound_new (config : PoolConfig) : (new config).Sound where
  keyed := keyed_new config
  indexed := Index.Indexes.empty
  numbered := fun _ _ h => nomatch h
  distinct := fun _ _ _ _ h => nomatch h

theorem bounded_new (config : PoolConfig) : (new config).Bounded :=
  ⟨Nat.zero_le _, fun _ => Nat.zero_le _⟩

/-- **What every call keeps.** -/
theorem step_keeps (config : PoolConfig) (pool : TxPool) (call : PoolCall)
    (h : pool.Sound ∧ pool.Bounded ∧ pool.config = config) :
    (pool.step call).Sound ∧ (pool.step call).Bounded ∧ (pool.step call).config = config := by
  obtain ⟨hsound, hbounded, hconfig⟩ := h
  cases call with
  | add tx baseFee accountNonce accountBalance =>
    have houtcome : AddOutcome pool tx baseFee accountNonce accountBalance _ := add_outcome
    exact ⟨houtcome.sound hsound, houtcome.bounded hbounded hsound,
      houtcome.config_eq.trans hconfig⟩
  | remove hash => exact ⟨hsound.remove hash, hbounded.remove hash, (config_remove hash).trans hconfig⟩
  -- `prune` removes one after the other
  | prune accountNonces =>
    refine foldl_remove_induction
      (P := fun p => p.Sound ∧ p.Bounded ∧ p.config = config) ?_ _ ⟨hsound, hbounded, hconfig⟩
    rintro p b ⟨hs, hb, hc⟩
    exact ⟨hs.remove b, hb.remove b, (config_remove b).trans hc⟩

theorem reached_keeps (config : PoolConfig) (calls : List PoolCall) :
    (reached config calls).Sound ∧ (reached config calls).Bounded ∧
      (reached config calls).config = config :=
  (Runs.throughout_of_step (step_keeps config)
    ⟨sound_new config, bounded_new config, rfl⟩).last

theorem sound_reached (config : PoolConfig) (calls : List PoolCall) :
    (reached config calls).Sound := (reached_keeps config calls).1

/-- **The two indexes of the pool agree** after any calls, no sender is kept without a
transaction, and both limits hold. A refused admission changes neither index, and one that
replaces a transaction removes the transaction of the same sender and nonce and no other. -/
theorem reached_indexed (config : PoolConfig) (calls : List PoolCall) :
    (∀ sender nonce hash,
      ((reached config calls).bySender.lookup sender).bind (·.lookup nonce) = some hash ↔
        ∃ p, (reached config calls).byHash.lookup hash = some p ∧ p.sender = sender ∧
          p.nonce = nonce) ∧
    (∀ sender nonces, (reached config calls).bySender.lookup sender = some nonces → nonces ≠ ∅) ∧
    (reached config calls).byHash.keys.card ≤ config.maxTransactions ∧
    (∀ sender, ((reached config calls).heldFrom sender).card ≤ config.maxPerSender) ∧
    ∀ tx baseFee accountNonce accountBalance,
      (∀ e, ((reached config calls).add tx baseFee accountNonce accountBalance).2 = .error e →
        ((reached config calls).add tx baseFee accountNonce accountBalance).1.byHash
            = (reached config calls).byHash ∧
          ((reached config calls).add tx baseFee accountNonce accountBalance).1.bySender
            = (reached config calls).bySender) ∧
      ∀ existing hash,
        ((reached config calls).bySender.lookup tx.tx.signer).bind (·.lookup tx.tx.nonce)
          = some existing →
        ((reached config calls).add tx baseFee accountNonce accountBalance).2 = .ok hash →
        ∀ b p, (reached config calls).byHash.lookup b = some p →
          ((reached config calls).add tx baseFee accountNonce accountBalance).1.byHash.lookup b
            = if b = existing then none else some p := by
  obtain ⟨hsound, hbounded, hconfig⟩ := reached_keeps config calls
  refine ⟨?_, hsound.indexed.inhabited, ?_, ?_, ?_⟩
  · intro sender nonce hash
    rw [← Index.lookup_slots]
    exact hsound.indexed.filed sender nonce hash
  · exact hbounded.total.trans (congrArg PoolConfig.maxTransactions hconfig).le
  · -- the slots of a sender are its transactions
    intro sender
    have hcard : ((reached config calls).heldFrom sender).card
        = (reached config calls).queued sender := (hsound.indexed.card_slots sender).symm
    rw [hcard]
    exact (hbounded.perSender sender).trans (congrArg PoolConfig.maxPerSender hconfig).le
  · intro tx baseFee accountNonce accountBalance
    have houtcome : AddOutcome (reached config calls) tx baseFee accountNonce accountBalance _ :=
      add_outcome
    refine ⟨fun _ => houtcome.of_error, ?_⟩
    intro existing hash hexisting hok b p hb
    rw [← Index.lookup_slots] at hexisting
    exact hsound.lookup_add_replaced hbounded hexisting hok hb

end Reached

end TxPool

end Chainname
