import Mathlib.Data.Prod.Lex
import Mathlib.Order.OrderDual
import Chainname.Library.GreedyMerge
import Chainname.Rpc.PoolIndex

/-!
# Who is evicted

A pool over its limit evicts the transaction of the lowest effective tip, the newest of them if
there are several (`Sound.evicted_iff`). The eviction comes after the new transaction has been
filed, so that it can be the new transaction itself that goes: an admission that returns `Ok`
admits nothing when the pool is full and no held transaction pays less (`admission_iff`).
-/

namespace Chainname

namespace TxPool

/-- Evictions go by tip, and among equal tips by the latest arrival. -/
def evictionKey (baseFee : ℕ) (pooled : PooledTx) : ℕ ×ₗ ℕᵒᵈ :=
  toLex (pooled.effectiveTip baseFee, OrderDual.toDual pooled.sequence)

theorem evictionKey_le {baseFee : ℕ} {a b : PooledTx} :
    evictionKey baseFee a ≤ evictionKey baseFee b ↔
      a.effectiveTip baseFee < b.effectiveTip baseFee ∨
        a.effectiveTip baseFee = b.effectiveTip baseFee ∧ b.sequence ≤ a.sequence :=
  Prod.Lex.toLex_le_toLex

theorem evictionKey_lt {baseFee : ℕ} {a b : PooledTx} :
    evictionKey baseFee a < evictionKey baseFee b ↔
      a.effectiveTip baseFee < b.effectiveTip baseFee ∨
        a.effectiveTip baseFee = b.effectiveTip baseFee ∧ b.sequence < a.sequence :=
  Prod.Lex.toLex_lt_toLex

theorem sequence_eq_of_key_eq {baseFee : ℕ} {a b : PooledTx}
    (h : evictionKey baseFee a = evictionKey baseFee b) : a.sequence = b.sequence := by
  have hle := evictionKey_le.mp h.le
  have hge := evictionKey_le.mp h.ge
  omega

theorem worse_eq_ite (baseFee : ℕ) : worse baseFee = fun a b =>
    if evictionKey baseFee b < evictionKey baseFee a then b else a := by
  funext a b
  unfold worse
  simp only [evictionKey_lt]

variable {pool : TxPool}

/-- **Who is evicted**: the transaction of least key. -/
theorem Sound.evicted_iff (h : pool.Sound) {b : B256} {p : PooledTx}
    (hb : pool.byHash.lookup b = some p) (baseFee : ℕ) :
    b ∉ (pool.evictWorst baseFee).byHash ↔
      ∀ c q, pool.byHash.lookup c = some q → evictionKey baseFee p ≤ evictionKey baseFee q := by
  obtain ⟨hvalues, -⟩ | ⟨first, rest, hvalues, heq⟩ := pool.evictWorst_cases baseFee
  · have hmem := mem_values.mpr ⟨b, hb⟩
    rw [hvalues] at hmem
    exact absurd hmem List.not_mem_nil
  -- the scan for the victim is the search for a least key
  rw [worse_eq_ite] at heq
  have hleast : ∀ c q, pool.byHash.lookup c = some q →
      evictionKey baseFee (Greedy.least (evictionKey baseFee) first rest)
        ≤ evictionKey baseFee q := by
    intro c q hq
    refine Greedy.key_least_le (evictionKey baseFee) first rest q ?_
    rw [← hvalues]
    exact mem_values.mpr ⟨c, hq⟩
  have hvictim := Greedy.least_mem (evictionKey baseFee) first rest
  rw [← hvalues] at hvictim
  obtain ⟨v, hv⟩ := mem_values.mp hvictim
  unfold Greedy.least at hleast hv hvictim
  rw [heq, h.keyed v _ hv]
  -- the removal goes by the hash of the victim, which is the key it is held under
  have hgone : b ∉ (pool.remove v).byHash ↔ b = v := by
    rw [remove_of_held hv]
    refine ⟨?_, ?_⟩
    · intro hnot
      by_contra hne
      exact hnot (Finmap.mem_erase.mpr ⟨hne, Maps.mem_of_lookup hb⟩)
    · rintro rfl hmem
      exact (Finmap.mem_erase.mp hmem).1 rfl
  rw [hgone]
  refine ⟨?_, ?_⟩
  · rintro rfl
    obtain rfl := Option.some.inj (hb.symm.trans hv)
    exact hleast
  · intro hle
    -- two transactions of least key have arrived at once, so they are one
    have hkeys := le_antisymm (hle v _ hv) (hleast b p hb)
    exact h.distinct b v _ _ hb hv (sequence_eq_of_key_eq hkeys)

/-- What is not evicted stays as it was. -/
theorem lookup_evictWorst {b : B256} {p : PooledTx} {baseFee : ℕ} :
    (pool.evictWorst baseFee).byHash.lookup b = some p ↔
      pool.byHash.lookup b = some p ∧ b ∈ (pool.evictWorst baseFee).byHash := by
  have hsub : ∀ {q}, (pool.evictWorst baseFee).byHash.lookup b = some q →
      pool.byHash.lookup b = some q := fun {q} => by
    refine evictWorst_induction
      (P := fun pool' => pool'.byHash.lookup b = some q → pool.byHash.lookup b = some q)
      (fun c => lookup_of_lookup_remove) id baseFee
  refine ⟨?_, ?_⟩
  · exact fun hl => ⟨hsub hl, Maps.mem_of_lookup hl⟩
  · rintro ⟨hl, hmem⟩
    obtain ⟨q, hq⟩ := Maps.mem_iff_exists_lookup.mp hmem
    rw [hq, ← hsub hq, hl]

/-! ### Admission -/

section Admission

variable {tx : RecoveredTx} {baseFee : ℕ}

/-- The pool is full, and no held transaction pays less than the new one. -/
def Outbid (pool : TxPool) (tx : RecoveredTx) (baseFee : ℕ) : Prop :=
  pool.config.maxTransactions ≤ pool.byHash.keys.card ∧
    ∀ b p, pool.byHash.lookup b = some p →
      (pool.arrival tx).effectiveTip baseFee ≤ p.effectiveTip baseFee

/-- An admission that returns `Ok` admits, and a transaction that cannot be kept in a full pool
is refused, the pool staying as it is. -/
def AdmissionMeansAdmission (pool : TxPool) (tx : RecoveredTx) (baseFee : ℕ)
    (accountNonce : UInt64) (accountBalance : B256) : Prop :=
  (∀ hash, (pool.add tx baseFee accountNonce accountBalance).2 = .ok hash →
    hash ∈ (pool.add tx baseFee accountNonce accountBalance).1.byHash) ∧
  (pool.replaced tx = none → pool.Outbid tx baseFee →
    ∃ e, pool.add tx baseFee accountNonce accountBalance = (pool, .error e))

theorem mem_filed (base : TxPool) (pooled : PooledTx) :
    (base.filed pooled).byHash.lookup pooled.hash = some pooled :=
  Finmap.lookup_insert base.byHash

/-- The new transaction is the one to evict exactly when all others pay as much: it is the
newest. -/
theorem Sound.arrival_least_iff (h : pool.Sound) :
    (∀ c q, (pool.counted.filed (pool.arrival tx)).byHash.lookup c = some q →
        evictionKey baseFee (pool.arrival tx) ≤ evictionKey baseFee q) ↔
      ∀ c q, pool.byHash.lookup c = some q → c ≠ tx.tx.hash →
        (pool.arrival tx).effectiveTip baseFee ≤ q.effectiveTip baseFee := by
  have hlookup : ∀ c, (pool.counted.filed (pool.arrival tx)).byHash.lookup c
      = if c = tx.tx.hash then some (pool.arrival tx) else pool.byHash.lookup c :=
    fun c => Maps.lookup_insert pool.byHash _ _ _
  refine ⟨?_, ?_⟩
  · intro hleast c q hq hne
    -- whichever way the keys compare, the tips do
    have hkey := hleast c q (by rw [hlookup, if_neg hne, hq])
    obtain hlt | ⟨heq, -⟩ := evictionKey_le.mp hkey
    · exact hlt.le
    · exact heq.le
  · intro htips c q hq
    rw [hlookup] at hq
    split at hq
    · rw [← Option.some.inj hq]
    · next hne =>
      -- an older transaction goes first only if it pays less
      have holder : q.sequence ≤ (pool.arrival tx).sequence :=
        (h.numbered c q hq).trans (Nat.le_succ _)
      exact evictionKey_le.mpr ((htips c q hq hne).lt_or_eq.imp_right fun heq => ⟨heq, holder⟩)

/-- **When a new transaction is evicted at once.** -/
theorem Sound.joined_notMem_iff (h : pool.Sound) (hnew : tx.tx.hash ∉ pool.byHash)
    (hfree : pool.replaced tx = none) :
    tx.tx.hash ∉ (pool.counted.hold (pool.arrival tx) baseFee).byHash ↔
      pool.Outbid tx baseFee := by
  -- the arrival is the one entry more
  have hcard : (pool.counted.filed (pool.arrival tx)).byHash.keys.card
      = pool.byHash.keys.card + 1 := Maps.card_keys_insert _ hnew
  have hheld : (pool.counted.filed (pool.arrival tx)).byHash.lookup tx.tx.hash
      = some (pool.arrival tx) := mem_filed pool.counted (pool.arrival tx)
  have hconfig : pool.counted.config = pool.config := rfl
  rw [hold_eq, hcard, hconfig]
  split
  · next hfull =>
    -- the pool is full, so one entry goes: is it the new one?
    rw [(h.filed_joined hnew hfree).evicted_iff hheld, h.arrival_least_iff]
    refine ⟨?_, ?_⟩
    · intro htips
      refine ⟨Nat.le_of_lt_succ hfull, fun b p hb => htips b p hb ?_⟩
      rintro rfl
      exact hnew (Maps.mem_of_lookup hb)
    · exact fun houtbid c q hq _ => houtbid.2 c q hq
  · -- there is room, and nothing goes
    next hroom =>
    refine iff_of_false (fun hnot => hnot (Maps.mem_of_lookup hheld)) fun houtbid => ?_
    exact hroom (Nat.lt_succ_of_le houtbid.1)

/-- **When admission means admission**: always but when a transaction passes every check, replaces
none, and the pool is full of transactions that pay no less. -/
theorem admission_iff (config : PoolConfig) (calls : List PoolCall) (tx : RecoveredTx)
    (baseFee : ℕ) (accountNonce : UInt64) (accountBalance : B256) :
    (reached config calls).AdmissionMeansAdmission tx baseFee accountNonce accountBalance ↔
      ¬ ((reached config calls).Passes tx accountNonce accountBalance ∧
        (reached config calls).replaced tx = none ∧
        (reached config calls).queued tx.tx.signer < config.maxPerSender ∧
        (reached config calls).Outbid tx baseFee) := by
  obtain ⟨hsound, hbounded, hconfig⟩ := reached_keeps config calls
  generalize reached config calls = pool at hsound hbounded hconfig
  rw [← hconfig]
  unfold AdmissionMeansAdmission
  have houtcome : AddOutcome pool tx baseFee accountNonce accountBalance _ := add_outcome
  revert houtcome
  generalize pool.add tx baseFee accountNonce accountBalance = added
  intro houtcome
  cases houtcome with
  | refused e hcheck =>
    refine iff_of_true ⟨fun _ h => (nomatch h), fun _ _ => ⟨e, rfl⟩⟩ ?_
    -- a refusal after all checks is for want of room in the queue of the sender
    rintro ⟨hpasses, -, hroom, -⟩
    exact absurd hroom (Nat.not_lt.mpr (hcheck hpasses).2)
  | underpriced existing existingTip hpasses hreplaced =>
    have hnotFree := not_free_of_replaced hreplaced
    refine iff_of_true ⟨fun _ h => (nomatch h), fun hfree _ => absurd hfree hnotFree⟩ ?_
    exact fun hall => hnotFree hall.2.1
  | joined hpasses hfree hroom =>
    have hevicted : tx.tx.hash ∉ (pool.counted.hold (pool.arrival tx) baseFee).byHash ↔
        pool.Outbid tx baseFee := hsound.joined_notMem_iff hpasses.unknown hfree
    refine ⟨?_, ?_⟩
    · rintro ⟨hadmits, -⟩ ⟨-, -, -, houtbid⟩
      exact hevicted.mpr houtbid (hadmits tx.tx.hash rfl)
    · intro hnot
      have hkept : ¬ pool.Outbid tx baseFee := fun houtbid => hnot ⟨hpasses, hfree, hroom, houtbid⟩
      refine ⟨?_, fun _ houtbid => absurd houtbid hkept⟩
      rintro hash ⟨rfl⟩
      exact not_not.mp (mt hevicted.mp hkept)
  | replaced existing hpasses hreplaced hlt =>
    have hnotFree := not_free_of_replaced hreplaced
    have hreplaces : AddOutcome pool tx baseFee accountNonce accountBalance _ :=
      .replaced existing hpasses hreplaced hlt
    refine iff_of_true ⟨?_, fun hfree _ => absurd hfree hnotFree⟩ fun hall => hnotFree hall.2.1
    rintro hash ⟨rfl⟩
    rw [hreplaces.of_replaced hsound hbounded hreplaced rfl]
    exact Maps.mem_of_lookup (mem_filed _ (pool.arrival tx))

/-- A plain call of an account, under nonce zero. -/
def offer (hash : B256) (signer : Address) (maxFeePerGas : ℕ) (tip : Option ℕ) : RecoveredTx where
  tx :=
    { hash := hash
      signer := signer
      nonce := 0
      gasLimit := 21000
      maxFeePerGas := maxFeePerGas
      maxPriorityFeePerGas := tip
      kind := some 9
      value := 0
      input := []
      accessList := none }
  chainId := some 7717
  blob := false

/-- A pool for one transaction, which holds one that pays 5. -/
def fullPool : TxPool :=
  reached { PoolConfig.new 7717 30000000 with maxTransactions := 1 }
    [.add (offer 1 1 15 (some 5)) 10 0 1000000000]

/-- A transaction that pays 1 is admitted to it with `Ok`, and not held. -/
theorem admitted_and_evicted :
    ¬ fullPool.AdmissionMeansAdmission (offer 2 2 11 (some 1)) 10 0 1000000000 := by
  rintro ⟨hadmits, -⟩
  have hok : (fullPool.add (offer 2 2 11 (some 1)) 10 0 1000000000).2 = .ok 2 := by decide +kernel
  have hgone : 2 ∉ (fullPool.add (offer 2 2 11 (some 1)) 10 0 1000000000).1.byHash := by
    decide +kernel
  exact hgone (hadmits 2 hok)

end Admission

end TxPool

end Chainname
