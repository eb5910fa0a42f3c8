import Chainname.Rpc.Eviction

/-!
# What a miner is paid

Evictions and replacements compare effective tips. The effective tip of a transaction that names
no priority fee, one of the legacy or the EIP-2930 kind, is zero, while the beneficiary is
credited its whole gas price above the base fee (`payment`). Of a transaction that names one, tip
and payment are the same.

So the order of the tips goes against that of the payments where such a transaction is the newest
of those with no tip (`evictsFairly_iff`) or offers to replace another (`replacesFairly_iff`).
-/

namespace Chainname

namespace PooledTx

variable {pooled : PooledTx} {baseFee : ℕ}

/-- What the beneficiary is credited for a unit of gas: a transaction that names no priority fee
pays its whole gas price above the base fee. -/
def payment (pooled : PooledTx) (baseFee : ℕ) : ℕ :=
  if pooled.tx.tx.maxFeePerGas ≤ baseFee then 0
  else
    pooled.tx.tx.maxPriorityFeePerGas.elim (pooled.tx.tx.maxFeePerGas - baseFee) fun tip =>
      min tip (pooled.tx.tx.maxFeePerGas - baseFee)

theorem effectiveTip_of_none (h : pooled.tx.tx.maxPriorityFeePerGas = none) :
    pooled.effectiveTip baseFee = 0 := by
  unfold effectiveTip
  rw [h]
  split
  · rfl
  · exact Nat.zero_min _

theorem effectiveTip_of_some {tip : ℕ} (h : pooled.tx.tx.maxPriorityFeePerGas = some tip) :
    pooled.effectiveTip baseFee = pooled.payment baseFee := by
  unfold effectiveTip payment
  rw [h]
  rfl

/-- Nobody is paid less than the tip. -/
theorem effectiveTip_le_payment : pooled.effectiveTip baseFee ≤ pooled.payment baseFee := by
  cases h : pooled.tx.tx.maxPriorityFeePerGas with
  | none =>
    rw [effectiveTip_of_none h]
    exact Nat.zero_le _
  | some tip => rw [effectiveTip_of_some h]

end PooledTx

namespace TxPool

/-- An eviction removes no transaction that pays more than one it keeps. -/
def EvictsFairly (pool : TxPool) (baseFee : ℕ) : Prop :=
  ∀ b p, pool.byHash.lookup b = some p → b ∉ (pool.evictWorst baseFee).byHash →
    ∀ c q, (pool.evictWorst baseFee).byHash.lookup c = some q →
      p.payment baseFee ≤ q.payment baseFee

/-- An admission refuses no replacement as underpriced that pays more than what it replaces. -/
def ReplacesFairly (pool : TxPool) (tx : RecoveredTx) (baseFee : ℕ) (accountNonce : UInt64)
    (accountBalance : B256) : Prop :=
  ∀ existing p, pool.replaced tx = some existing → pool.byHash.lookup existing = some p →
    ∀ offered existingTip, (pool.add tx baseFee accountNonce accountBalance).2
        = .error (.replacementUnderpriced offered existingTip) →
      (pool.arrival tx).payment baseFee ≤ p.payment baseFee

/-- The newest of the transactions with no tip, if it names no priority fee, pays no more than any
other. -/
def NewestUntippedPaysLeast (pool : TxPool) (baseFee : ℕ) : Prop :=
  ∀ b p, pool.byHash.lookup b = some p → p.tx.tx.maxPriorityFeePerGas = none →
    (∀ c q, pool.byHash.lookup c = some q → p.sequence < q.sequence →
      0 < q.effectiveTip baseFee) →
    ∀ c q, pool.byHash.lookup c = some q → p.payment baseFee ≤ q.payment baseFee

variable {pool : TxPool}

/-- Without a priority fee, a transaction is evicted exactly if none with no tip is newer. -/
theorem Sound.untipped_evicted_iff (h : pool.Sound) {b : B256} {p : PooledTx} {baseFee : ℕ}
    (hb : pool.byHash.lookup b = some p) (hnone : p.tx.tx.maxPriorityFeePerGas = none) :
    b ∉ (pool.evictWorst baseFee).byHash ↔ ∀ c q, pool.byHash.lookup c = some q →
      p.sequence < q.sequence → 0 < q.effectiveTip baseFee := by
  have hzero : p.effectiveTip baseFee = 0 := PooledTx.effectiveTip_of_none hnone
  rw [h.evicted_iff hb]
  -- with no tip nothing is below the key but an older transaction with no tip
  refine forall_congr' fun c => forall_congr' fun q => forall_congr' fun _ => ?_
  rw [evictionKey_le, hzero]
  refine ⟨?_, ?_⟩
  · rintro (hlt | ⟨-, holder⟩) hnewer
    · exact hlt
    · exact absurd hnewer (Nat.not_lt.mpr holder)
  · intro hnewer
    by_cases hlt : p.sequence < q.sequence
    · exact Or.inl (hnewer hlt)
    · obtain hq | hq := Nat.eq_zero_or_pos (q.effectiveTip baseFee)
      · exact Or.inr ⟨hq.symm, Nat.not_lt.mp hlt⟩
      · exact Or.inl hq

/-- **When an eviction follows the payments.** -/
theorem Sound.evictsFairly_iff (h : pool.Sound) (baseFee : ℕ) :
    pool.EvictsFairly baseFee ↔ pool.NewestUntippedPaysLeast baseFee := by
  refine ⟨?_, ?_⟩
  · intro hfair b p hb hnone hnewest c q hq
    have hevicted := (h.untipped_evicted_iff hb hnone).mpr hnewest
    by_cases hc : c ∈ (pool.evictWorst baseFee).byHash
    · exact hfair b p hb hevicted c q (lookup_evictWorst.mpr ⟨hq, hc⟩)
    · -- only one transaction is evicted
      have hle := (h.evicted_iff hb baseFee).mp hevicted c q hq
      have hge := (h.evicted_iff hq baseFee).mp hc b p hb
      obtain rfl := h.distinct b c p q hb hq (sequence_eq_of_key_eq (hle.antisymm hge))
      rw [Option.some.inj (hb.symm.trans hq)]
  · intro hleast b p hb hevicted c q hq
    have hheld := (lookup_evictWorst.mp hq).1
    cases hp : p.tx.tx.maxPriorityFeePerGas with
    | none => exact hleast b p hb hp ((h.untipped_evicted_iff hb hp).mp hevicted) c q hheld
    | some tip =>
      -- the victim names a fee, so that its tip is its payment
      have hkey := (h.evicted_iff hb baseFee).mp hevicted c q hheld
      calc p.payment baseFee = p.effectiveTip baseFee := (PooledTx.effectiveTip_of_some hp).symm
        _ ≤ q.effectiveTip baseFee := (evictionKey_le.mp hkey).elim le_of_lt fun heq => heq.1.le
        _ ≤ q.payment baseFee := PooledTx.effectiveTip_le_payment

/-- **When a replacement follows the payments**: unless a transaction that passes the checks and
names no priority fee offers more than the one it would replace. -/
theorem replacesFairly_iff (pool : TxPool) (tx : RecoveredTx) (baseFee : ℕ)
    (accountNonce : UInt64) (accountBalance : B256) :
    pool.ReplacesFairly tx baseFee accountNonce accountBalance ↔
      (pool.Passes tx accountNonce accountBalance → tx.tx.maxPriorityFeePerGas = none →
        ∀ existing p, pool.replaced tx = some existing → pool.byHash.lookup existing = some p →
          (pool.arrival tx).payment baseFee ≤ p.payment baseFee) := by
  unfold ReplacesFairly
  have houtcome : AddOutcome pool tx baseFee accountNonce accountBalance _ := add_outcome
  revert houtcome
  generalize pool.add tx baseFee accountNonce accountBalance = added
  intro houtcome
  refine ⟨?_, ?_⟩
  · intro hfair hpasses hnone existing p hreplaced hp
    have hzero : (pool.arrival tx).effectiveTip baseFee = 0 := PooledTx.effectiveTip_of_none hnone
    cases houtcome with
    | refused e hcheck => exact absurd (hcheck hpasses).1 (not_free_of_replaced hreplaced)
    | underpriced existing' existingTip _ hreplaced' =>
      exact hfair existing p hreplaced hp _ existingTip rfl
    | joined _ hfree => exact absurd hfree (not_free_of_replaced hreplaced)
    | replaced existing' _ _ hlt =>
      rw [hzero] at hlt
      exact absurd hlt (Nat.not_lt_zero _)
  · intro hleast existing p hreplaced hp offered existingTip herror
    cases houtcome with
    | refused e _ hother => exact absurd (Except.error.inj herror) (hother offered existingTip)
    | underpriced existing' _ hpasses hreplaced' htip hle =>
      -- only an offer that names no fee can be worth more than its tip
      cases hnone : tx.tx.maxPriorityFeePerGas with
      | none => exact hleast hpasses hnone existing p hreplaced hp
      | some tip =>
        obtain rfl := Option.some.inj (hreplaced'.symm.trans hreplaced)
        have hpaid : (pool.arrival tx).effectiveTip baseFee = (pool.arrival tx).payment baseFee :=
          PooledTx.effectiveTip_of_some hnone
        rw [htip, hp] at hle
        exact hpaid.symm.le.trans (hle.trans PooledTx.effectiveTip_le_payment)
    | joined => cases herror
    | replaced => cases herror

/-- **Where evictions and replacements follow what a miner is paid**, in every pool that is
reached, in every pool that an admission evicts from, and for every offer. -/
theorem payment_order_iff (config : PoolConfig) (calls : List PoolCall) (baseFee : ℕ) :
    ((reached config calls).EvictsFairly baseFee ↔
      (reached config calls).NewestUntippedPaysLeast baseFee) ∧
    ∀ tx accountNonce accountBalance,
      ((reached config calls).Passes tx accountNonce accountBalance →
        (reached config calls).replaced tx = none →
        (((reached config calls).counted.filed ((reached config calls).arrival tx)).EvictsFairly
            baseFee ↔
          ((reached config calls).counted.filed
            ((reached config calls).arrival tx)).NewestUntippedPaysLeast baseFee)) ∧
      ((reached config calls).ReplacesFairly tx baseFee accountNonce accountBalance ↔
        ((reached config calls).Passes tx accountNonce accountBalance →
          tx.tx.maxPriorityFeePerGas = none →
          ∀ existing p, (reached config calls).replaced tx = some existing →
            (reached config calls).byHash.lookup existing = some p →
            ((reached config calls).arrival tx).payment baseFee ≤ p.payment baseFee)) := by
  have hsound := sound_reached config calls
  refine ⟨hsound.evictsFairly_iff baseFee, fun tx accountNonce accountBalance => ⟨?_, ?_⟩⟩
  · -- with no transaction to replace, the new one joins before the eviction
    intro hpasses hfree
    exact (hsound.filed_joined hpasses.unknown hfree).evictsFairly_iff baseFee
  · exact replacesFairly_iff _ tx baseFee accountNonce accountBalance

/-- A pool with a transaction of gas price 60 and one that tips 1. -/
def mixedPool : TxPool :=
  reached (.new 7717 30000000)
    [.add (offer 1 1 60 none) 10 0 1000000000, .add (offer 2 2 11 (some 1)) 10 0 1000000000]

/-- At a base fee of 10 the first pays 50 and is evicted before the second, which pays 1, and it
cannot be replaced by one that pays 60. -/
theorem priced_out :
    ¬ mixedPool.EvictsFairly 10 ∧
      ¬ mixedPool.ReplacesFairly (offer 3 1 70 none) 10 0 1000000000 := by
  refine ⟨?_, ?_⟩
  · intro hfair
    have hpaid := hfair 1 ⟨offer 1 1 60 none, 1⟩ (by decide +kernel) (by decide +kernel)
      2 ⟨offer 2 2 11 (some 1), 2⟩ (by decide +kernel)
    exact absurd hpaid (by decide)
  · intro hfair
    have hpaid := hfair 1 ⟨offer 1 1 60 none, 1⟩ (by decide +kernel) (by decide +kernel) 0 0
      (by decide +kernel)
    exact absurd hpaid (by decide)

end TxPool

end Chainname
