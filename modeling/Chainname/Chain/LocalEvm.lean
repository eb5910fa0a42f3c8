import Chainname.Chain.Rounds

/-!
# An EVM that depends on what it reads

What the argument for speculative rounds assumes of the EVM: a transaction is a run, whose
outcome depends only on the accounts it reads, followed by a reward, which raises the
balance of the beneficiary. The reward loads the beneficiary as well, so the beneficiary is
among the accounts loaded, but the run need not have read it. The code of an account and the
block hashes do not appear: an EVM that looks them up is one of these on the states that a
round goes through (`CodedEvm.settled`).

A beneficiary entry that `speculateOne` takes for a fee can then be taken out of the change
set: `committed_fee` says that committing such an entry is crediting the fee. That is the
one place where the flags of an entry matter.
-/

namespace Chainname

/-- The entry of a rewarded beneficiary: its entry after the run if the run loaded it, else
its account. -/
def rewardedEntry (account : Option AccountState) (fee : B256) :
    Option RevmAccount → RevmAccount
  | some entry =>
    { entry with
      touched := true
      info := { entry.info with balance := B256.saturatingAdd entry.info.balance fee } }
  | none =>
    { info := { infoOf account with
        balance := B256.saturatingAdd (infoOf account).balance fee }
      code := none
      storage := ∅
      touched := true
      created := false
      selfdestructed := false
      loadedAsNotExisting := account.isNone }

/-- A change set with the beneficiary rewarded. -/
def rewarded (s : WorldState) (miner : Address) (fee : B256) (changes : EvmState) : EvmState :=
  changes.insert miner (rewardedEntry (s.account miner) fee (changes.lookup miner))

theorem account_commit (s : WorldState) (changes : EvmState) (a : Address) :
    (s.commit changes).account a =
      (changes.lookup a).elim (s.account a) fun entry =>
        WorldState.committed entry (s.account a) :=
  WorldState.lookup_commit s changes a

theorem lookup_rewarded_self (s : WorldState) (miner : Address) (fee : B256)
    (changes : EvmState) : (rewarded s miner fee changes).lookup miner
      = some (rewardedEntry (s.account miner) fee (changes.lookup miner)) :=
  Finmap.lookup_insert _

theorem lookup_rewarded_of_ne {s : WorldState} {miner a : Address} {fee : B256}
    {changes : EvmState} (h : a ≠ miner) :
    (rewarded s miner fee changes).lookup a = changes.lookup a :=
  Finmap.lookup_insert_of_ne _ h

/-- An EVM whose runs depend only on the accounts they read. -/
class LocalEvm extends Evm where
  /-- A transaction without the reward. -/
  run : ChainParams → ChainBlockCtx → Address → ChainTx → WorldState →
    Option (ExecutionResult × EvmState)
  /-- The accounts a run loads. -/
  reads : ChainParams → ChainBlockCtx → Address → ChainTx → WorldState → Finset Address
  /-- The fee a beneficiary is paid. -/
  fee : ChainParams → ChainBlockCtx → ChainTx → ExecutionResult → B256
  transact_eq : ∀ params ctx miner tx s, transact params ctx miner tx s =
    (run params ctx miner tx s).map fun out =>
      (out.1, rewarded s miner (fee params ctx tx out.1) out.2)
  loaded_eq : ∀ params ctx miner tx s, run params ctx miner tx s ≠ none →
    loaded params ctx miner tx s = insert miner (reads params ctx miner tx s)
  /-- A run depends only on the accounts it reads. -/
  run_congr : ∀ params ctx miner tx s s',
    (∀ a ∈ reads params ctx miner tx s, s'.account a = s.account a) →
      run params ctx miner tx s' = run params ctx miner tx s
  /-- What a run changes it has loaded. -/
  mem_reads : ∀ {params ctx miner tx s result changes},
    run params ctx miner tx s = some (result, changes) →
      ∀ a ∈ changes, a ∈ reads params ctx miner tx s
  /-- The flag of an entry says whether the account existed. -/
  absent_iff : ∀ {params ctx miner tx s result changes a entry},
    run params ctx miner tx s = some (result, changes) → changes.lookup a = some entry →
      entry.loadedAsNotExisting = (s.account a).isNone
  /-- An account created or self-destructed by a transaction has a new nonce. -/
  nonce_ne : ∀ {params ctx miner tx s result changes a entry},
    run params ctx miner tx s = some (result, changes) → changes.lookup a = some entry →
      entry.created = true ∨ entry.selfdestructed = true →
        entry.info.nonce ≠ (infoOf (s.account a)).nonce

/-! ### Credits, address by address -/

/-- What one credit does to the account at `a`. -/
def creditAt (a : Address) (account : Option AccountState) (credit : Address × B256) :
    Option AccountState :=
  if credit.1 = a ∧ credit.2 ≠ 0 then
    some { account.getD .default with
      info := { infoOf account with
        balance := B256.saturatingAdd (infoOf account).balance credit.2 } }
  else account

theorem creditAt_of_ne {a : Address} {credit : Address × B256} (h : credit.1 ≠ a)
    (account : Option AccountState) : creditAt a account credit = account :=
  if_neg fun hcredit => h hcredit.1

theorem creditAt_zero {a : Address} {credit : Address × B256} (h : credit.2 = 0)
    (account : Option AccountState) : creditAt a account credit = account :=
  if_neg fun hcredit => hcredit.2 h

theorem creditAt_self {a : Address} {fee : B256} (h : fee ≠ 0) (account : Option AccountState) :
    creditAt a account (a, fee) =
      some { account.getD .default with
        info := { infoOf account with
          balance := B256.saturatingAdd (infoOf account).balance fee } } :=
  if_pos ⟨rfl, h⟩

theorem info_getD (account : Option AccountState) :
    (account.getD .default).info = infoOf account := by
  cases account with
  | none => rfl
  | some account => rfl

theorem account_creditOne (s : WorldState) (credit : Address × B256) (a : Address) :
    (creditOne s credit).account a = creditAt a (s.account a) credit := by
  unfold creditOne
  -- the source leaves a zero credit out, so an absent account is not created by it
  by_cases hzero : credit.2 = 0
  · rw [if_pos hzero, creditAt_zero hzero]
  rw [if_neg hzero]
  dsimp only
  show (s.insertAccount credit.1 _).accounts.lookup a = _
  rw [WorldState.lookup_insertAccount]
  by_cases ha : a = credit.1
  · rw [if_pos ha, ha, info_getD]
    exact (creditAt_self hzero _).symm
  · rw [if_neg ha, creditAt_of_ne (Ne.symm ha)]
    rfl

theorem account_foldl_creditOne (credits : List (Address × B256)) (s : WorldState) (a : Address) :
    (credits.foldl creditOne s).account a = credits.foldl (creditAt a) (s.account a) := by
  induction credits generalizing s with
  | nil => rfl
  | cons credit credits ih => rw [List.foldl_cons, List.foldl_cons, ih, account_creditOne]

/-- Credits that pay nothing at `a` leave it alone. -/
theorem foldl_creditAt_eq {credits : List (Address × B256)} {a : Address}
    (h : ∀ credit ∈ credits, credit.1 = a → credit.2 = 0) (account : Option AccountState) :
    credits.foldl (creditAt a) account = account := by
  induction credits generalizing account with
  | nil => rfl
  | cons credit credits ih =>
    have hone : creditAt a account credit = account := by
      by_cases ha : credit.1 = a
      · exact creditAt_zero (h credit List.mem_cons_self ha) account
      · exact creditAt_of_ne ha account
    rw [List.foldl_cons, hone, ih fun c hc => h c (List.mem_cons_of_mem credit hc)]

theorem B256.saturatingAdd_zero (a : B256) : B256.saturatingAdd a 0 = a := by
  refine Fin.ext ?_
  show min (a.val + 0) (2 ^ 256 - 1) = a.val
  have := a.isLt
  omega

/-- Two fees that look alike on a balance look alike on any larger one. -/
theorem B256.saturatingAdd_eq_of_le {balance balance' fee fee' : B256}
    (h : B256.saturatingAdd balance fee = B256.saturatingAdd balance fee')
    (hle : balance ≤ balance') :
    B256.saturatingAdd balance' fee = B256.saturatingAdd balance' fee' := by
  have hval : min (balance.val + fee.val) (2 ^ 256 - 1)
      = min (balance.val + fee'.val) (2 ^ 256 - 1) := congrArg Fin.val h
  refine Fin.ext ?_
  show min (balance'.val + fee.val) (2 ^ 256 - 1) = min (balance'.val + fee'.val) (2 ^ 256 - 1)
  have : balance.val ≤ balance'.val := hle
  omega

theorem B256.le_saturatingAdd (balance fee : B256) :
    balance ≤ B256.saturatingAdd balance fee := by
  show balance.val ≤ min (balance.val + fee.val) (2 ^ 256 - 1)
  have := balance.isLt
  omega

/-- Credits only raise a balance. -/
theorem balance_le_foldl_creditAt (credits : List (Address × B256)) (a : Address)
    (account : Option AccountState) :
    (infoOf account).balance ≤ (infoOf (credits.foldl (creditAt a) account)).balance := by
  induction credits generalizing account with
  | nil => exact le_rfl
  | cons credit credits ih =>
    refine le_trans ?_ (ih _)
    unfold creditAt
    split
    · exact B256.le_saturatingAdd _ _
    · exact le_rfl

/-! ### A fee entry is a credit -/

/-- **Committing a fee entry is crediting the fee.** The entry has no slots, keeps nonce and
code hash, raises the balance by the fee, and is neither created nor self-destructed. -/
theorem committed_fee {old : Option AccountState} {entry : RevmAccount} (a : Address) {fee : B256}
    (htouched : entry.touched = true) (hcreated : entry.created = false)
    (hdestructed : entry.selfdestructed = false) (hstorage : entry.storage = ∅)
    (habsent : entry.loadedAsNotExisting = old.isNone)
    (hinfo : entry.info
      = { infoOf old with balance := B256.saturatingAdd (infoOf old).balance fee }) :
    WorldState.committed entry old = creditAt a old (a, fee) := by
  have hwrite : WorldState.committed entry old
      = if entry.info.isEmpty && entry.loadedAsNotExisting then none
        else some { info := entry.info, storage := (old.getD .default).storage } := by
    unfold WorldState.committed
    rw [htouched, hcreated, hdestructed, hstorage]
    rfl
  rw [hwrite, habsent, hinfo]
  by_cases hzero : fee = 0
  · -- nothing is paid: the account stays as it was, absent or not
    rw [creditAt_zero hzero, hzero, B256.saturatingAdd_zero]
    cases old with
    | none => rfl
    | some account => simp [infoOf]
  · -- the account has a balance now, so it is not empty
    have hpos : B256.saturatingAdd (infoOf old).balance fee ≠ 0 := by
      intro h
      have hval : min ((infoOf old).balance.val + fee.val) (2 ^ 256 - 1) = 0 := congrArg Fin.val h
      refine hzero (Fin.ext ?_)
      show fee.val = 0
      omega
    rw [creditAt_self hzero, if_neg]
    simp [AccountInfo.isEmpty, hpos]

section Reward

variable [LocalEvm] {params : ChainParams} {ctx : ChainBlockCtx}

theorem transact_of_run {miner : Address} {tx : ChainTx} {s : WorldState}
    {result : ExecutionResult} {changes : EvmState}
    (hrun : LocalEvm.run params ctx miner tx s = some (result, changes)) :
    Evm.transact params ctx miner tx s
      = some (result, rewarded s miner (LocalEvm.fee params ctx tx result) changes) := by
  rw [LocalEvm.transact_eq, hrun]
  rfl

theorem transact_eq_none {miner : Address} {tx : ChainTx} {s : WorldState} :
    Evm.transact params ctx miner tx s = none ↔ LocalEvm.run params ctx miner tx s = none := by
  rw [LocalEvm.transact_eq, Option.map_eq_none_iff]

/-- **A fee entry in a later state.** The beneficiary's entry passed for a fee in `s`. In a
later state `S`, where the run is the same and the beneficiary's balance not smaller,
committing the entry is crediting that fee. -/
theorem committed_rewardedEntry {miner : Address} {tx : ChainTx} {s S : WorldState}
    {result : ExecutionResult} {changes : EvmState} {fee expected : B256}
    (hrun : LocalEvm.run params ctx miner tx s = some (result, changes))
    (hpure : purelyFee s miner (rewardedEntry (s.account miner) fee (changes.lookup miner))
      expected = true)
    (hloaded : miner ∈ changes → S.account miner = s.account miner)
    (hle : (infoOf (s.account miner)).balance ≤ (infoOf (S.account miner)).balance) :
    WorldState.committed (rewardedEntry (S.account miner) fee (changes.lookup miner))
      (S.account miner) = creditAt miner (S.account miner) (miner, expected) := by
  unfold purelyFee at hpure
  simp only [Bool.and_eq_true, decide_eq_true_eq] at hpure
  obtain ⟨⟨⟨hstorage, hnonce⟩, hcode⟩, hbalance⟩ := hpure
  cases hentry : changes.lookup miner with
  | some entry =>
    -- the run loaded the beneficiary, so its account is the one from before the round
    rw [hentry] at hstorage hnonce hcode hbalance
    have hsame := hloaded (Maps.mem_of_lookup hentry)
    have hnew : ¬ (entry.created = true ∨ entry.selfdestructed = true) := fun hflag =>
      LocalEvm.nonce_ne hrun hentry hflag hnonce
    rw [not_or, Bool.not_eq_true, Bool.not_eq_true] at hnew
    refine committed_fee miner rfl hnew.1 hnew.2 hstorage ?_ ?_
    · rw [hsame]
      show entry.loadedAsNotExisting = _
      exact LocalEvm.absent_iff hrun hentry
    · rw [hsame]
      show AccountInfo.mk _ entry.info.nonce entry.info.codeHash = _
      rw [AccountInfo.mk.injEq]
      exact ⟨hbalance, hnonce, hcode⟩
  | none =>
    rw [hentry] at hbalance
    refine committed_fee miner rfl rfl rfl rfl rfl ?_
    show AccountInfo.mk _ _ _ = _
    rw [AccountInfo.mk.injEq]
    exact ⟨B256.saturatingAdd_eq_of_le hbalance hle, rfl, rfl⟩

end Reward

end Chainname
