import Chainname.Chain.Bodies

/-!
# Speculative rounds

The canonical order is cut into rounds of transactions whose declared access sets are
pairwise disjoint. Every transaction of a round runs against the state before the round
(`speculateOne`), and `validate` compares what the transactions really loaded. A beneficiary
entry that moved by exactly the expected fee is taken out of the change set and applied
after the round.
-/

namespace Chainname

/-- What one speculatively executed transaction produced. -/
structure Speculation where
  /-- Index within the round. -/
  index : ℕ
  /-- The execution result, or `none` if the transaction was not executable. -/
  result : Option ExecutionResult
  /-- The state diff to apply, with the beneficiary's fee credit removed. -/
  diff : EvmState
  /-- Accounts read during execution. -/
  reads : Finset Address
  /-- Accounts written, excluding a beneficiary entry that was purely a fee. -/
  writes : Finset Address
  /-- Priority fee credited to the beneficiary, applied separately. -/
  feeCredit : B256
  /-- The beneficiary's account was touched beyond the fee credit. -/
  touchedBeneficiary : Bool
  deriving DecidableEq

/-- Why a round could not be committed in parallel. -/
inductive RoundConflict where
  /-- Two transactions in the round touched the same account. -/
  | overlap (earlier later : ℕ) (account : Address)
  /-- A transaction touched the beneficiary beyond crediting it a fee. -/
  | beneficiaryTouched (index : ℕ)
  deriving DecidableEq

/-- The loop of `partition_rounds`: finished rounds, the current one, the keys it touched. -/
def partitionFrom (access : List TxAccessSet) :
    List ℕ → List (List ℕ) → List ℕ → Finset Address → List (List ℕ)
  | [], rounds, current, _ => if current = [] then rounds else rounds ++ [current]
  | index :: order, rounds, current, touched =>
    let keys := ((access[index]?).elim [] TxAccessSet.keys)
    -- a clash closes the round, and the transaction opens the next one with its own keys
    if keys.any (· ∈ touched) && !current.isEmpty then
      partitionFrom access order (rounds ++ [current]) [index] keys.toFinset
    else partitionFrom access order rounds (current ++ [index]) (touched ∪ keys.toFinset)

/-- Splits a canonical order into rounds. -/
def partitionRounds (order : List ℕ) (access : List TxAccessSet) : List (List ℕ) :=
  partitionFrom access order [] [] ∅

/-- What the EVM is expected to credit the beneficiary: the gas used times the priority fee
payable at this base fee. -/
def expectedFee (tx : ChainTx) (baseFee gasUsed : ℕ) : B256 :=
  B256.saturatingMul (min (tx.maxFeePerGas - baseFee) (tx.maxPriorityFeePerGas.getD 0)) gasUsed

/-- The beneficiary's entry shows nothing but a balance raised by the expected fee. -/
def purelyFee (s : WorldState) (miner : Address) (entry : RevmAccount) (fee : B256) : Bool :=
  let before := (s.account miner).elim AccountInfo.default AccountState.info
  entry.storage = ∅ && entry.info.nonce = before.nonce && entry.info.codeHash = before.codeHash
    && entry.info.balance = B256.saturatingAdd before.balance fee

section Speculate

variable [Evm] (s : WorldState) (params : ChainParams) (ctx : ChainBlockCtx)

/-- Runs one transaction against the state before the round. -/
def speculateOne (index : ℕ) (miner : Address) (tx : ChainTx) : Speculation :=
  match Evm.transact params ctx miner tx s with
  | none => ⟨index, none, ∅, ∅, ∅, 0, false⟩
  | some (result, diff) =>
    let reads := Evm.loaded params ctx miner tx s
    let fee := expectedFee tx ctx.baseFeePerGas result.txGasUsed
    match diff.lookup miner with
    | none => ⟨index, some result, diff, reads, diff.keys, 0, false⟩
    | some entry =>
      -- a clean fee is taken out, anything else of the beneficiary's stays in the diff
      if purelyFee s miner entry fee then
        ⟨index, some result, diff.erase miner, reads, (diff.erase miner).keys, fee, false⟩
      else ⟨index, some result, diff, reads, diff.keys, 0, true⟩

/-- Executes a round speculatively, one speculation per transaction in round order. -/
def speculate (round : List (Address × ChainTx)) : List Speculation :=
  round.zipIdx.map fun item => speculateOne s params ctx item.2 item.1.1 item.1.2

end Speculate

/-- An account the earlier transaction wrote and the later one read or wrote. -/
def overlap (earlier later : Speculation) : Option Address :=
  (Maps.sortedKeys earlier.writes).find? fun account =>
    account ∈ later.reads || account ∈ later.writes

/-- The first conflict of a transaction with the earlier ones of its round. -/
def conflictWith (earliers : List Speculation) (later : Speculation) : Option RoundConflict :=
  if later.touchedBeneficiary then some (.beneficiaryTouched later.index)
  else earliers.findSome? fun earlier =>
    (overlap earlier later).map fun account => .overlap earlier.index later.index account

/-- The loop of `validate`. -/
def validateFrom : List Speculation → List Speculation → Option RoundConflict
  | _, [] => none
  | earliers, later :: rest =>
    match conflictWith earliers later with
    | some conflict => some conflict
    | none => validateFrom (earliers ++ [later]) rest

/-- The first conflict of a round, or `none` if the round may be committed. -/
def validate (speculations : List Speculation) : Option RoundConflict :=
  validateFrom [] speculations

/-! ### What the pieces say -/

/-- An entry with loaded slots never passes for a fee. -/
theorem purelyFee_of_storage (s : WorldState) (miner : Address) {entry : RevmAccount}
    (fee : B256) (h : entry.storage ≠ ∅) : purelyFee s miner entry fee = false := by
  unfold purelyFee
  rw [decide_eq_false h]
  rfl

/-- No round is lost and none is repeated: the rounds concatenate to the order. -/
theorem flatten_partitionFrom (access : List TxAccessSet) :
    ∀ (order : List ℕ) (rounds : List (List ℕ)) (current : List ℕ) (touched : Finset Address),
      (partitionFrom access order rounds current touched).flatten
        = rounds.flatten ++ current ++ order := by
  intro order
  -- the indices still to be placed; the open round is closed only at the end
  induction order with
  | nil =>
    intro rounds current touched
    unfold partitionFrom
    split
    · next h => simp [h]
    · simp
  | cons index order ih =>
    intro rounds current touched
    unfold partitionFrom
    dsimp only
    -- on a conflict the open round is closed and a new one starts at `index`
    split
    · rw [ih]; simp
    · rw [ih]; simp

theorem flatten_partitionRounds (order : List ℕ) (access : List TxAccessSet) :
    (partitionRounds order access).flatten = order :=
  flatten_partitionFrom access order [] [] ∅

/-- Two speculations of a round, the earlier first, that `validate` lets pass together. -/
structure Independent (earlier later : Speculation) : Prop where
  reads : Disjoint earlier.writes later.reads
  writes : Disjoint earlier.writes later.writes

theorem overlap_eq_none {earlier later : Speculation} :
    overlap earlier later = none ↔ Independent earlier later := by
  unfold overlap
  rw [List.find?_eq_none]
  -- `overlap` looks for a write of the earlier among the reads and writes of the later
  refine ⟨?_, ?_⟩
  · intro h
    have hno : ∀ a ∈ earlier.writes, a ∉ later.reads ∧ a ∉ later.writes := by
      intro a ha
      simpa using h a (Maps.mem_sortedKeys.mpr ha)
    exact ⟨Finset.disjoint_left.mpr fun a ha => (hno a ha).1,
      Finset.disjoint_left.mpr fun a ha => (hno a ha).2⟩
  · rintro ⟨hr, hw⟩ a ha
    have ha := Maps.mem_sortedKeys.mp ha
    simpa using ⟨Finset.disjoint_left.mp hr ha, Finset.disjoint_left.mp hw ha⟩

theorem conflictWith_eq_none {earliers : List Speculation} {later : Speculation} :
    conflictWith earliers later = none ↔
      later.touchedBeneficiary = false ∧ ∀ earlier ∈ earliers, Independent earlier later := by
  unfold conflictWith
  split
  · next h => simp [h]
  · next h =>
    rw [List.findSome?_eq_none_iff]
    simp only [Option.map_eq_none_iff, overlap_eq_none]
    exact ⟨fun hall => ⟨by simpa using h, hall⟩, fun hall => hall.2⟩

/-- **What an accepted round is.** No transaction touched its beneficiary beyond the fee, and
no earlier transaction wrote what a later one read or wrote. -/
theorem validate_eq_none {speculations : List Speculation} :
    validate speculations = none ↔
      (∀ spec ∈ speculations, spec.touchedBeneficiary = false) ∧
        speculations.Pairwise Independent := by
  -- the scan from any list of speculations already accepted
  have hfrom : ∀ (l earliers : List Speculation), validateFrom earliers l = none ↔
      (∀ spec ∈ l, spec.touchedBeneficiary = false) ∧ l.Pairwise Independent ∧
        ∀ earlier ∈ earliers, ∀ later ∈ l, Independent earlier later := by
    intro l
    induction l with
    | nil => intro earliers; simp [validateFrom]
    | cons later l ih =>
      intro earliers
      unfold validateFrom
      cases hc : conflictWith earliers later with
      -- a conflict at `later` breaks one of the pairs with those before it
      | some conflict =>
        have hno : ¬ (conflictWith earliers later = none) := by rw [hc]; simp
        rw [conflictWith_eq_none, not_and] at hno
        refine iff_of_false (by simp) ?_
        rintro ⟨ht, -, hind⟩
        exact hno (ht later List.mem_cons_self) fun e he => hind e he later List.mem_cons_self
      | none =>
        obtain ⟨ht, hind⟩ := conflictWith_eq_none.mp hc
        dsimp only
        rw [ih, List.pairwise_cons]
        simp only [List.mem_cons, List.mem_append, forall_eq_or_imp]
        -- `later` now counts among those before the rest
        refine ⟨?_, ?_⟩
        · rintro ⟨h₁, h₂, h₃⟩
          refine ⟨⟨ht, h₁⟩, ⟨fun b hb => h₃ later (Or.inr (Or.inl rfl)) b hb, h₂⟩, ?_⟩
          exact fun e he => ⟨hind e he, fun b hb => h₃ e (Or.inl he) b hb⟩
        · rintro ⟨⟨-, h₁⟩, ⟨h₂, h₃⟩, h₄⟩
          refine ⟨h₁, h₃, ?_⟩
          rintro e (he | rfl | he) b hb
          · exact (h₄ e he).2 b hb
          · exact h₂ b hb
          · exact absurd he List.not_mem_nil
  unfold validate
  rw [hfrom]
  simp

end Chainname
