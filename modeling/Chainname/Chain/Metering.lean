import Mathlib.Algebra.BigOperators.Intervals
import Chainname.Chain.Bookkeeping
import Chainname.Chain.Completeness

/-!
# What every recorded outcome satisfies

An executor records an outcome for every block that it executes, and erases it when the block is
undone. So a property of the outcomes that executing gives is one of all outcomes recorded, in
every state and in either mode, also after calls that fail (`AllResults.applyReorg`).

One such property is how receipts count gas (`Metered`): each carries the gas used up to its own
transaction, and the last the gas of the block. What two neighbours differ in is what one
transaction used, and these differences add up (`Meters.sum_gas`).
-/

namespace Chainname

/-- The receipts count the gas of the block: `gas i` has been used before the `i`-th transaction,
and nothing before the first. -/
structure Meters (outcome : ChainBlockOutcome) (gas : ℕ → ℕ) : Prop where
  zero : gas 0 = 0
  mono : Monotone gas
  receipt : ∀ i receipt, outcome.receipts[i]? = some receipt →
    receipt.cumulativeGasUsed = gas (i + 1)
  total : outcome.gasUsed = gas outcome.receipts.length
  length : outcome.receipts.length = outcome.transactionHashes.length

/-- There is a meter. -/
def Metered (outcome : ChainBlockOutcome) : Prop := ∃ gas, Meters outcome gas

/-- More results use more gas. -/
theorem runningGas_take_mono (results : List ExecutionResult) :
    Monotone fun i => runningGas (results.take i) := by
  intro i j hij
  -- the shorter prefix begins the longer one
  have hprefix : results.take i ++ (results.take j).drop i = results.take j := by
    conv_rhs => rw [← List.take_append_drop i (results.take j), List.take_take, Nat.min_eq_left hij]
  dsimp only
  rw [← hprefix, runningGas_append]
  unfold U64.saturatingAdd
  have hfits : runningGas (results.take i) ≤ 2 ^ 64 - 1 := Nat.min_le_right _ _
  omega

/-- **The differences add up** to what has been used in the block. -/
theorem Meters.sum_gas {outcome : ChainBlockOutcome} {gas : ℕ → ℕ} (h : Meters outcome gas) :
    ((List.range outcome.receipts.length).map fun i => gas (i + 1) - gas i).sum
      = outcome.gasUsed := by
  have htelescope := Finset.sum_range_tsub h.mono outcome.receipts.length
  rw [h.zero, Nat.sub_zero, ← h.total] at htelescope
  exact htelescope

namespace ChainExecutor

/-- The property holds of every recorded outcome. -/
def AllResults (Q : ChainBlockOutcome → Prop) (X : ChainExecutor) : Prop :=
  ∀ height outcome, X.results.lookup height = some outcome → Q outcome

variable {Q : ChainBlockOutcome → Prop} {X : ChainExecutor}

theorem AllResults.imp {Q' : ChainBlockOutcome → Prop} (hQ : ∀ outcome, Q outcome → Q' outcome)
    (h : X.AllResults Q) : X.AllResults Q' := fun height outcome hl => hQ _ (h height outcome hl)

/-- An undo only erases. -/
theorem AllResults.undoOne (h : X.AllResults Q) (expected : BlockHash) :
    (X.undoOne expected).1.AllResults Q := by
  obtain ⟨-, e, heq⟩ | ⟨height, record, older, -, heq⟩ := X.undoOne_cases expected
  · rw [heq]
    exact h
  · rw [heq]
    intro i outcome hl
    exact h i outcome (Maps.lookup_erase_eq_some.mp hl).2

theorem AllResults.undoAll (h : X.AllResults Q) (removed : List BlockHash) :
    (X.undoAll removed).1.AllResults Q := by
  induction removed generalizing X with
  | nil => exact h
  | cons hash removed ih =>
    have hone := h.undoOne hash
    unfold ChainExecutor.undoAll
    -- a refused undo ends the loop
    cases hrun : X.undoOne hash with
    | mk Y result =>
      rw [hrun] at hone
      cases result with
      | ok _ => exact ih hone
      | error e => exact hone

variable [Evm] [Trie] [FeeRule] {D : DagStore} {bodies : BodyStore}

/-- Executing a block over this DAG and these bodies gives outcomes with the property. -/
def Gives (Q : ChainBlockOutcome → Prop) (D : DagStore) (bodies : BodyStore) : Prop :=
  ∀ (X X' : ChainExecutor) hash outcome,
    X.executeChainBlock D bodies hash = (X', .ok outcome) → Q outcome

theorem AllResults.executeAll (hgives : Gives Q D bodies) (h : X.AllResults Q)
    (added : List BlockHash) (outcomes : List ChainBlockOutcome) :
    (X.executeAll D bodies added outcomes).1.AllResults Q := by
  induction added generalizing X outcomes with
  | nil => exact h
  | cons hash added ih =>
    unfold ChainExecutor.executeAll
    obtain ⟨-, heq⟩ | ⟨outcome, undo, below, X', -, heq, -, hresults, -⟩ :=
      executeChainBlock_cases X D bodies hash
    · rw [heq]
      exact h
    · rw [heq]
      refine ih (fun height o hl => ?_) (outcomes ++ [outcome])
      rw [hresults, Maps.lookup_insert] at hl
      -- recorded just now, or before
      split at hl
      · obtain rfl := Option.some.inj hl
        exact hgives X X' hash outcome heq
      · exact h height o hl

/-- **A reorganisation**, whether or not it succeeds. -/
theorem AllResults.applyReorg (hgives : Gives Q D bodies) (h : X.AllResults Q)
    (removed added : List BlockHash) :
    (X.applyReorg D bodies removed added).1.AllResults Q := by
  have hundone := h.undoAll removed
  unfold ChainExecutor.applyReorg
  cases hrun : X.undoAll removed with
  | mk Y result =>
    rw [hrun] at hundone
    cases result with
    | ok _ => exact hundone.executeAll hgives added []
    | error e => exact hundone

/-- **Executing a block meters it**, in either mode. -/
theorem gives_metered (D : DagStore) (bodies : BodyStore) : Gives Metered D bodies := by
  intro X X' hash outcome heq
  obtain ⟨_, pass, hcomplete⟩ := complete_of_executed heq
  have hlength : outcome.receipts.length = (executions pass).length :=
    hcomplete.receipts_length.trans hcomplete.executed
  -- the meter is the running sum over the executions of the pass
  refine ⟨fun i => runningGas (((executions pass).map Prod.snd).take i), rfl,
    runningGas_take_mono _, fun i receipt hget => ?_, ?_, ?_⟩
  · obtain ⟨hlt, -⟩ := List.getElem?_eq_some_iff.mp hget
    have hentry := List.getElem?_eq_getElem (hlength ▸ hlt)
    have hreceipt := hcomplete.receipt i _ hentry
    rw [hget] at hreceipt
    rw [Option.some.inj hreceipt]
  · rw [hcomplete.gasUsed, hlength, List.take_of_length_le]
    exact le_of_eq (List.length_map _)
  · rw [hlength, hcomplete.hashes, List.length_map]

/-- **What is executed is in the bodies**: the transactions of an outcome are among them. -/
theorem gives_known {hashes : Set B256}
    (hbodies : ∀ source, ∀ tx ∈ bodies.get source, tx.hash ∈ hashes) :
    Gives (fun outcome => ∀ hash ∈ outcome.transactionHashes, hash ∈ hashes) D bodies := by
  intro X X' hash outcome heq
  obtain ⟨_, pass, hcomplete⟩ := complete_of_executed heq
  intro txHash hmem
  obtain ⟨item, hitem, rfl⟩ := List.mem_map.mp (hcomplete.hashes_sublist.subset hmem)
  obtain ⟨-, source, -, -, htx, -⟩ :=
    beneficiary_of_mem ((canonicalOrder_perm D bodies hash).mem_iff.mp hitem)
  exact hbodies source item.2 htx

end ChainExecutor

end Chainname
