import Chainname.Primitives.Header

/-!
# Chain parameters

The parameters of a network and the per-block figures derived from them. All of it is
integer arithmetic on 64-bit values that stay far from overflow.
-/

namespace Chainname

/-- Milliseconds in one second. -/
def msPerSecond : ℕ := 1000

/-- Length of the pruning window, seconds. -/
def pruningWindowSeconds : ℕ := 24 * 60 * 60

/-- Lag between a block and the result its header publishes, seconds. -/
def deferredStateRootLagSeconds : ℕ := 20

/-- The most gas one transaction may declare. -/
def maxTxGasLimit : ℕ := 16777216

/-- The merge set limit, as a multiple of `k`. -/
def mergesetSizeLimitKMultiple : ℕ := 10

/-- Reasons a parameter set is not usable. -/
inductive ParamsError where
  | zeroBlockInterval
  | intervalNotDivisor (intervalMs : ℕ)
  | gasTargetNotDivisible (target bps : ℕ)
  | zeroK
  deriving DecidableEq

/-- The parameters of a network. -/
structure ChainParams where
  chainId : ℕ
  /-- Target interval between blocks, milliseconds. -/
  targetBlockIntervalMs : ℕ
  ghostdagK : UInt16
  asertHalflifeSeconds : ℕ
  targetGasPerSecond : ℕ

namespace ChainParams

variable (params : ChainParams)

def blocksPerSecond : ℕ := msPerSecond / params.targetBlockIntervalMs

/-- The amortised gas target of one block. -/
def blockGasTarget : ℕ := params.targetGasPerSecond / params.blocksPerSecond

/-- The gas ceiling of one block: a maximum-size transaction always fits. -/
def blockGasLimit : ℕ :=
  if maxTxGasLimit < params.blockGasTarget then params.blockGasTarget else maxTxGasLimit

def deferredStateRootLag : ℕ := deferredStateRootLagSeconds * params.blocksPerSecond

/-- Chain blocks whose undo records are kept. -/
def pruningWindowBlocks : ℕ := pruningWindowSeconds * params.blocksPerSecond

/-- Maximum number of blocks in a single merge set. -/
def mergesetSizeLimit : ℕ := mergesetSizeLimitKMultiple * params.ghostdagK.toNat

/-- Rejects parameter sets whose derivations would not be exact. -/
def validate : Except ParamsError Unit :=
  if params.targetBlockIntervalMs = 0 then .error .zeroBlockInterval
  else if ¬ params.targetBlockIntervalMs ∣ msPerSecond then
    .error (.intervalNotDivisor params.targetBlockIntervalMs)
  else if ¬ params.blocksPerSecond ∣ params.targetGasPerSecond then
    .error (.gasTargetNotDivisible params.targetGasPerSecond params.blocksPerSecond)
  else if params.ghostdagK = 0 then .error .zeroK
  else .ok ()

/-- What is derived from the block rate is exact. -/
structure Exact : Prop where
  rate : params.targetBlockIntervalMs * params.blocksPerSecond = msPerSecond
  gasTarget : params.blockGasTarget * params.blocksPerSecond = params.targetGasPerSecond
  k : params.ghostdagK ≠ 0

variable {params}

theorem validate_ok_iff : params.validate = .ok () ↔ params.Exact := by
  unfold validate
  constructor
  · intro h
    -- the four checks in the source's order
    split at h
    · cases h
    split at h
    · cases h
    split at h
    · cases h
    split at h
    · cases h
    · next hinterval hgas hk =>
      exact ⟨Nat.mul_div_cancel' (not_not.mp hinterval), Nat.div_mul_cancel (not_not.mp hgas), hk⟩
  · rintro ⟨hrate, hgas, hk⟩
    -- a zero interval could not divide the rate
    have hpos : params.targetBlockIntervalMs ≠ 0 := by
      rintro hzero
      rw [hzero, Nat.zero_mul] at hrate
      cases hrate
    rw [if_neg hpos, if_neg (not_not.mpr (Dvd.intro _ hrate)),
      if_neg (not_not.mpr (Dvd.intro_left _ hgas)), if_neg hk]

/-- There is a lag between a block and the result its header publishes. -/
theorem Exact.lag_pos (h : params.Exact) : 0 < params.deferredStateRootLag := by
  have hrate : params.blocksPerSecond ≠ 0 := by
    intro hzero
    have hmul := h.rate
    rw [hzero, Nat.mul_zero] at hmul
    cases hmul
  exact Nat.mul_pos (by decide) (Nat.pos_of_ne_zero hrate)

end ChainParams

/-- A network with the default parameters at one block per second. -/
def Sample.params : ChainParams where
  chainId := 7717
  targetBlockIntervalMs := 1000
  ghostdagK := 18
  asertHalflifeSeconds := 7200
  targetGasPerSecond := 30000000

end Chainname
