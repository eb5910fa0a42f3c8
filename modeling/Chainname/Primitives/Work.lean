import Chainname.Primitives.Header

/-!
# Compact targets and proof-of-work accumulation

`CompactTarget.toTarget` decodes the compact difficulty encoding, one exponent byte and a
24-bit mantissa, refusing encodings that are negative, zero or overflowing.
`workForTarget` is the expected number of hashes a block at a target takes,
`2^256 / (target + 1)`, computed without a 257-bit intermediate.
-/

namespace Chainname

/-- Reasons a compact target could not be decoded. -/
inductive CompactError where
  /-- The mantissa's sign bit is set. -/
  | negativeTarget (raw : UInt32)
  /-- The encoding denotes zero. -/
  | zeroTarget (raw : UInt32)
  /-- The exponent shifts the mantissa beyond 256 bits. -/
  | overflow (raw : UInt32)
  deriving DecidableEq

/-- Leading zero bits of a 256-bit integer. -/
def U256.leadingZeros (x : ℕ) : ℕ := if x = 0 then 256 else 255 - x.log2

/-- Decodes a compact target to a full 256-bit target. -/
def CompactTarget.toTarget (raw : UInt32) : Except CompactError ℕ :=
  let exponent := raw.toNat >>> 24
  let mantissa := raw.toNat &&& 0x00ffffff
  if mantissa &&& 0x00800000 ≠ 0 then .error (.negativeTarget raw)
  else if mantissa = 0 then .error (.zeroTarget raw)
  else if exponent ≤ 3 then
    -- the mantissa is shifted down, which can annihilate it
    let shifted := mantissa >>> (8 * (3 - exponent))
    if shifted = 0 then .error (.zeroTarget raw) else .ok shifted
  else
    let shift := 8 * (exponent - 3)
    if 256 ≤ shift then .error (.overflow raw)
    else if U256.leadingZeros mantissa < shift then .error (.overflow raw)
    else .ok (mantissa <<< shift)

/-- Expected hashes required to produce a block at `target`. -/
def workForTarget (target : ℕ) : ℕ :=
  if target = 0 then U256.max
  -- `target + 1` overflows exactly at the largest target, where one hash is enough
  else if target = U256.max then 1
  else (U256.max - target) / (target + 1) + 1

/-- The work of a header: that of its decoded target, or of the easiest target when its
`bits` do not decode. -/
def headerWork (header : Header) : ℕ :=
  workForTarget (match CompactTarget.toTarget header.bits with
    | .ok target => target
    | .error _ => U256.max)

/-- The expected number of hashes, rounded down. -/
theorem workForTarget_eq {target : ℕ} (hpos : target ≠ 0) (hle : target ≤ U256.max) :
    workForTarget target = 2 ^ 256 / (target + 1) := by
  have hmax : U256.max + 1 = 2 ^ 256 := U256.max_add_one
  unfold workForTarget
  rw [if_neg hpos]
  split
  · next h => rw [h, hmax, Nat.div_self (Nat.two_pow_pos 256)]
  · -- `2 ^ 256` less one denominator, divided, and one for the denominator
    have hsplit : 2 ^ 256 = U256.max - target + (target + 1) := by
      rw [← hmax, ← Nat.add_assoc, Nat.sub_add_cancel hle]
    rw [hsplit, Nat.add_div_right _ (Nat.succ_pos target)]

/-- A decoded target is not zero, and fits in 256 bits. -/
theorem CompactTarget.toTarget_bounds {raw : UInt32} {target : ℕ}
    (h : CompactTarget.toTarget raw = .ok target) : target ≠ 0 ∧ target ≤ U256.max := by
  have hmantissa : raw.toNat &&& 0x00ffffff < 2 ^ 24 :=
    Nat.lt_of_le_of_lt Nat.and_le_right (by decide)
  unfold CompactTarget.toTarget at h
  dsimp only at h
  generalize raw.toNat &&& 0x00ffffff = mantissa at h hmantissa
  have hmax : U256.max = 2 ^ 256 - 1 := rfl
  split at h
  · cases h
  split at h
  · cases h
  next hzero =>
  split at h
  · split at h
    · cases h
    · next hshifted =>
      obtain rfl := Except.ok.inj h
      refine ⟨hshifted, ?_⟩
      have hle : mantissa >>> (8 * (3 - raw.toNat >>> 24)) ≤ mantissa := by
        rw [Nat.shiftRight_eq_div_pow]
        exact Nat.div_le_self _ _
      have hsmall : 2 ^ 24 ≤ U256.max := U256.two_pow_le_max (by decide)
      omega
  · generalize 8 * (raw.toNat >>> 24 - 3) = shift at h
    split at h
    · cases h
    · next hshift =>
      split at h
      · cases h
      · next hroom =>
        obtain rfl := Except.ok.inj h
        rw [Nat.shiftLeft_eq]
        refine ⟨Nat.mul_ne_zero hzero (Nat.pow_pos Nat.two_pos).ne', ?_⟩
        unfold U256.leadingZeros at hroom
        rw [if_neg hzero] at hroom
        -- the highest bit stays among the 256
        have hlog : mantissa.log2 < 24 := (Nat.log2_lt hzero).mpr hmantissa
        have hlt : mantissa < 2 ^ (256 - shift) :=
          (Nat.log2_lt hzero).mp (by omega)
        have hprod : mantissa * 2 ^ shift < 2 ^ 256 := by
          calc mantissa * 2 ^ shift < 2 ^ (256 - shift) * 2 ^ shift :=
                Nat.mul_lt_mul_of_pos_right hlt (Nat.pow_pos Nat.two_pos)
            _ = 2 ^ 256 := by rw [← Nat.pow_add, Nat.sub_add_cancel (by omega)]
        exact Nat.le_sub_one_of_lt hprod

/-- The work of a header whose target decodes. -/
theorem headerWork_of_ok {header : Header} {target : ℕ}
    (h : CompactTarget.toTarget header.bits = .ok target) :
    headerWork header = 2 ^ 256 / (target + 1) := by
  unfold headerWork
  rw [h]
  obtain ⟨hpos, hle⟩ := CompactTarget.toTarget_bounds h
  exact workForTarget_eq hpos hle

/-- A header whose `bits` do not decode has work one. -/
theorem headerWork_of_error {header : Header} {e : CompactError}
    (h : CompactTarget.toTarget header.bits = .error e) : headerWork header = 1 := by
  unfold headerWork workForTarget
  rw [h]
  dsimp only
  rw [if_neg (by decide +kernel), if_pos rfl]

/-- Every header has some work, and it fits in 256 bits. -/
theorem headerWork_bounds (header : Header) : 0 < headerWork header ∧ headerWork header ≤ U256.max := by
  have hmax : U256.max + 1 = 2 ^ 256 := U256.max_add_one
  cases h : CompactTarget.toTarget header.bits with
  | error e =>
    -- bits that do not decode count as work 1
    rw [headerWork_of_error h]
    exact ⟨Nat.one_pos, by decide +kernel⟩
  | ok target =>
    obtain ⟨hpos, hle⟩ := CompactTarget.toTarget_bounds h
    rw [headerWork_of_ok h]
    -- the quotient is at least 1 and loses the topmost value
    refine ⟨?_, ?_⟩
    · exact Nat.div_pos (hmax ▸ Nat.succ_le_succ hle) (Nat.succ_pos target)
    · refine Nat.le_of_lt_succ ?_
      rw [Nat.succ_eq_add_one, hmax]
      exact Nat.div_lt_self (Nat.two_pow_pos 256) (by omega)

/-- The work of a header is that of its `bits`. -/
theorem headerWork_congr {header header' : Header} (h : header.bits = header'.bits) :
    headerWork header = headerWork header' := by
  unfold headerWork
  rw [h]

end Chainname
