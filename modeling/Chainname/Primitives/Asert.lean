import Mathlib.Tactic.Linarith
import Mathlib.Tactic.GCongr
import Chainname.Primitives.Compact

/-!
# ASERT difficulty retargeting

The target of a block is computed from a fixed anchor: it doubles with every half-life that the
chain is behind its schedule and halves with every one that it is ahead. `nextTarget` computes it
in fixed point, in 128-bit signed and 512-bit unsigned arithmetic. An operation that overflows, a
division by zero and a failed debug assertion are all `none` here.

Where the drift from the schedule can be computed at all, the rest can (`nextTarget_eq`), and what
comes out is the anchor times `growth` of the exponent, within the limits and rounded by the
compact encoding. `growth` is monotone, also from one half-life to the next (`growth_mono`), and
so is everything before and after it.
-/

namespace Chainname

/-! ### Arithmetic that can overflow -/

/-- The values of a signed 128-bit integer. -/
def I128.Fits (x : ℤ) : Prop := -2 ^ 127 ≤ x ∧ x < 2 ^ 127

instance I128.decidableFits (x : ℤ) : Decidable (I128.Fits x) :=
  inferInstanceAs (Decidable (_ ∧ _))

/-- The result of an operation on signed 128-bit integers. -/
def I128.checked (x : ℤ) : Option ℤ := if I128.Fits x then some x else none

/-- The result of an operation on unsigned 512-bit integers. -/
def U512.checked (x : ℕ) : Option ℕ := if x < 2 ^ 512 then some x else none

theorem I128.checked_of_fits {x : ℤ} (h : I128.Fits x) : I128.checked x = some x := if_pos h

theorem U512.checked_of_lt {x : ℕ} (h : x < 2 ^ 512) : U512.checked x = some x := if_pos h

/-! ### The retarget -/

/-- Parameters of the retarget. -/
structure AsertParams where
  /-- Target seconds between blocks. -/
  idealBlockTimeSecs : ℤ
  /-- Half-life, in seconds. -/
  halflifeSecs : ℤ
  /-- Easiest permitted target. -/
  powLimit : ℕ

namespace Asert

/-- The fixed-point unit. -/
def radix : ℤ := 65536

/-- Coefficients of the cubic that approximates `2 ^ x - 1`, in 48-bit fixed point. -/
def cubicC1 : ℤ := 195766423245049

def cubicC2 : ℤ := 971821376

def cubicC3 : ℤ := 5127

/-- Half of `2 ^ 48`. -/
def cubicRound : ℤ := 140737488355328

/-- Bound on how far a single retarget may move the exponent, in half-lives. -/
def maxHalflives : ℤ := 16

/-- How far ahead of or behind schedule the chain is, in fixed point. -/
def scaledDrift (params : AsertParams) (heightFromAnchor : ℕ) (secsFromAnchor : ℤ) : Option ℤ := do
  let scheduled ← I128.checked (params.idealBlockTimeSecs * heightFromAnchor)
  let drift ← I128.checked (secsFromAnchor - scheduled)
  I128.checked (drift * radix)

/-- The exponent, in half-lives. -/
def exponent (params : AsertParams) (heightFromAnchor : ℕ) (secsFromAnchor : ℤ) : Option ℤ := do
  let scaled ← scaledDrift params heightFromAnchor secsFromAnchor
  if params.halflifeSecs = 0 then none
  else I128.checked (scaled.tdiv params.halflifeSecs)

/-- The exponent within its bounds. -/
def clamp (exponent : ℤ) : ℤ :=
  max (-maxHalflives * radix) (min exponent (maxHalflives * radix))

/-- `2 ^ frac` in fixed point, by the cubic. -/
def factor (frac : ℤ) : Option ℤ := do
  let linear ← I128.checked (cubicC1 * frac)
  let scaledOnce ← I128.checked (cubicC2 * frac)
  let square ← I128.checked (scaledOnce * frac)
  let cubedOnce ← I128.checked (cubicC3 * frac)
  let cubedTwice ← I128.checked (cubedOnce * frac)
  let cube ← I128.checked (cubedTwice * frac)
  let lower ← I128.checked (linear + square)
  let sum ← I128.checked (lower + cube)
  let rounded ← I128.checked (sum + cubicRound)
  I128.checked (radix + rounded >>> (48 : ℕ))

/-- The anchor times a factor and a power of two, in 512 bits. -/
def scaleAnchor (anchorTarget : ℕ) (factor shifts : ℤ) : Option ℕ := do
  let product ← U512.checked (anchorTarget * factor.toNat)
  let shifted ←
    if 0 ≤ shifts then U512.checked (product <<< shifts.toNat)
    else some (product >>> (-shifts).toNat)
  some (shifted >>> 16)

/-- A target within its limits. -/
def limit (powLimit next : ℕ) : ℕ :=
  let next := if powLimit < next then powLimit else next
  if next = 0 then 1 else next

/-- The target for a block, from a fixed anchor. -/
def nextTarget (params : AsertParams) (anchorTarget heightFromAnchor : ℕ) (secsFromAnchor : ℤ) :
    Option UInt32 := do
  if heightFromAnchor = 0 then none
  else
    let exponent ← exponent params heightFromAnchor secsFromAnchor
    let clamped := clamp exponent
    -- whole half-lives are a shift, the rest goes through the cubic
    let shifts := clamped >>> (16 : ℕ)
    let frac := clamped - shifts * radix
    if ¬ (0 ≤ frac ∧ frac < radix) then none
    else
      let factor ← factor frac
      if ¬ (radix ≤ factor ∧ factor ≤ 2 * radix) then none
      else
        let next ← scaleAnchor anchorTarget factor shifts
        some (CompactTarget.fromTarget (limit params.powLimit next))

/-! ### The cubic -/

/-- The cubic, where nothing overflows. -/
def cubic (frac : ℤ) : ℤ :=
  (cubicC1 * frac + cubicC2 * frac * frac + cubicC3 * frac * frac * frac + cubicRound) / 2 ^ 48

theorem cubic_nonneg {frac : ℤ} (h : 0 ≤ frac) : 0 ≤ cubic frac := by
  unfold cubic cubicC1 cubicC2 cubicC3 cubicRound
  positivity

theorem cubic_mono {frac frac' : ℤ} (h : 0 ≤ frac) (hle : frac ≤ frac') :
    cubic frac ≤ cubic frac' := by
  have h' : 0 ≤ frac' := h.trans hle
  unfold cubic cubicC1 cubicC2 cubicC3
  refine Int.ediv_le_ediv (by decide) ?_
  gcongr

/-- **The cubic stays within one half-life**: its last value is that of a whole one. -/
theorem cubic_le {frac : ℤ} (h : 0 ≤ frac) (hlt : frac < radix) : cubic frac ≤ radix := by
  have hlast : cubic 65535 ≤ radix := by decide +kernel
  exact (cubic_mono h (Int.le_of_lt_add_one hlt)).trans hlast

/-- No step of the cubic overflows. -/
theorem factor_eq {frac : ℤ} (h : 0 ≤ frac) (hlt : frac < radix) :
    factor frac = some (radix + cubic frac) := by
  have hcubic := cubic_nonneg h
  have hle := cubic_le h hlt
  unfold radix at hlt hle
  have hfits : ∀ x : ℤ, 0 ≤ x → x < 2 ^ 100 → I128.checked x = some x := fun x h₀ h₁ =>
    I128.checked_of_fits ⟨by omega, by omega⟩
  -- the powers of the fraction, and the three terms by them
  have hsquare : 0 ≤ frac * frac ∧ frac * frac < 2 ^ 32 := ⟨by positivity, by nlinarith⟩
  have hcube : 0 ≤ frac * frac * frac ∧ frac * frac * frac < 2 ^ 48 :=
    ⟨by positivity, by nlinarith⟩
  have hquadratic : cubicC2 * frac * frac = 971821376 * (frac * frac) := mul_assoc _ _ _
  have htwice : cubicC3 * frac * frac = 5127 * (frac * frac) := mul_assoc _ _ _
  have hcubed : 5127 * (frac * frac) * frac = 5127 * (frac * frac * frac) := mul_assoc _ _ _
  have hsum : (195766423245049 * frac + 971821376 * (frac * frac) + 5127 * (frac * frac * frac)
      + 140737488355328) >>> (48 : ℕ) = cubic frac := by
    rw [Int.shiftRight_eq_div_pow, ← hcubed, ← htwice, ← hquadratic]
    rfl
  unfold factor
  rw [hfits (cubicC1 * frac) (by unfold cubicC1; omega) (by unfold cubicC1; omega),
    hfits (cubicC2 * frac) (by unfold cubicC2; omega) (by unfold cubicC2; omega),
    hfits (cubicC3 * frac) (by unfold cubicC3; omega) (by unfold cubicC3; omega)]
  simp only [Option.bind_eq_bind, Option.bind_some]
  rw [hquadratic, htwice, hfits _ (by omega) (by omega), hfits _ (by omega) (by omega)]
  simp only [Option.bind_some]
  rw [hcubed, hfits _ (by omega) (by omega)]
  simp only [Option.bind_some]
  unfold cubicC1 cubicRound radix
  rw [hfits _ (by omega) (by omega)]
  simp only [Option.bind_some]
  rw [hfits _ (by omega) (by omega)]
  simp only [Option.bind_some]
  rw [hfits _ (by omega) (by omega)]
  simp only [Option.bind_some]
  rw [hsum]
  exact hfits _ (by omega) (by omega)

/-! ### The growth of the target -/

/-- What the anchor is multiplied by, with 32 fractional bits. -/
def growth (clamped : ℤ) : ℕ :=
  (radix + cubic (clamped % radix)).toNat * 2 ^ (clamped / radix + maxHalflives).toNat

theorem clamp_bounds (exponent : ℤ) :
    -maxHalflives * radix ≤ clamp exponent ∧ clamp exponent ≤ maxHalflives * radix :=
  ⟨le_max_left _ _, max_le (by decide) (min_le_right _ _)⟩

theorem clamp_mono {exponent exponent' : ℤ} (h : exponent ≤ exponent') :
    clamp exponent ≤ clamp exponent' :=
  max_le_max_left _ (min_le_min_right _ h)

/-- **The growth is monotone**, within a half-life as the cubic is, and from one to the next as
the cubic never exceeds a whole half-life. -/
theorem growth_mono {c c' : ℤ} (hc : -maxHalflives * radix ≤ c) (h : c ≤ c') :
    growth c ≤ growth c' := by
  have hradix : (0 : ℤ) < radix := by decide
  have hfrac := Int.emod_nonneg c hradix.ne'
  have hfrac' := Int.emod_nonneg c' hradix.ne'
  have hlt := Int.emod_lt_of_pos c hradix
  -- whole halflives first: equal, or one ahead at least
  have hshifts : c / radix ≤ c' / radix := Int.ediv_le_ediv hradix h
  have hlow : -maxHalflives ≤ c / radix := (Int.le_ediv_iff_mul_le hradix).mpr hc
  unfold growth
  obtain heq | hnext := hshifts.eq_or_lt
  · rw [heq]
    refine Nat.mul_le_mul_right _ (Int.toNat_le_toNat ?_)
    -- equal shifts leave the fractions to be compared
    have hsplit := Int.mul_ediv_add_emod c radix
    have hsplit' := Int.mul_ediv_add_emod c' radix
    rw [heq] at hsplit
    have hle : c % radix ≤ c' % radix := by omega
    have hcubic := cubic_mono hfrac hle
    omega
  · -- the factor is below 2, so one shift more outweighs it
    have hcubic := cubic_le hfrac hlt
    have hcubic' := cubic_nonneg hfrac'
    have hstep : (c / radix + maxHalflives).toNat + 1 ≤ (c' / radix + maxHalflives).toNat := by
      omega
    calc (radix + cubic (c % radix)).toNat * 2 ^ (c / radix + maxHalflives).toNat
        ≤ radix.toNat * 2 * 2 ^ (c / radix + maxHalflives).toNat :=
          Nat.mul_le_mul_right _ (by omega)
      _ = radix.toNat * 2 ^ ((c / radix + maxHalflives).toNat + 1) := by
          rw [Nat.pow_succ, Nat.mul_assoc, Nat.mul_comm 2]
      _ ≤ radix.toNat * 2 ^ (c' / radix + maxHalflives).toNat :=
          Nat.mul_le_mul_left _ (Nat.pow_le_pow_right Nat.two_pos hstep)
      _ ≤ (radix + cubic (c' % radix)).toNat * 2 ^ (c' / radix + maxHalflives).toNat :=
          Nat.mul_le_mul_right _ (by omega)

/-- The product of an anchor and a factor is far below 512 bits. -/
theorem product_lt {anchorTarget : ℕ} (hanchor : anchorTarget ≤ U256.max) {f : ℤ}
    (hf : f ≤ 2 * radix) : anchorTarget * f.toNat < 2 ^ 256 * 2 ^ 18 := by
  have hmax := U256.max_add_one
  refine Nat.mul_lt_mul_of_lt_of_le (by omega) ?_ (by decide)
  unfold radix at hf
  omega

/-- A shift by at most the bound on half-lives stays there. -/
theorem shifted_lt {product n : ℕ} (hproduct : product < 2 ^ 256 * 2 ^ 18) (hn : n ≤ 16) :
    product * 2 ^ n < 2 ^ 512 := by
  calc product * 2 ^ n ≤ 2 ^ 256 * 2 ^ 18 * 2 ^ 16 :=
        Nat.mul_le_mul hproduct.le (Nat.pow_le_pow_right Nat.two_pos hn)
    _ < 2 ^ 512 := by decide +kernel

/-- **Scaling the anchor does not overflow**, and is a multiplication by the growth. -/
theorem scaleAnchor_eq {anchorTarget : ℕ} (hanchor : anchorTarget ≤ U256.max) {f shifts : ℤ}
    (hf : f ≤ 2 * radix) (hlow : -maxHalflives ≤ shifts) (hhigh : shifts ≤ maxHalflives) :
    scaleAnchor anchorTarget f shifts
      = some (anchorTarget * (f.toNat * 2 ^ (shifts + maxHalflives).toNat) / 2 ^ 32) := by
  have hproduct := product_lt hanchor hf
  unfold scaleAnchor
  rw [U512.checked_of_lt (hproduct.trans (by decide +kernel))]
  simp only [Option.bind_eq_bind, Option.bind_some]
  unfold maxHalflives at hlow hhigh ⊢
  split
  · next hup =>
    -- a shift up by `n` doublings, and then down by the radix
    obtain ⟨n, rfl⟩ := Int.eq_ofNat_of_zero_le hup
    have hshifted : anchorTarget * f.toNat * 2 ^ n < 2 ^ 512 :=
      shifted_lt hproduct (Int.ofNat_le.mp hhigh)
    have hcast : ((n : ℤ)).toNat = n := Int.toNat_natCast n
    have hsum : ((n : ℤ) + 16).toNat = n + 16 := by omega
    rw [hcast, hsum, Nat.shiftLeft_eq, U512.checked_of_lt hshifted]
    simp only [Option.bind_some]
    rw [Nat.shiftRight_eq_div_pow, Nat.pow_add, ← Nat.mul_assoc f.toNat, ← Nat.mul_assoc,
      ← Nat.mul_assoc, show (2 : ℕ) ^ 32 = 2 ^ 16 * 2 ^ 16 from rfl,
      Nat.mul_div_mul_right _ _ (Nat.pow_pos Nat.two_pos)]
  · next hdown =>
    -- two shifts down, which divide by the product of their powers
    obtain ⟨n, hn⟩ := Int.eq_ofNat_of_zero_le (show 0 ≤ -shifts by omega)
    have hcast : (-shifts).toNat = n := by omega
    have hsum : (shifts + 16).toNat = 16 - n := by omega
    have hsplit : (2 : ℕ) ^ 32 = 2 ^ (n + 16) * 2 ^ (16 - n) := by
      rw [← Nat.pow_add]
      congr 1
      omega
    rw [hcast, hsum, Nat.shiftRight_eq_div_pow, Nat.shiftRight_eq_div_pow,
      Nat.div_div_eq_div_mul, ← Nat.pow_add, hsplit, ← Nat.mul_assoc,
      Nat.mul_div_mul_right _ _ (Nat.pow_pos Nat.two_pos)]

/-! ### What is computed -/

/-- The inputs for which the schedule and the scaled drift are 128-bit integers. -/
structure InRange (params : AsertParams) (height : ℕ) (secs : ℤ) : Prop where
  scheduled : I128.Fits (params.idealBlockTimeSecs * height)
  scaled : I128.Fits ((secs - params.idealBlockTimeSecs * height) * radix)

/-- The exponent, where nothing overflows. -/
def exactExponent (params : AsertParams) (height : ℕ) (secs : ℤ) : ℤ :=
  ((secs - params.idealBlockTimeSecs * height) * radix).tdiv params.halflifeSecs

/-- The target before its limits and its encoding. -/
def unlimited (params : AsertParams) (anchorTarget height : ℕ) (secs : ℤ) : ℕ :=
  anchorTarget * growth (clamp (exactExponent params height secs)) / 2 ^ 32

section Compute

variable {params : AsertParams} {anchorTarget height : ℕ} {secs : ℤ}

theorem exponent_eq (hhalflife : 0 < params.halflifeSecs) (h : InRange params height secs) :
    exponent params height secs = some (exactExponent params height secs) := by
  obtain ⟨hscheduled, hscaled⟩ := h
  -- a drift that fits once it is scaled fits before
  have hdrift : I128.Fits (secs - params.idealBlockTimeSecs * height) := by
    unfold I128.Fits at hscaled ⊢
    unfold radix at hscaled
    omega
  have hquotient : I128.Fits (exactExponent params height secs) := by
    obtain ⟨hge, hlt⟩ := hscaled
    -- a quotient is not larger than what is divided, in absolute value
    have habs := Int.natAbs_tdiv_le_natAbs
      ((secs - params.idealBlockTimeSecs * height) * radix) params.halflifeSecs
    unfold I128.Fits exactExponent
    generalize (secs - params.idealBlockTimeSecs * height) * radix = scaled at *
    generalize hq : scaled.tdiv params.halflifeSecs = quotient at *
    have hsign : scaled ≤ 0 ∧ quotient ≤ 0 ∨ 0 ≤ scaled ∧ 0 ≤ quotient := by
      obtain hneg | hnonneg := le_total scaled 0
      · have hle := Int.tdiv_le_tdiv hhalflife hneg
        rw [hq, Int.zero_tdiv] at hle
        exact Or.inl ⟨hneg, hle⟩
      · exact Or.inr ⟨hnonneg, hq ▸ Int.tdiv_nonneg hnonneg hhalflife.le⟩
    omega
  unfold exponent scaledDrift
  rw [I128.checked_of_fits hscheduled]
  simp only [Option.bind_eq_bind, Option.bind_some]
  rw [I128.checked_of_fits hdrift]
  simp only [Option.bind_some]
  rw [I128.checked_of_fits hscaled]
  simp only [Option.bind_some]
  rw [if_neg hhalflife.ne']
  exact I128.checked_of_fits hquotient

/-- **What the retarget computes**: nothing overflows, and every assertion holds. -/
theorem nextTarget_eq (hhalflife : 0 < params.halflifeSecs) (hanchor : anchorTarget ≤ U256.max)
    (hheight : 1 ≤ height) (h : InRange params height secs) :
    nextTarget params anchorTarget height secs
      = some (CompactTarget.fromTarget
          (limit params.powLimit (unlimited params anchorTarget height secs))) := by
  have hradix : (0 : ℤ) < radix := by decide
  unfold nextTarget unlimited
  rw [if_neg (by omega), exponent_eq hhalflife h]
  simp only [Option.bind_eq_bind, Option.bind_some]
  obtain ⟨hlow, hhigh⟩ := clamp_bounds (exactExponent params height secs)
  generalize clamp (exactExponent params height secs) = c at *
  -- an arithmetic shift rounds towards minus infinity, so the fraction is never negative
  have hshifts : c >>> (16 : ℕ) = c / radix := Int.shiftRight_eq_div_pow c 16
  have hrest : c - c / radix * radix = c % radix := by
    rw [Int.emod_def, Int.mul_comm radix]
  have hfrac := Int.emod_nonneg c hradix.ne'
  have hlt := Int.emod_lt_of_pos c hradix
  have hcubic := cubic_nonneg hfrac
  have hcubic' := cubic_le hfrac hlt
  rw [hshifts, hrest, if_neg (not_not.mpr ⟨hfrac, hlt⟩), factor_eq hfrac hlt]
  simp only [Option.bind_some]
  rw [if_neg (not_not.mpr ⟨by omega, by omega⟩), scaleAnchor_eq hanchor (by omega)
    ((Int.le_ediv_iff_mul_le hradix).mpr hlow)
    (Int.ediv_le_of_le_mul hradix hhigh)]
  rfl

theorem limit_eq (powLimit next : ℕ) : limit powLimit next = max 1 (min powLimit next) := by
  unfold limit
  dsimp only
  split
  · split
    · omega
    · omega
  · split
    · omega
    · omega

/-- A target within its limits is one that can be encoded. -/
theorem limit_bounds {powLimit next : ℕ} (hpos : 1 ≤ powLimit) :
    limit powLimit next ≠ 0 ∧ limit powLimit next ≤ powLimit := by
  rw [limit_eq]
  omega

theorem limit_mono {powLimit next next' : ℕ} (h : next ≤ next') :
    limit powLimit next ≤ limit powLimit next' := by
  rw [limit_eq, limit_eq]
  exact max_le_max_left 1 (min_le_min_left powLimit h)

/-- **More drift is an easier target**, before limits and encoding. -/
theorem unlimited_mono {height' : ℕ} {secs' : ℤ} (hhalflife : 0 < params.halflifeSecs)
    (h : secs - params.idealBlockTimeSecs * height ≤ secs' - params.idealBlockTimeSecs * height') :
    unlimited params anchorTarget height secs ≤ unlimited params anchorTarget height' secs' := by
  have hscaled := mul_le_mul_of_nonneg_right h (show (0 : ℤ) ≤ radix by decide)
  have hexponent : exactExponent params height secs ≤ exactExponent params height' secs' :=
    Int.tdiv_le_tdiv hhalflife hscaled
  exact Nat.div_le_div_right (Nat.mul_le_mul_left _
    (growth_mono (clamp_bounds _).1 (clamp_mono hexponent)))

/-- The decoded target of a block. -/
def decodedTarget (params : AsertParams) (anchorTarget height : ℕ) (secs : ℤ) : ℕ :=
  CompactTarget.rounded (limit params.powLimit (unlimited params anchorTarget height secs))

theorem decodedTarget_mono {height' : ℕ} {secs' : ℤ} (hhalflife : 0 < params.halflifeSecs)
    (hlimit : 1 ≤ params.powLimit)
    (h : secs - params.idealBlockTimeSecs * height ≤ secs' - params.idealBlockTimeSecs * height') :
    decodedTarget params anchorTarget height secs
      ≤ decodedTarget params anchorTarget height' secs' :=
  (CompactTarget.rounded_grid (limit_bounds hlimit).1).mono
    (CompactTarget.rounded_grid (limit_bounds hlimit).1)
    (limit_mono (unlimited_mono hhalflife h))

theorem toTarget_limited (hlimit : 1 ≤ params.powLimit) (hmax : params.powLimit ≤ U256.max)
    (anchorTarget height : ℕ) (secs : ℤ) :
    CompactTarget.toTarget (CompactTarget.fromTarget
        (limit params.powLimit (unlimited params anchorTarget height secs)))
      = .ok (decodedTarget params anchorTarget height secs) :=
  CompactTarget.toTarget_fromTarget (limit_bounds hlimit).1 ((limit_bounds hlimit).2.trans hmax)

theorem decodedTarget_bounds (hlimit : 1 ≤ params.powLimit) (hmax : params.powLimit ≤ U256.max) :
    1 ≤ decodedTarget params anchorTarget height secs ∧
      decodedTarget params anchorTarget height secs ≤ params.powLimit := by
  have hbounds : limit params.powLimit (unlimited params anchorTarget height secs) ≠ 0 ∧
      limit params.powLimit (unlimited params anchorTarget height secs) ≤ params.powLimit :=
    limit_bounds hlimit
  obtain ⟨hpos, hle⟩ := hbounds
  have hne := CompactTarget.rounded_ne_zero hpos (hle.trans hmax)
  exact ⟨Nat.one_le_iff_ne_zero.mpr hne, (CompactTarget.rounded_grid hpos).le.trans hle⟩

end Compute

/-! ### The difficulty of a block -/

/-- Where a block stands with respect to the anchor. -/
structure ValidationContext where
  asert : AsertParams
  anchorTarget : ℕ
  anchorTimestampMs : UInt64
  height : UInt64

/-- Whole seconds from the anchor to a timestamp. -/
def elapsedSecs (anchorTimestampMs timestampMs : UInt64) : ℤ :=
  ((timestampMs.toNat : ℤ) - (anchorTimestampMs.toNat : ℤ)).tdiv 1000

/-- The difficulty a block at this position, with this timestamp, must carry. -/
def expectedBits (ctx : ValidationContext) (timestampMs : UInt64) : Option UInt32 :=
  nextTarget ctx.asert ctx.anchorTarget ctx.height.toNat
    (elapsedSecs ctx.anchorTimestampMs timestampMs)

/-- Timestamps and heights of 64 bits are in range, if blocks are not to be millennia apart. -/
theorem inRange_of_uint64 {params : AsertParams} (hpos : 0 ≤ params.idealBlockTimeSecs)
    (hle : params.idealBlockTimeSecs ≤ 2 ^ 46) (height anchorTimestampMs timestampMs : UInt64) :
    InRange params height.toNat (elapsedSecs anchorTimestampMs timestampMs) := by
  have hheight := height.toNat_lt
  have hanchor := anchorTimestampMs.toNat_lt
  have htimestamp := timestampMs.toNat_lt
  have hscheduled : 0 ≤ params.idealBlockTimeSecs * (height.toNat : ℤ) ∧
      params.idealBlockTimeSecs * (height.toNat : ℤ) ≤ 2 ^ 46 * 2 ^ 64 := by
    refine ⟨by positivity, ?_⟩
    exact mul_le_mul hle (by omega) (by positivity) (by positivity)
  -- truncated division by 1000 makes the distance no larger
  have helapsed : -2 ^ 64 ≤ elapsedSecs anchorTimestampMs timestampMs ∧
      elapsedSecs anchorTimestampMs timestampMs ≤ 2 ^ 64 := by
    have habs := Int.natAbs_tdiv_le_natAbs
      ((timestampMs.toNat : ℤ) - (anchorTimestampMs.toNat : ℤ)) 1000
    unfold elapsedSecs
    omega
  refine ⟨⟨?_, ?_⟩, ⟨?_, ?_⟩⟩
  · omega
  · omega
  · unfold radix
    omega
  · unfold radix
    omega

/-- The retarget yields an encoding of a target. -/
def Retargets (params : AsertParams) (anchorTarget height : ℕ) (secs : ℤ) (target : ℕ) : Prop :=
  ∃ bits, nextTarget params anchorTarget height secs = some bits ∧
    CompactTarget.toTarget bits = .ok target

/-- **ASERT is bounded, monotone and free of overflow.** In range the retarget yields a target
between 1 and the limit. The factor is between one and two units, and the anchor can be scaled by
it in 512 bits. The target does not fall with the elapsed seconds and, unless the schedule runs
backwards, does not rise with the height. All timestamps and heights of 64 bits are in range. -/
theorem retarget_bounded_monotone (params : AsertParams) (anchorTarget : ℕ)
    (hhalflife : 0 < params.halflifeSecs) (hlimit : 1 ≤ params.powLimit)
    (hmax : params.powLimit ≤ U256.max) (hanchor : anchorTarget ≤ U256.max) :
    (∀ height secs, 1 ≤ height → InRange params height secs →
      ∃ target, Retargets params anchorTarget height secs target ∧
        1 ≤ target ∧ target ≤ params.powLimit) ∧
    (∀ frac, 0 ≤ frac → frac < radix → ∃ f, factor frac = some f ∧ radix ≤ f ∧ f ≤ 2 * radix ∧
      anchorTarget * f.toNat * 2 ^ maxHalflives.toNat < 2 ^ 512) ∧
    (∀ height secs secs', 1 ≤ height → secs ≤ secs' → InRange params height secs →
      InRange params height secs' → ∀ target target',
        Retargets params anchorTarget height secs target →
        Retargets params anchorTarget height secs' target' → target ≤ target') ∧
    (0 ≤ params.idealBlockTimeSecs →
      ∀ height height' secs, 1 ≤ height → height ≤ height' → InRange params height secs →
        InRange params height' secs → ∀ target target',
          Retargets params anchorTarget height secs target →
          Retargets params anchorTarget height' secs target' → target' ≤ target) ∧
    (0 ≤ params.idealBlockTimeSecs → params.idealBlockTimeSecs ≤ 2 ^ 46 →
      ∀ height anchorTimestampMs timestampMs : UInt64,
        InRange params height.toNat (elapsedSecs anchorTimestampMs timestampMs)) := by
  -- within range the result is the decoded target
  have hretargets : ∀ {height secs}, 1 ≤ height → InRange params height secs → ∀ target,
      Retargets params anchorTarget height secs target ↔
        target = decodedTarget params anchorTarget height secs := by
    intro height secs hheight hrange target
    have hok := toTarget_limited hlimit hmax anchorTarget height secs
    unfold Retargets
    rw [nextTarget_eq hhalflife hanchor hheight hrange]
    refine ⟨?_, ?_⟩
    · rintro ⟨bits, ⟨rfl⟩, hbits⟩
      exact Except.ok.inj (hbits.symm.trans hok)
    · rintro rfl
      exact ⟨_, rfl, hok⟩
  refine ⟨?_, ?_, ?_, ?_, fun hpos hle => inRange_of_uint64 hpos hle⟩
  · -- at least 1 and at most the limit
    intro height secs hheight hrange
    exact ⟨_, (hretargets hheight hrange _).mpr rfl, decodedTarget_bounds hlimit hmax⟩
  · -- the factor lies between 1 and 2 and the product fits 512 bits
    intro frac hfrac hlt
    have hcubic := cubic_nonneg hfrac
    have hcubic' := cubic_le hfrac hlt
    have hf : radix + cubic frac ≤ 2 * radix := by omega
    exact ⟨_, factor_eq hfrac hlt, by omega, hf, shifted_lt (product_lt hanchor hf) le_rfl⟩
  · -- later blocks get easier targets
    intro height secs secs' hheight hsecs hrange hrange' target target' h h'
    rw [(hretargets hheight hrange _).mp h, (hretargets hheight hrange' _).mp h']
    exact decodedTarget_mono hhalflife hlimit (by omega)
  · -- higher blocks get harder ones
    intro hideal height height' secs hheight hheights hrange hrange' target target' h h'
    rw [(hretargets hheight hrange _).mp h, (hretargets (hheight.trans hheights) hrange' _).mp h']
    have hscheduled : params.idealBlockTimeSecs * (height : ℤ)
        ≤ params.idealBlockTimeSecs * (height' : ℤ) :=
      mul_le_mul_of_nonneg_left (by exact_mod_cast hheights) hideal
    exact decodedTarget_mono hhalflife hlimit (by omega)

/-- With a half-life of two hours and blocks a second apart: an hour behind schedule the target is
about the anchor times the root of two, after another hour it is twice the anchor, and a block an
hour higher at the same time is on schedule. -/
theorem retarget_bounded_monotone_late :
    (∃ target, Retargets ⟨1, 7200, U256.max⟩ (2 ^ 200) 1000 4600 target ∧
      1 ≤ target ∧ target ≤ U256.max) ∧
    (∃ f, factor 32768 = some f ∧ radix ≤ f ∧ f ≤ 2 * radix ∧
      2 ^ 200 * f.toNat * 2 ^ maxHalflives.toNat < 2 ^ 512) ∧
    (Retargets ⟨1, 7200, U256.max⟩ (2 ^ 200) 1000 4600 (92674 * 2 ^ 184) ∧
      Retargets ⟨1, 7200, U256.max⟩ (2 ^ 200) 1000 8200 (2 ^ 201) ∧ 92674 * 2 ^ 184 ≤ 2 ^ 201) ∧
    (Retargets ⟨1, 7200, U256.max⟩ (2 ^ 200) 4600 4600 (2 ^ 200) ∧ 2 ^ 200 ≤ 92674 * 2 ^ 184) ∧
    InRange ⟨1, 7200, U256.max⟩ (0xffffffffffffffff : UInt64).toNat
      (elapsedSecs 0 0xffffffffffffffff) := by
  obtain ⟨hbounded, hfactor, hsecs, hheights, hrange⟩ :=
    retarget_bounded_monotone ⟨1, 7200, U256.max⟩ (2 ^ 200) (by decide) (by decide +kernel) le_rfl
      (by decide +kernel)
  have hin₁ : InRange ⟨1, 7200, U256.max⟩ 1000 4600 := ⟨by decide +kernel, by decide +kernel⟩
  have hin₂ : InRange ⟨1, 7200, U256.max⟩ 1000 8200 := ⟨by decide +kernel, by decide +kernel⟩
  have hin₃ : InRange ⟨1, 7200, U256.max⟩ 4600 4600 := ⟨by decide +kernel, by decide +kernel⟩
  have hlate : Retargets ⟨1, 7200, U256.max⟩ (2 ^ 200) 1000 4600 (92674 * 2 ^ 184) :=
    ⟨436300290, by decide +kernel, by decide +kernel⟩
  have hlater : Retargets ⟨1, 7200, U256.max⟩ (2 ^ 200) 1000 8200 (2 ^ 201) :=
    ⟨436338688, by decide +kernel, by decide +kernel⟩
  have hhigher : Retargets ⟨1, 7200, U256.max⟩ (2 ^ 200) 4600 4600 (2 ^ 200) :=
    ⟨436273152, by decide +kernel, by decide +kernel⟩
  refine ⟨hbounded 1000 4600 (by decide) hin₁, hfactor 32768 (by decide) (by decide),
    ⟨hlate, hlater, ?_⟩, ⟨hhigher, ?_⟩, hrange (by decide) (by decide) _ _ _⟩
  · exact hsecs 1000 4600 8200 (by decide) (by decide) hin₁ hin₂ _ _ hlate hlater
  · exact hheights (by decide) 1000 4600 4600 (by decide) (by decide) hin₁ hin₃ _ _ hlate hhigher

/-- A schedule that runs backwards makes higher blocks easier, and one with blocks `2 ^ 126`
seconds apart overflows where the drift is a single second. -/
theorem interval_out_of_range :
    (InRange ⟨-1, 1, U256.max⟩ 1 0 ∧ InRange ⟨-1, 1, U256.max⟩ 2 0 ∧
      Retargets ⟨-1, 1, U256.max⟩ (2 ^ 200) 1 0 (2 ^ 201) ∧
      Retargets ⟨-1, 1, U256.max⟩ (2 ^ 200) 2 0 (2 ^ 202)) ∧
    I128.Fits ((2 ^ 127 - 1 - 2 ^ 126 * 2) * radix) ∧
      nextTarget ⟨2 ^ 126, 1, U256.max⟩ 1 2 (2 ^ 127 - 1) = none := by
  refine ⟨⟨?_, ?_, ⟨0x1a020000, ?_, ?_⟩, ⟨0x1a040000, ?_, ?_⟩⟩, ?_, ?_⟩
  · exact ⟨by decide +kernel, by decide +kernel⟩
  · exact ⟨by decide +kernel, by decide +kernel⟩
  all_goals decide +kernel

end Asert

end Chainname
