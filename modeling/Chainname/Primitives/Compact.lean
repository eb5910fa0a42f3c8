import Mathlib.Data.Nat.Bitwise
import Chainname.Library.Rounding
import Chainname.Primitives.Work

/-!
# Encoding compact targets

`CompactTarget.fromTarget` writes a 256-bit target as an exponent byte and a 24-bit mantissa. The
top bit of the mantissa is reserved for a sign, so that a mantissa with this bit set gives up a
byte and the exponent is raised.

Whatever the target, the encoding has `signedBytes` as its exponent, the number of bytes of the
target with a sign bit before it, and the `leading` bits of the target as its mantissa
(`toNat_fromTarget`). Decoding it gives the target rounded down to the grid of mantissas below
`2 ^ 23` and exponents to base 256, and every decodable encoding is on this grid: so the codec
rounds down to what can be encoded at all (`rounded_roundsDown`).
-/

namespace Chainname

namespace CompactTarget

/-- An encoding of an exponent and a mantissa. -/
def pack (exponent mantissa : ℕ) : UInt32 :=
  UInt32.ofNat (exponent <<< 24 ||| (mantissa &&& 0x007fffff))

/-- Encodes a full target into compact form, rounding down. -/
def fromTarget (target : ℕ) : UInt32 :=
  if target = 0 then 0
  else
    let bits := 256 - U256.leadingZeros target
    let exponent := (bits + 7) / 8
    let mantissa :=
      if exponent ≤ 3 then target <<< (8 * (3 - exponent)) &&& 0x00ffffff
      else target >>> (8 * (exponent - 3)) &&& 0x00ffffff
    -- the top mantissa bit is the encoding's sign bit and must stay clear
    if mantissa &&& 0x00800000 ≠ 0 then pack (exponent + 1) (mantissa >>> 8)
    else pack exponent mantissa

/-- The targets that some encoding decodes to. -/
def decodable : Set ℕ := {d | ∃ raw, toTarget raw = .ok d}

/-- The bytes of a target with a sign bit before it. -/
def signedBytes (target : ℕ) : ℕ := (target.log2 + 1) / 8 + 1

/-- A target of so many bytes as a mantissa: its first three. -/
def window (target bytes : ℕ) : ℕ :=
  if bytes ≤ 3 then target * 2 ^ (8 * (3 - bytes)) else target / 2 ^ (8 * (bytes - 3))

/-- The bits of a target that its mantissa keeps. -/
def leading (target : ℕ) : ℕ := window target (signedBytes target)

/-! ### Bits -/

theorem and_sign_ne_zero {m : ℕ} (hm : m < 2 ^ 24) : m &&& 0x00800000 ≠ 0 ↔ 2 ^ 23 ≤ m := by
  have hbit : m &&& 2 ^ 23 = (m.testBit 23).toNat * 2 ^ 23 := Nat.and_two_pow m 23
  rw [show (0x00800000 : ℕ) = 2 ^ 23 from rfl, hbit, Nat.testBit_eq_decide_div_mod_eq]
  by_cases h : m / 2 ^ 23 % 2 = 1
  · rw [decide_eq_true h]
    show 1 * 2 ^ 23 ≠ 0 ↔ 2 ^ 23 ≤ m
    omega
  · rw [decide_eq_false h]
    show 0 * 2 ^ 23 ≠ 0 ↔ 2 ^ 23 ≤ m
    omega

theorem and_mantissa (m : ℕ) : m &&& 0x00ffffff = m % 2 ^ 24 :=
  Nat.and_two_pow_sub_one_eq_mod m 24

theorem toNat_pack {exponent mantissa : ℕ} (he : exponent < 2 ^ 8) (hm : mantissa < 2 ^ 23) :
    (pack exponent mantissa).toNat = exponent * 2 ^ 24 + mantissa := by
  have hkeep : mantissa &&& 0x007fffff = mantissa := Nat.and_two_pow_sub_one_of_lt_two_pow hm
  have hor : exponent <<< 24 ||| mantissa = exponent <<< 24 + mantissa :=
    (Nat.shiftLeft_add_eq_or_of_lt (by omega) exponent).symm
  unfold pack
  rw [hkeep, hor, Nat.shiftLeft_eq, UInt32.toNat_ofNat', Nat.mod_eq_of_lt (by omega)]

/-- The size of a target in bits, read from either end. -/
theorem bits_eq {target : ℕ} (hpos : target ≠ 0) (hle : target ≤ U256.max) :
    256 - U256.leadingZeros target = target.log2 + 1 := by
  have hlog : target.log2 < 256 := (Nat.log2_lt hpos).mpr (by
    have hmax := U256.max_add_one
    omega)
  unfold U256.leadingZeros
  rw [if_neg hpos]
  omega

theorem two_pow_log2_le {target : ℕ} (hpos : target ≠ 0) : 2 ^ target.log2 ≤ target :=
  (Nat.le_log2 hpos).mp le_rfl

theorem lt_two_pow_log2 {target : ℕ} (hpos : target ≠ 0) : target < 2 ^ (target.log2 + 1) :=
  (Nat.log2_lt hpos).mp (Nat.lt_succ_self _)

/-- The size of a target in bits, as bytes with a sign bit. -/
theorem signedBytes_bounds (target : ℕ) : target.log2 + 1 < 8 * signedBytes target ∧
    8 * signedBytes target ≤ target.log2 + 1 + 8 := by
  unfold signedBytes
  omega

theorem signedBytes_le {target : ℕ} (hpos : target ≠ 0) (hle : target ≤ U256.max) :
    signedBytes target ≤ 33 := by
  have hmax := U256.max_add_one
  have hlog : target.log2 < 256 := (Nat.log2_lt hpos).mpr (by omega)
  unfold signedBytes
  omega

/-! ### Mantissas -/

/-- One byte more in the count is one byte less in the mantissa. -/
theorem window_succ (target bytes : ℕ) : window target (bytes + 1) = window target bytes / 256 := by
  have hbyte : (256 : ℕ) = 2 ^ 8 := rfl
  unfold window
  by_cases h : bytes ≤ 2
  · have hpow : 8 * (3 - bytes) = 8 * (3 - (bytes + 1)) + 8 := by omega
    rw [if_pos (by omega), if_pos (by omega), hpow, Nat.pow_add, ← Nat.mul_assoc, hbyte,
      Nat.mul_div_cancel _ (Nat.pow_pos Nat.two_pos)]
  · -- past three bytes the window cuts one byte more
    rw [if_neg (by omega)]
    split
    · -- three bytes are the mantissa itself
      have hthree : bytes = 3 := by omega
      subst hthree
      show target / 2 ^ 8 = target * 2 ^ 0 / 256
      rw [Nat.pow_zero, Nat.mul_one]
      rfl
    · rw [hbyte, Nat.div_div_eq_div_mul, ← Nat.pow_add]
      congr 2
      omega

/-- The highest bit of a target is the highest bit of its mantissa. -/
theorem window_bounds {target bytes top : ℕ} (hpos : target ≠ 0)
    (htop : target.log2 + 24 = 8 * bytes + top) :
    2 ^ top ≤ window target bytes ∧ window target bytes < 2 ^ (top + 1) := by
  have hge := two_pow_log2_le hpos
  have hlt := lt_two_pow_log2 hpos
  unfold window
  split
  · -- up to three bytes the target is shifted up into the window
    next hsmall =>
    have hsplit : top = target.log2 + 8 * (3 - bytes) := by omega
    rw [hsplit]
    refine ⟨?_, ?_⟩
    · rw [Nat.pow_add]
      exact Nat.mul_le_mul_right _ hge
    · calc target * 2 ^ (8 * (3 - bytes))
          < 2 ^ (target.log2 + 1) * 2 ^ (8 * (3 - bytes)) :=
            Nat.mul_lt_mul_of_pos_right hlt (Nat.pow_pos Nat.two_pos)
        _ = 2 ^ (target.log2 + 8 * (3 - bytes) + 1) := by
            rw [← Nat.pow_add, Nat.add_right_comm]
  · -- past three bytes its low bytes are cut off
    next hlarge =>
    have hsplit : target.log2 = top + 8 * (bytes - 3) := by omega
    rw [hsplit] at hge hlt
    refine ⟨?_, ?_⟩
    · refine (Nat.le_div_iff_mul_le (Nat.pow_pos Nat.two_pos)).mpr ?_
      rw [← Nat.pow_add]
      exact hge
    · refine (Nat.div_lt_iff_lt_mul (Nat.pow_pos Nat.two_pos)).mpr ?_
      rw [← Nat.pow_add, Nat.add_right_comm]
      exact hlt

/-- **The mantissa has its highest byte in use, and the sign bit clear.** -/
theorem leading_bounds {target : ℕ} (hpos : target ≠ 0) :
    2 ^ 15 ≤ leading target ∧ leading target < 2 ^ 23 := by
  obtain ⟨hlower, hupper⟩ := signedBytes_bounds target
  have htop : target.log2 + 24
      = 8 * signedBytes target + (target.log2 + 24 - 8 * signedBytes target) := by omega
  obtain ⟨hge, hlt⟩ := window_bounds hpos htop
  refine ⟨le_trans ?_ hge, hlt.trans_le ?_⟩
  · exact Nat.pow_le_pow_right Nat.two_pos (by omega)
  · exact Nat.pow_le_pow_right Nat.two_pos (by omega)

/-! ### The encoder -/

/-- What the encoder shifts is the window, which fits in three bytes. -/
theorem shifted_eq {target bytes : ℕ} (hfits : window target bytes < 2 ^ 24) :
    (if bytes ≤ 3 then target <<< (8 * (3 - bytes)) &&& 0x00ffffff
      else target >>> (8 * (bytes - 3)) &&& 0x00ffffff) = window target bytes := by
  unfold window at hfits ⊢
  split
  · next hsmall =>
    rw [if_pos hsmall] at hfits
    rw [and_mantissa, Nat.shiftLeft_eq, Nat.mod_eq_of_lt hfits]
  · next hlarge =>
    rw [if_neg hlarge] at hfits
    rw [and_mantissa, Nat.shiftRight_eq_div_pow, Nat.mod_eq_of_lt hfits]

/-- **What the encoder writes**: the bytes with a sign bit, and the leading bits. -/
theorem toNat_fromTarget {target : ℕ} (hpos : target ≠ 0) (hle : target ≤ U256.max) :
    (fromTarget target).toNat = signedBytes target * 2 ^ 24 + leading target := by
  have hbytes := signedBytes_le hpos hle
  have hleading := (leading_bounds hpos).2
  unfold fromTarget
  rw [if_neg hpos]
  dsimp only
  rw [bits_eq hpos hle]
  by_cases hfull : (target.log2 + 1) % 8 = 0
  · -- the highest byte is full, so that its top bit would be taken for a sign
    have hsucc : signedBytes target = (target.log2 + 1 + 7) / 8 + 1 := by
      unfold signedBytes
      omega
    generalize (target.log2 + 1 + 7) / 8 = bytes at hsucc
    have htop : target.log2 + 24 = 8 * bytes + 23 := by
      have hbounds := signedBytes_bounds target
      omega
    obtain ⟨hsign, hfits⟩ := window_bounds hpos htop
    rw [shifted_eq hfits, if_pos ((and_sign_ne_zero hfits).mpr hsign), Nat.shiftRight_eq_div_pow,
      show (2 : ℕ) ^ 8 = 256 from rfl, ← window_succ, ← hsucc]
    exact toNat_pack (by omega) hleading
  · -- the top bit is free, so the window is the mantissa
    have hsame : (target.log2 + 1 + 7) / 8 = signedBytes target := by
      unfold signedBytes
      omega
    rw [hsame]
    have hfits : window target (signedBytes target) < 2 ^ 24 := hleading.trans (by decide)
    have hclear : ¬ 2 ^ 23 ≤ window target (signedBytes target) := Nat.not_le.mpr hleading
    rw [shifted_eq hfits, if_neg (mt (and_sign_ne_zero hfits).mp hclear)]
    exact toNat_pack (by omega) hleading

/-! ### The decoder -/

theorem exponent_eq {raw : UInt32} {exponent mantissa : ℕ}
    (hraw : raw.toNat = exponent * 2 ^ 24 + mantissa) (hm : mantissa < 2 ^ 23) :
    raw.toNat >>> 24 = exponent := by
  rw [hraw, Nat.shiftRight_eq_div_pow]
  omega

theorem mantissa_eq {raw : UInt32} {exponent mantissa : ℕ}
    (hraw : raw.toNat = exponent * 2 ^ 24 + mantissa) (hm : mantissa < 2 ^ 23) :
    raw.toNat &&& 0x00ffffff = mantissa := by
  rw [hraw, and_mantissa]
  omega

/-- Decoding an exponent of at most three bytes. -/
theorem toTarget_of_small {raw : UInt32} {exponent mantissa : ℕ}
    (hraw : raw.toNat = exponent * 2 ^ 24 + mantissa) (hm : mantissa < 2 ^ 23)
    (hsmall : exponent ≤ 3) (hpos : mantissa / 2 ^ (8 * (3 - exponent)) ≠ 0) :
    toTarget raw = .ok (mantissa / 2 ^ (8 * (3 - exponent))) := by
  have hmantissa : mantissa ≠ 0 := by
    rintro rfl
    exact hpos (Nat.zero_div _)
  have hclear := mt (and_sign_ne_zero (hm.trans (by decide))).mp (Nat.not_le.mpr hm)
  unfold toTarget
  rw [exponent_eq hraw hm, mantissa_eq hraw hm]
  dsimp only
  rw [if_neg hclear, if_neg hmantissa, if_pos hsmall, Nat.shiftRight_eq_div_pow, if_neg hpos]

/-- Decoding an exponent of more than three bytes, if what it says fits in 256 bits. -/
theorem toTarget_of_large {raw : UInt32} {exponent mantissa : ℕ}
    (hraw : raw.toNat = exponent * 2 ^ 24 + mantissa) (hm : mantissa < 2 ^ 23)
    (hlarge : 3 < exponent) (hpos : mantissa ≠ 0)
    (hfits : mantissa * 2 ^ (8 * (exponent - 3)) ≤ U256.max) :
    toTarget raw = .ok (mantissa * 2 ^ (8 * (exponent - 3))) := by
  have hclear := mt (and_sign_ne_zero (hm.trans (by decide))).mp (Nat.not_le.mpr hm)
  have hlt : 2 ^ (mantissa.log2 + 8 * (exponent - 3)) < 2 ^ 256 := by
    have hmax := U256.max_add_one
    calc 2 ^ (mantissa.log2 + 8 * (exponent - 3))
        = 2 ^ mantissa.log2 * 2 ^ (8 * (exponent - 3)) := Nat.pow_add _ _ _
      _ ≤ mantissa * 2 ^ (8 * (exponent - 3)) :=
          Nat.mul_le_mul_right _ (two_pow_log2_le hpos)
      _ < 2 ^ 256 := by omega
  -- the highest bit stays below the top, so the shift loses nothing
  have hbits : mantissa.log2 + 8 * (exponent - 3) < 256 :=
    (Nat.pow_lt_pow_iff_right (by decide)).mp hlt
  have hroom : ¬ U256.leadingZeros mantissa < 8 * (exponent - 3) := by
    unfold U256.leadingZeros
    rw [if_neg hpos]
    omega
  unfold toTarget
  rw [exponent_eq hraw hm, mantissa_eq hraw hm]
  dsimp only
  rw [if_neg hclear, if_neg hpos, if_neg (Nat.not_le.mpr hlarge), if_neg (by omega),
    if_neg hroom, Nat.shiftLeft_eq]

/-- Whatever an encoding decodes to is on the grid. -/
theorem decodable_subset : decodable ⊆ Rounding.grid (2 ^ 8) (2 ^ 23) := by
  rintro d ⟨raw, h⟩
  have hmantissa : raw.toNat &&& 0x00ffffff < 2 ^ 24 := by
    rw [and_mantissa]
    exact Nat.mod_lt _ (by decide)
  unfold toTarget at h
  -- the guards of `to_target`: sign, then zero, then overflow
  dsimp only at h
  generalize raw.toNat &&& 0x00ffffff = mantissa at h hmantissa
  split at h
  · cases h
  next hclear =>
  have hm : mantissa < 2 ^ 23 := Nat.not_le.mp (mt (and_sign_ne_zero hmantissa).mpr hclear)
  split at h
  · cases h
  split at h
  · split at h
    · cases h
    · obtain rfl := Except.ok.inj h
      rw [Nat.shiftRight_eq_div_pow]
      -- up to three bytes the mantissa is cut down, which leaves it on the grid
      refine ⟨mantissa / 2 ^ (8 * (3 - raw.toNat >>> 24)), 0, ?_, ?_⟩
      · exact (Nat.div_le_self _ _).trans_lt hm
      · rw [Nat.pow_zero, Nat.mul_one]
  · split at h
    · cases h
    split at h
    · cases h
    · obtain rfl := Except.ok.inj h
      refine ⟨mantissa, raw.toNat >>> 24 - 3, hm, ?_⟩
      rw [Nat.shiftLeft_eq, Nat.pow_mul]

/-! ### The codec -/

/-- A target as it is encoded: without its bytes after the mantissa. -/
def rounded (target : ℕ) : ℕ :=
  target / (2 ^ 8) ^ (signedBytes target - 3) * (2 ^ 8) ^ (signedBytes target - 3)

theorem leading_of_large {target : ℕ} (h : 3 < signedBytes target) :
    leading target = target / (2 ^ 8) ^ (signedBytes target - 3) := by
  unfold leading window
  rw [if_neg (Nat.not_le.mpr h), Nat.pow_mul]

/-- **Decoding what was encoded.** -/
theorem toTarget_fromTarget {target : ℕ} (hpos : target ≠ 0) (hle : target ≤ U256.max) :
    toTarget (fromTarget target) = .ok (rounded target) := by
  have hraw := toNat_fromTarget hpos hle
  obtain ⟨hge, hlt⟩ := leading_bounds hpos
  have hmantissa : leading target ≠ 0 := by omega
  by_cases hsmall : signedBytes target ≤ 3
  · have hexact : leading target / 2 ^ (8 * (3 - signedBytes target)) = target := by
      unfold leading window
      rw [if_pos hsmall, Nat.mul_div_cancel _ (Nat.pow_pos Nat.two_pos)]
    rw [toTarget_of_small hraw hlt hsmall (by rwa [hexact]), hexact]
    unfold rounded
    rw [Nat.sub_eq_zero_of_le hsmall, Nat.pow_zero, Nat.div_one, Nat.mul_one]
  · -- past three bytes the low bytes come back as zeros
    have hlarge := Nat.not_le.mp hsmall
    have hrounded : leading target * 2 ^ (8 * (signedBytes target - 3)) = rounded target := by
      unfold rounded
      rw [leading_of_large hlarge, Nat.pow_mul]
    have hfits : leading target * 2 ^ (8 * (signedBytes target - 3)) ≤ U256.max := by
      rw [hrounded]
      exact (Nat.div_mul_le_self _ _).trans hle
    rw [toTarget_of_large hraw hlt hlarge hmantissa hfits, hrounded]

/-- The encoded target is the target rounded down to the grid. -/
theorem rounded_grid {target : ℕ} (hpos : target ≠ 0) :
    Rounding.RoundsDown (Rounding.grid (2 ^ 8) (2 ^ 23)) target (rounded target) := by
  obtain ⟨hlower, hupper⟩ := signedBytes_bounds target
  have hlt := lt_two_pow_log2 hpos
  refine Rounding.roundsDown_grid (by decide) (by decide) ?_ ?_
  · -- the mantissa has room for what is kept
    by_cases hsmall : signedBytes target ≤ 3
    · rw [Nat.sub_eq_zero_of_le hsmall, Nat.pow_zero, Nat.div_one]
      exact hlt.trans_le (Nat.pow_le_pow_right Nat.two_pos (by omega))
    · rw [← leading_of_large (Nat.not_le.mp hsmall)]
      exact (leading_bounds hpos).2
  · by_cases hsmall : signedBytes target ≤ 3
    · exact Or.inl (Nat.sub_eq_zero_of_le hsmall)
    · -- with one byte more the mantissa would be too large
      right
      refine (Nat.le_div_iff_mul_le (Nat.pow_pos (by decide))).mpr ?_
      rw [← Nat.pow_mul, ← Nat.pow_add]
      exact (Nat.pow_le_pow_right Nat.two_pos (by omega)).trans (two_pow_log2_le hpos)

/-- **The codec rounds down**, to the greatest target not above that can be encoded at all. -/
theorem rounded_roundsDown {target : ℕ} (hpos : target ≠ 0) (hle : target ≤ U256.max) :
    Rounding.RoundsDown decodable target (rounded target) :=
  (rounded_grid hpos).subset decodable_subset ⟨fromTarget target, toTarget_fromTarget hpos hle⟩

/-- Rounding down keeps the highest bit, as a power of two is on the grid. -/
theorem log2_rounded {target : ℕ} (hpos : target ≠ 0) : (rounded target).log2 = target.log2 := by
  have hgrid := rounded_grid hpos
  have hpower : 2 ^ target.log2 ∈ Rounding.grid (2 ^ 8) (2 ^ 23) := by
    refine ⟨2 ^ (target.log2 % 8), target.log2 / 8, ?_, ?_⟩
    · exact Nat.pow_lt_pow_right (by decide) (by omega)
    · rw [← Nat.pow_mul, ← Nat.pow_add, Nat.mod_add_div]
  have hge : 2 ^ target.log2 ≤ rounded target := hgrid.2 ⟨hpower, two_pow_log2_le hpos⟩
  have hne : rounded target ≠ 0 := by
    intro hzero
    rw [hzero] at hge
    exact absurd (Nat.le_zero.mp hge) (Nat.pow_pos Nat.two_pos).ne'
  refine le_antisymm ?_ ((Nat.le_log2 hne).mpr hge)
  exact Nat.le_of_lt_succ ((Nat.log2_lt hne).mpr (hgrid.le.trans_lt (lt_two_pow_log2 hpos)))

theorem rounded_ne_zero {target : ℕ} (hpos : target ≠ 0) (hle : target ≤ U256.max) :
    rounded target ≠ 0 := (toTarget_bounds (toTarget_fromTarget hpos hle)).1

/-- A rounded target is encoded as the target was. -/
theorem fromTarget_rounded {target : ℕ} (hpos : target ≠ 0) (hle : target ≤ U256.max) :
    fromTarget (rounded target) = fromTarget target := by
  have hne := rounded_ne_zero hpos hle
  have hbytes : signedBytes (rounded target) = signedBytes target := by
    unfold signedBytes
    rw [log2_rounded hpos]
  have hleading : leading (rounded target) = leading target := by
    -- rounding keeps the length, hence the mantissa it leaves
    by_cases hsmall : signedBytes target ≤ 3
    · have hexact : rounded target = target := by
        unfold rounded
        rw [Nat.sub_eq_zero_of_le hsmall, Nat.pow_zero, Nat.div_one, Nat.mul_one]
      rw [hexact]
    · have hlarge := Nat.not_le.mp hsmall
      rw [leading_of_large hlarge, leading_of_large (hbytes.symm ▸ hlarge), hbytes]
      unfold rounded
      exact Nat.mul_div_cancel _ (Nat.pow_pos (by decide))
  refine UInt32.toNat_inj.mp ?_
  rw [toNat_fromTarget hne ((rounded_grid hpos).le.trans hle), toNat_fromTarget hpos hle, hbytes,
    hleading]

theorem window_mono {target target' : ℕ} (h : target ≤ target') (bytes : ℕ) :
    window target bytes ≤ window target' bytes := by
  unfold window
  split
  · exact Nat.mul_le_mul_right _ h
  · exact Nat.div_le_div_right h

/-- Encodings are in the order of the targets. -/
theorem toNat_fromTarget_mono {target target' : ℕ} (hpos : target ≠ 0) (h : target ≤ target')
    (hle : target' ≤ U256.max) : (fromTarget target).toNat ≤ (fromTarget target').toNat := by
  have hpos' : target' ≠ 0 := by omega
  have hlog : target.log2 ≤ target'.log2 :=
    (Nat.le_log2 hpos').mpr ((two_pow_log2_le hpos).trans h)
  have hbytes : signedBytes target ≤ signedBytes target' := by
    unfold signedBytes
    omega
  rw [toNat_fromTarget hpos (h.trans hle), toNat_fromTarget hpos' hle]
  -- of one length the mantissas decide
  obtain heq | hlt := hbytes.eq_or_lt
  · unfold leading
    rw [heq]
    exact Nat.add_le_add_left (window_mono h _) _
  · -- a larger exponent outweighs any mantissa
    have hmantissa := (leading_bounds hpos).2
    omega

/-- **The compact target codec rounds down tightly.** Encoding a target and decoding it gives the
greatest target not above that any encoding decodes to, and encoding the result changes nothing.
Encoding is monotone, in what it decodes to and in the encodings. Whatever an encoding decodes to
is encoded exactly, and as every target that rounds to it. -/
theorem compact_codec :
    (∀ target, target ≠ 0 → target ≤ U256.max → ∃ d, toTarget (fromTarget target) = .ok d ∧
      IsGreatest {x | (∃ raw, toTarget raw = .ok x) ∧ x ≤ target} d ∧
      fromTarget d = fromTarget target) ∧
    (∀ target target', target ≠ 0 → target ≤ target' → target' ≤ U256.max →
      (fromTarget target).toNat ≤ (fromTarget target').toNat ∧
        ∀ d d', toTarget (fromTarget target) = .ok d → toTarget (fromTarget target') = .ok d' →
          d ≤ d') ∧
    ∀ raw d, toTarget raw = .ok d → toTarget (fromTarget d) = .ok d ∧
      ∀ target, target ≠ 0 → target ≤ U256.max → toTarget (fromTarget target) = .ok d →
        fromTarget target = fromTarget d := by
  refine ⟨?_, ?_, ?_⟩
  · intro target hpos hle
    exact ⟨rounded target, toTarget_fromTarget hpos hle, rounded_roundsDown hpos hle,
      fromTarget_rounded hpos hle⟩
  · intro target target' hpos h hle
    refine ⟨toNat_fromTarget_mono hpos h hle, fun d d' hd hd' => ?_⟩
    have hpos' : target' ≠ 0 := by omega
    rw [toTarget_fromTarget hpos (h.trans hle)] at hd
    rw [toTarget_fromTarget hpos' hle] at hd'
    obtain rfl := Except.ok.inj hd
    obtain rfl := Except.ok.inj hd'
    exact (rounded_grid hpos).mono (rounded_grid hpos') h
  · intro raw d hd
    obtain ⟨hpos, hle⟩ := toTarget_bounds hd
    -- a target that has an encoding is rounded to itself
    have hexact : rounded d = d := (rounded_roundsDown hpos hle).eq_of_mem ⟨raw, hd⟩
    refine ⟨(toTarget_fromTarget hpos hle).trans (congrArg Except.ok hexact), ?_⟩
    intro target hpos' hle' htarget
    rw [toTarget_fromTarget hpos' hle'] at htarget
    obtain rfl := Except.ok.inj htarget
    exact (fromTarget_rounded hpos' hle').symm

end CompactTarget

end Chainname
