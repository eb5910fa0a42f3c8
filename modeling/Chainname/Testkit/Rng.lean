import Mathlib.Data.UInt
import Mathlib.Algebra.Order.Ring.Nat

/-!
# A deterministic pseudo-random generator for simulations

Integer-only and seeded: what a simulation draws is a function of its seed. The arithmetic wraps
at 64 bits.
-/

namespace Chainname.Testkit

/-- A 64-bit linear congruential generator. -/
structure Lcg where
  state : UInt64
  deriving DecidableEq

namespace Lcg

def multiplier : UInt64 := 6364136223846793005

def increment : UInt64 := 1442695040888963407

/-- A generator from a seed. -/
def new (seed : UInt64) : Lcg := ⟨seed ^^^ 0x9E3779B97F4A7C15⟩

/-- The next raw value: the high bits of the next state. -/
def nextU64 (rng : Lcg) : UInt64 × Lcg :=
  let state := rng.state * multiplier + increment
  (state >>> 16, ⟨state⟩)

/-- A value below the bound, zero if the bound is zero. -/
def below (rng : Lcg) (bound : UInt64) : UInt64 × Lcg :=
  if bound = 0 then (0, rng) else (rng.nextU64.1 % bound, rng.nextU64.2)

/-- A value from `low` to `high`, both included. -/
def between (rng : Lcg) (low high : UInt64) : UInt64 × Lcg :=
  if high ≤ low then (low, rng)
  else
    let drawn := rng.below (high - low + 1)
    (low + drawn.1, drawn.2)

/-- True with a probability in parts per thousand. -/
def chancePermille (rng : Lcg) (permille : UInt64) : Bool × Lcg :=
  let drawn := rng.below 1000
  (drawn.1 < permille, drawn.2)

theorem below_lt (rng : Lcg) {bound : UInt64} (hbound : 0 < bound) : (rng.below bound).1 < bound := by
  have hpos : 0 < bound.toNat := UInt64.lt_iff_toNat_lt.mp hbound
  have hne : bound ≠ 0 := fun h => absurd (h ▸ hpos) (by decide)
  unfold below
  rw [if_neg hne, UInt64.lt_iff_toNat_lt, UInt64.toNat_mod]
  exact Nat.mod_lt _ hpos

/-- **What is drawn between two bounds** is between them, also if they span all 64-bit values. -/
theorem between_bounds (rng : Lcg) {low high : UInt64} (h : low ≤ high) :
    low ≤ (rng.between low high).1 ∧ (rng.between low high).1 ≤ high := by
  unfold between
  split
  · -- an empty range gives its lower end
    exact ⟨UInt64.le_refl low, h⟩
  · next hlt =>
    have hlow := UInt64.le_iff_toNat_le.mp h
    have hsub : (high - low).toNat = high.toNat - low.toNat := UInt64.toNat_sub_of_le _ _ h
    have hhigh := high.toNat_lt
    dsimp only
    -- the draw is at most the width, also where the width wraps to 0
    have hdrawn : (rng.below (high - low + 1)).1.toNat ≤ high.toNat - low.toNat := by
      by_cases hfull : high - low + 1 = 0
      · unfold below
        rw [if_pos hfull]
        exact Nat.zero_le _
      · have hlt := rng.below_lt (UInt64.pos_iff_ne_zero.mpr hfull)
        rw [UInt64.lt_iff_toNat_lt, UInt64.toNat_add, hsub] at hlt
        have hone : (1 : UInt64).toNat = 1 := rfl
        rw [hone] at hlt
        have hmod := Nat.mod_le (high.toNat - low.toNat + 1) (2 ^ 64)
        omega
    rw [UInt64.le_iff_toNat_le, UInt64.le_iff_toNat_le, UInt64.toNat_add, Nat.mod_eq_of_lt (by omega)]
    omega

/-- Nothing above both bounds is drawn, in whichever order these are given. -/
theorem between_le_max (rng : Lcg) (low high : UInt64) :
    (rng.between low high).1.toNat ≤ max low.toNat high.toNat := by
  by_cases h : high ≤ low
  · -- without a range the lower bound is the answer
    unfold between
    rw [if_pos h]
    exact le_max_left _ _
  · have hle := (rng.between_bounds (UInt64.le_of_lt (UInt64.not_le.mp h))).2
    exact (UInt64.le_iff_toNat_le.mp hle).trans (le_max_right _ _)

end Lcg

end Chainname.Testkit
