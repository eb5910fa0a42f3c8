import Mathlib.Order.Bounds.Basic
import Mathlib.Algebra.Order.Ring.Nat
import Mathlib.Tactic.Ring

/-!
# Rounding down

`RoundsDown S t d` says that `d` is the greatest element of `S` that is not above `t`. Rounding
down is monotone and leaves the elements of `S` where they are, whatever `S` is.

`grid B M` are the numbers that a floating-point format with mantissas below `M` and exponents to
base `B` can write. On it, rounding down is dropping digits: as few of them as leave a quotient
below `M` (`roundsDown_grid`).
-/

namespace Rounding

section Order

variable {α : Type*} [PartialOrder α] {S : Set α} {t t' d d' : α}

/-- `d` is the greatest element of `S` that is not above `t`. -/
def RoundsDown (S : Set α) (t d : α) : Prop := IsGreatest {x | x ∈ S ∧ x ≤ t} d

namespace RoundsDown

theorem mem (h : RoundsDown S t d) : d ∈ S := h.1.1

theorem le (h : RoundsDown S t d) : d ≤ t := h.1.2

theorem mono (h : RoundsDown S t d) (h' : RoundsDown S t' d') (hle : t ≤ t') : d ≤ d' :=
  h'.2 ⟨h.mem, h.le.trans hle⟩

/-- What can be written exactly is. -/
theorem eq_of_mem (h : RoundsDown S t d) (ht : t ∈ S) : d = t :=
  h.le.antisymm (h.2 ⟨ht, le_rfl⟩)

/-- Rounding into a smaller set, if the greatest element is in it. -/
theorem subset {T : Set α} (h : RoundsDown S t d) (hsub : T ⊆ S) (hd : d ∈ T) :
    RoundsDown T t d :=
  ⟨⟨hd, h.le⟩, fun _ hx => h.2 ⟨hsub hx.1, hx.2⟩⟩

end RoundsDown

end Order

section Grid

/-- The numbers with a mantissa below `M` and an exponent to base `B`. -/
def grid (B M : ℕ) : Set ℕ := {d | ∃ m e, m < M ∧ d = m * B ^ e}

/-- **Rounding down to a grid** drops the fewest digits that leave a mantissa. -/
theorem roundsDown_grid {B M t k : ℕ} (hB : 0 < B) (hdvd : B ∣ M) (hsmall : t / B ^ k < M)
    (hfew : k = 0 ∨ M ≤ t / B ^ (k - 1)) :
    RoundsDown (grid B M) t (t / B ^ k * B ^ k) := by
  refine ⟨⟨⟨t / B ^ k, k, hsmall, rfl⟩, Nat.div_mul_le_self t (B ^ k)⟩, ?_⟩
  rintro x ⟨⟨m, e, hm, rfl⟩, hx⟩
  by_cases hke : k ≤ e
  · -- a coarser number is a multiple of what was kept
    have hsplit : m * B ^ e = m * B ^ (e - k) * B ^ k := by
      rw [Nat.mul_assoc, ← Nat.pow_add, Nat.sub_add_cancel hke]
    rw [hsplit] at hx ⊢
    exact Nat.mul_le_mul_right _ ((Nat.le_div_iff_mul_le (Nat.pow_pos hB)).mpr hx)
  · -- a finer number has too few digits to come near
    obtain ⟨q, rfl⟩ := hdvd
    obtain hk | hk := hfew
    · omega
    have hq : q ≤ t / B ^ k := by
      have hpow : B ^ k = B ^ (k - 1) * B := by
        rw [← Nat.pow_succ]
        congr 1
        omega
      calc q = B * q / B := (Nat.mul_div_cancel_left q hB).symm
        _ ≤ t / B ^ (k - 1) / B := Nat.div_le_div_right hk
        _ = t / B ^ k := by rw [Nat.div_div_eq_div_mul, hpow]
    calc m * B ^ e ≤ B * q * B ^ e := Nat.mul_le_mul_right _ hm.le
      _ = q * B ^ (e + 1) := by ring
      _ ≤ q * B ^ k := Nat.mul_le_mul_left _ (Nat.pow_le_pow_right hB (Nat.not_le.mp hke))
      _ ≤ t / B ^ k * B ^ k := Nat.mul_le_mul_right _ hq

end Grid

end Rounding
