import Mathlib.Algebra.Order.Group.Nat
import Mathlib.Algebra.Group.Basic

/-!
# Alignment

Rounding up to a multiple of an alignment.
-/

/-- The least multiple of `a` from `n` on. -/
def alignUp (n a : ℕ) : ℕ := (n + a - 1) / a * a

namespace alignUp

variable {n k a : ℕ}

theorem dvd : a ∣ alignUp n a := Nat.dvd_mul_left _ _

theorem le (ha : 0 < a) : n ≤ alignUp n a := by
  have h := Nat.div_add_mod (n + a - 1) a
  have hmod := Nat.mod_lt (n + a - 1) ha
  rw [Nat.mul_comm] at h
  unfold alignUp
  omega

/-- Rounding up stays below every multiple that is not exceeded yet. -/
theorem le_of_dvd (ha : 0 < a) (hdvd : a ∣ k) (h : n ≤ k) : alignUp n a ≤ k := by
  obtain ⟨c, rfl⟩ := hdvd
  have hdiv : (n + a - 1) / a ≤ c := by
    rw [Nat.div_le_iff_le_mul_add_pred ha]
    omega
  calc alignUp n a ≤ c * a := Nat.mul_le_mul_right a hdiv
    _ = a * c := Nat.mul_comm c a

theorem eq_self (ha : 0 < a) (hdvd : a ∣ n) : alignUp n a = n :=
  Nat.le_antisymm (le_of_dvd ha hdvd (Nat.le_refl n)) (le ha)

/-- A coarser alignment rounds up further. -/
theorem le_alignUp {b : ℕ} (ha : 0 < a) (hb : 0 < b) (hdvd : a ∣ b) :
    alignUp n a ≤ alignUp n b :=
  le_of_dvd ha (Nat.dvd_trans hdvd dvd) (le hb)

theorem mono (ha : 0 < a) (h : n ≤ k) : alignUp n a ≤ alignUp k a :=
  le_of_dvd ha dvd (h.trans (le ha))

end alignUp
