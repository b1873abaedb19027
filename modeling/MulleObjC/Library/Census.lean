import Mathlib.Algebra.BigOperators.Fin
import Mathlib.Algebra.Order.BigOperators.Group.Finset

/-!
# A census of local states

Every member of a finite population is in a local state, and a local state is worth a number. A
member that goes on changes the total by the difference.
-/

namespace Census

variable {Member Local : Type*} [Fintype Member]

/-- What all local states are worth together. -/
def total (worth : Local → ℕ) (locals : Member → Local) : ℕ := ∑ t, worth (locals t)

variable (worth : Local → ℕ) (locals : Member → Local)

theorem le_total (t : Member) : worth (locals t) ≤ total worth locals :=
  Finset.single_le_sum (f := fun u => worth (locals u)) (fun _ _ => Nat.zero_le _)
    (Finset.mem_univ t)

theorem total_eq_zero_iff : total worth locals = 0 ↔ ∀ t, worth (locals t) = 0 := by
  simp [total]

/-- A member goes on. -/
theorem total_update [DecidableEq Member] (t : Member) (l : Local) :
    total worth (Function.update locals t l) + worth (locals t) =
      total worth locals + worth l := by
  have hothers : ∑ u ∈ Finset.univ.erase t, worth (Function.update locals t l u) =
      ∑ u ∈ Finset.univ.erase t, worth (locals u) :=
    Finset.sum_congr rfl fun u hu => by rw [Function.update_of_ne (Finset.ne_of_mem_erase hu)]
  have hold := Finset.add_sum_erase Finset.univ (fun u => worth (locals u)) (Finset.mem_univ t)
  have hnew := Finset.add_sum_erase Finset.univ (fun u => worth (Function.update locals t l u))
    (Finset.mem_univ t)
  rw [Function.update_self, hothers] at hnew
  rw [total, total]
  omega

end Census
