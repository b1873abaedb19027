import Mathlib.Order.Basic

/-!
# Recursive locks

A recursive lock is free or belongs to one thread, which may lock it again. The depth
of a lock in a thread is how often the thread still has to unlock it.
-/

/-- The owner of a lock and how often it locked it again, `none` if it is free. -/
abbrev RecursiveLock (Thread : Type*) := Option (Thread × ℕ)

namespace RecursiveLock

variable {Thread : Type*} [DecidableEq Thread]

/-- `none` if the thread has to wait. -/
def lock (t : Thread) : RecursiveLock Thread → Option (RecursiveLock Thread)
  | none => some (some (t, 0))
  | some (u, again) => if u = t then some (some (t, again + 1)) else none

/-- `none` if the lock is not the thread's to unlock. -/
def unlock (t : Thread) : RecursiveLock Thread → Option (RecursiveLock Thread)
  | none => none
  | some (u, again) =>
    if u = t then
      match again with
      | 0 => some none
      | again + 1 => some (some (t, again))
    else none

/-- How often a thread holds the lock. -/
def depth (t : Thread) : RecursiveLock Thread → ℕ
  | none => 0
  | some (u, again) => if u = t then again + 1 else 0

/-- Locking is seen by the thread that locks only. -/
theorem depth_lock {t : Thread} {l l' : RecursiveLock Thread} (h : lock t l = some l')
    (u : Thread) : depth u l' = depth u l + if u = t then 1 else 0 := by
  cases l with
  | none =>
    obtain rfl : some (t, 0) = l' := by simpa [lock] using h
    simp [depth, eq_comm]
  | some l =>
    obtain ⟨v, again⟩ := l
    have hvt : v = t := by
      by_contra hne
      simp [lock, hne] at h
    subst hvt
    obtain rfl : some (v, again + 1) = l' := by simpa [lock] using h
    by_cases huv : u = v
    · simp [depth, huv]
    · simp [depth, huv, Ne.symm huv]

/-- Unlocking undoes one locking. -/
theorem depth_unlock {t : Thread} {l l' : RecursiveLock Thread} (h : unlock t l = some l')
    (u : Thread) : depth u l' + (if u = t then 1 else 0) = depth u l := by
  cases l with
  | none => simp [unlock] at h
  | some l =>
    obtain ⟨v, again⟩ := l
    have hvt : v = t := by
      by_contra hne
      simp [unlock, hne] at h
    subst hvt
    cases again with
    | zero =>
      obtain rfl : none = l' := by simpa [unlock] using h
      simp [depth, eq_comm]
    | succ again =>
      obtain rfl : some (v, again) = l' := by simpa [unlock] using h
      by_cases huv : u = v
      · simp [depth, huv]
      · simp [depth, huv, Ne.symm huv]

/-- A thread that holds a lock can unlock it. -/
theorem exists_unlock {t : Thread} {l : RecursiveLock Thread} (h : 0 < depth t l) :
    ∃ l', unlock t l = some l' := by
  cases l with
  | none => simp [depth] at h
  | some l =>
    obtain ⟨v, again⟩ := l
    obtain rfl : v = t := by
      by_contra hne
      simp [depth, hne] at h
    cases again with
    | zero => exact ⟨none, by simp [unlock]⟩
    | succ again => exact ⟨some (v, again), by simp [unlock]⟩

/-- One thread holds a lock at a time. -/
theorem eq_of_depth_pos {t u : Thread} {l : RecursiveLock Thread} (ht : 0 < depth t l)
    (hu : 0 < depth u l) : t = u := by
  cases l with
  | none => simp [depth] at ht
  | some l =>
    obtain ⟨v, again⟩ := l
    have htv : v = t := by
      by_contra hne
      simp [depth, hne] at ht
    have huv : v = u := by
      by_contra hne
      simp [depth, hne] at hu
    exact htv.symm.trans huv

/-- A thread has to wait for another one. -/
theorem exists_of_lock_eq_none {t : Thread} {l : RecursiveLock Thread} (h : lock t l = none) :
    ∃ u, u ≠ t ∧ 0 < depth u l := by
  cases l with
  | none => simp [lock] at h
  | some l =>
    obtain ⟨u, again⟩ := l
    refine ⟨u, fun hu => ?_, by simp [depth]⟩
    simp [lock, hu] at h

/-- A lock that no thread holds is free. -/
theorem eq_none_of_depth_eq_zero {l : RecursiveLock Thread} (h : ∀ t, depth t l = 0) :
    l = none := by
  cases l with
  | none => rfl
  | some l =>
    have howner := h l.1
    simp [depth] at howner

end RecursiveLock
