import Mathlib.Data.List.Basic
import Mathlib.Data.List.Count

/-!
# Traces of locks

A trace records how locks are locked and unlocked. It is replayed on the locks that are
still to be unlocked, and fails where an unlock is not of the lock that was locked last.
-/

/-- A lock is locked or unlocked. -/
inductive LockEvent (Lock : Type*)
  | lock (l : Lock)
  | unlock (l : Lock)
  deriving DecidableEq, Repr

namespace LockEvent

variable {Lock : Type*} [DecidableEq Lock]

/-- The locks to unlock after a trace, the last one first. -/
def replay : List Lock → List (LockEvent Lock) → Option (List Lock)
  | held, [] => some held
  | held, lock l :: es => replay (l :: held) es
  | [], unlock _ :: _ => none
  | k :: held, unlock l :: es => if l = k then replay held es else none

@[simp] theorem replay_nil (held : List Lock) : replay held [] = some held := by
  cases held <;> rfl

/-- A trace that ends as it began and unlocks in the reverse order. -/
def Balanced (es : List (LockEvent Lock)) : Prop := replay [] es = some []

instance (es : List (LockEvent Lock)) : Decidable (Balanced es) :=
  inferInstanceAs (Decidable (_ = _))

theorem replay_append {held held' : List Lock} {es : List (LockEvent Lock)}
    (h : replay held es = some held') (fs : List (LockEvent Lock)) :
    replay held (es ++ fs) = replay held' fs := by
  induction held, es using replay.induct with
  | case1 held =>
    rw [replay_nil] at h
    obtain rfl := Option.some.inj h
    rfl
  | case2 held l es ih =>
    rw [replay] at h
    exact ih h
  | case3 => cases h
  | case4 held l es ih =>
    rw [replay, if_pos rfl] at h
    rw [List.cons_append, replay, if_pos rfl]
    exact ih h
  | case5 k held l es hne =>
    rw [replay, if_neg hne] at h
    cases h

/-- Locks that were held before stay held. -/
theorem replay_held {held held' : List Lock} {es : List (LockEvent Lock)}
    (h : replay held es = some held') (below : List Lock) :
    replay (held ++ below) es = some (held' ++ below) := by
  induction held, es using replay.induct with
  | case1 held =>
    rw [replay_nil] at h ⊢
    rw [Option.some.inj h]
  | case2 held l es ih =>
    rw [replay] at h ⊢
    exact ih h
  | case3 => cases h
  | case4 held l es ih =>
    rw [replay, if_pos rfl] at h
    rw [List.cons_append, replay, if_pos rfl]
    exact ih h
  | case5 k held l es hne =>
    rw [replay, if_neg hne] at h
    cases h

/-- What was locked and not unlocked is still to be unlocked. -/
theorem count_replay {held held' : List Lock} {es : List (LockEvent Lock)}
    (h : replay held es = some held') (k : Lock) :
    held.count k + es.count (lock k) = held'.count k + es.count (unlock k) := by
  induction held, es using replay.induct with
  | case1 held =>
    rw [replay_nil] at h
    obtain rfl := Option.some.inj h
    rfl
  | case2 held l es ih =>
    rw [replay] at h
    have hrest := ih h
    rw [List.count_cons] at hrest
    simp only [List.count_cons, beq_iff_eq, lock.injEq, reduceCtorEq, if_false] at hrest ⊢
    omega
  | case3 => cases h
  | case4 held l es ih =>
    rw [replay, if_pos rfl] at h
    have hrest := ih h
    simp only [List.count_cons, beq_iff_eq, unlock.injEq, reduceCtorEq, if_false] at hrest ⊢
    omega
  | case5 k held l es hne =>
    rw [replay, if_neg hne] at h
    cases h

end LockEvent
