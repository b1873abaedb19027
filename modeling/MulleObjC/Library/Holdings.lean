import Mathlib.Algebra.BigOperators.Group.Finset.Piecewise
import Mathlib.Data.Fintype.Defs
import Mathlib.Data.List.Count

/-!
# Slots that own what they hold

A slot holds a resource or nothing. Changing a slot is reported by what is released
and what is acquired, so that the number of owning slots with a resource follows
from the reports.
-/

namespace Holdings

/-- What is reported about a resource. -/
inductive Event (Resource : Type*)
  | acquired (r : Resource)
  | released (r : Resource)
  deriving DecidableEq

variable {Slot Resource : Type*} [DecidableEq Slot] [DecidableEq Resource]

/-- The number of owning slots that hold a resource. -/
def count (owned : Finset Slot) (held : Slot → Option Resource) (r : Resource) : ℕ :=
  (owned.filter fun v => held v = some r).card

/-- How often a resource was acquired. -/
def acquisitions (es : List (Event Resource)) (r : Resource) : ℕ := es.count (.acquired r)

/-- How often a resource was released. -/
def releases (es : List (Event Resource)) (r : Resource) : ℕ := es.count (.released r)

variable {owned : Finset Slot} {held held' : Slot → Option Resource} {r : Resource}

@[simp] theorem acquisitions_nil : acquisitions ([] : List (Event Resource)) r = 0 := rfl

@[simp] theorem releases_nil : releases ([] : List (Event Resource)) r = 0 := rfl

@[simp] theorem acquisitions_append (es fs : List (Event Resource)) :
    acquisitions (es ++ fs) r = acquisitions es r + acquisitions fs r := List.count_append

@[simp] theorem releases_append (es fs : List (Event Resource)) :
    releases (es ++ fs) r = releases es r + releases fs r := List.count_append

@[simp] theorem acquisitions_acquired (q : Resource) (es : List (Event Resource)) :
    acquisitions (.acquired q :: es) r = acquisitions es r + if q = r then 1 else 0 := by
  simp [acquisitions, List.count_cons]

@[simp] theorem acquisitions_released (q : Resource) (es : List (Event Resource)) :
    acquisitions (.released q :: es) r = acquisitions es r := by
  simp [acquisitions]

@[simp] theorem releases_acquired (q : Resource) (es : List (Event Resource)) :
    releases (.acquired q :: es) r = releases es r := by
  simp [releases]

@[simp] theorem releases_released (q : Resource) (es : List (Event Resource)) :
    releases (.released q :: es) r = releases es r + if q = r then 1 else 0 := by
  simp [releases, List.count_cons]

omit [DecidableEq Slot] in
theorem count_congr (h : ∀ v ∈ owned, held v = held' v) :
    count owned held r = count owned held' r := by
  unfold count
  congr 1
  apply Finset.filter_congr
  intro v hv
  rw [h v hv]

omit [DecidableEq Slot] in
theorem count_eq_zero (h : ∀ v ∈ owned, held v ≠ some r) : count owned held r = 0 := by
  rw [count, Finset.card_eq_zero, Finset.filter_eq_empty_iff]
  intro v hv
  exact h v hv

/-- Changing an owning slot loses what it held and gains what it holds now. -/
theorem count_update (held : Slot → Option Resource) {v : Slot} (hv : v ∈ owned)
    (x : Option Resource) :
    count owned (Function.update held v x) r + (if held v = some r then 1 else 0) =
      count owned held r + (if x = some r then 1 else 0) := by
  have hsplit : ∀ f : Slot → Option Resource, count owned f r =
      (if f v = some r then 1 else 0) + ∑ w ∈ owned.erase v, if f w = some r then 1 else 0 := by
    intro f
    rw [count, Finset.card_filter]
    exact (Finset.add_sum_erase owned (fun w => if f w = some r then 1 else 0) hv).symm
  have hrest : (∑ w ∈ owned.erase v, if Function.update held v x w = some r then 1 else 0) =
      ∑ w ∈ owned.erase v, if held w = some r then 1 else 0 := by
    apply Finset.sum_congr rfl
    intro w hw
    rw [Function.update_of_ne (Finset.ne_of_mem_erase hw)]
  rw [hsplit, hsplit held, hrest, Function.update_self]
  omega

theorem count_update_of_notMem (held : Slot → Option Resource) {v : Slot} (hv : v ∉ owned)
    (x : Option Resource) : count owned (Function.update held v x) r = count owned held r := by
  apply count_congr
  intro w hw
  exact Function.update_of_ne (ne_of_mem_of_not_mem hw hv) _ _

theorem count_insert (held : Slot → Option Resource) {v : Slot} (hv : v ∉ owned) :
    count (insert v owned) held r = count owned held r + if held v = some r then 1 else 0 := by
  unfold count
  rw [Finset.filter_insert]
  split
  · rw [Finset.card_insert_of_notMem fun hmem => hv (Finset.mem_of_mem_filter v hmem)]
  · rfl

/-- As `count_update`, for slots that hold a part of their contents. -/
theorem count_update_comp [Fintype Slot] {Contents : Type*} (part : Contents → Option Resource)
    (contents : Slot → Contents) (v : Slot) (c : Contents) :
    count Finset.univ (fun w => part (Function.update contents v c w)) r +
        (if part (contents v) = some r then 1 else 0) =
      count Finset.univ (fun w => part (contents w)) r + (if part c = some r then 1 else 0) := by
  have hpart : (fun w => part (Function.update contents v c w)) =
      Function.update (fun w => part (contents w)) v (part c) := by
    funext w
    by_cases hw : w = v
    · subst hw
      simp
    · simp [Function.update_of_ne hw]
  rw [hpart]
  exact count_update (fun w => part (contents w)) (Finset.mem_univ v) (part c)

end Holdings
