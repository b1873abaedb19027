import Mathlib.Data.List.AList
import MulleObjC.Library.Holdings

/-!
# Maps that own what they hold

An entry of a map owns a resource, or nothing, depending on its key and its value. What
the entries own together changes with an entry by what the old and the new value own.
-/

namespace OwningMap

open Holdings

variable {Key Value Resource : Type*} [DecidableEq Key] [DecidableEq Resource]

/-- The number of entries that own a resource. -/
def owned (owns : Key → Value → Option Resource) (m : AList fun _ : Key => Value)
    (r : Resource) : ℕ :=
  m.entries.countP fun e => owns e.1 e.2 = some r

variable {owns : Key → Value → Option Resource} {m : AList fun _ : Key => Value} {r : Resource}

omit [DecidableEq Key] in
@[simp] theorem owned_empty : owned owns (∅ : AList fun _ : Key => Value) r = 0 := rfl

variable (owns m) in
/-- A new value of a key replaces what the old one owns. -/
theorem owned_insert (k : Key) (v : Value) (r : Resource) :
    owned owns (m.insert k v) r + (if (m.lookup k).bind (owns k) = some r then 1 else 0) =
      owned owns m r + if owns k v = some r then 1 else 0 := by
  have hinsert : owned owns (m.insert k v) r =
      (m.entries.kerase k).countP (fun e => owns e.1 e.2 = some r) +
        if owns k v = some r then 1 else 0 := by
    rw [owned, AList.entries_insert, List.countP_cons]
    simp
  have hentries : owned owns m r =
      (m.entries.kerase k).countP (fun e => owns e.1 e.2 = some r) +
        if (m.lookup k).bind (owns k) = some r then 1 else 0 := by
    by_cases hk : k ∈ m.entries.keys
    · obtain ⟨w, l₁, l₂, hl₁, hentries, herase⟩ := List.exists_of_kerase hk
      have hlookup : m.lookup k = some w := by
        apply AList.mem_lookup_iff.mpr
        simp [hentries]
      rw [owned, herase, hlookup, hentries]
      simp only [List.countP_append, List.countP_cons, Option.bind_some]
      simp
      omega
    · have hlookup : m.lookup k = none := AList.lookup_eq_none.mpr hk
      rw [List.kerase_of_notMem_keys hk, hlookup]
      rfl
  omega

@[simp]
theorem acquisitions_toList (resource : Option Resource) :
    acquisitions (resource.toList.map .acquired) r = if resource = some r then 1 else 0 := by
  cases resource <;> simp

@[simp]
theorem releases_toList_acquired (resource : Option Resource) :
    releases (resource.toList.map .acquired) r = 0 := by
  cases resource <;> simp

@[simp]
theorem releases_toList (resource : Option Resource) :
    releases (resource.toList.map .released) r = if resource = some r then 1 else 0 := by
  cases resource <;> simp

@[simp]
theorem acquisitions_toList_released (resource : Option Resource) :
    acquisitions (resource.toList.map .released) r = 0 := by
  cases resource <;> simp

/-- All that the entries own is released. -/
def giveUp (owns : Key → Value → Option Resource) (m : AList fun _ : Key => Value) :
    List (Event Resource) :=
  m.entries.filterMap fun e => (owns e.1 e.2).map .released

omit [DecidableEq Key] in
theorem releases_giveUp : releases (giveUp owns m) r = owned owns m r := by
  rw [releases, giveUp, owned, List.count_filterMap]
  congr 1
  funext e
  apply Bool.eq_iff_iff.mpr
  cases owns e.1 e.2 <;> simp

omit [DecidableEq Key] in
theorem acquisitions_giveUp : acquisitions (giveUp owns m) r = 0 := by
  rw [acquisitions, List.count_eq_zero, giveUp, List.mem_filterMap]
  rintro ⟨e, -, he⟩
  obtain ⟨q, -, hq⟩ := Option.map_eq_some_iff.mp he
  cases hq

end OwningMap
