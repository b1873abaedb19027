import Mathlib.Data.BitVec
import Mathlib.Data.List.Basic

/-!
# Autorelease pointer arrays

The entries of a pool live in a chain of pages, `_mulle_autoreleasepointerarray`,
linked by `previous`. A page is filled from the bottom; a full page gets a new one
chained in front of it. Explicit removal leaves holes in a page.
-/

namespace MulleObjC.Pool

/-- `MULLE_AUTORELEASEPOINTERARRRAY_N_OBJECTS`, with 8 byte pointers. -/
def nObjects : ℕ := (4096 * 2 - 4 * 8 - 2 * 8) / 8

theorem nObjects_pos : 0 < nObjects := by decide

/-- `struct _mulle_autoreleasepointerarray` without its link. The first `used` slots
are kept; a hole is `none`. A page never holds more than its array has room for. -/
@[ext]
structure PointerArray (Obj : Type*) where
  /-- The slots below `used`. -/
  objects : List (Option Obj)
  /-- The number of entries, as far as it is maintained. -/
  count : BitVec 64
  used_le : objects.length ≤ nObjects

/-- A page and the pages reached through `previous`; `[]` is a NULL pointer. -/
abbrev Storage (Obj : Type*) := List (PointerArray Obj)

variable {Obj : Type*}

namespace PointerArray

/-- The `used` field. -/
def used (array : PointerArray Obj) : ℕ := array.objects.length

/-- `_mulle_autoreleasepointerarray_init` -/
def init : PointerArray Obj := ⟨[], 0, Nat.zero_le _⟩

theorem used_init_lt : (init : PointerArray Obj).used < nObjects := nObjects_pos

/-- `_mulle_autoreleasepointerarray_add` -/
def add (array : PointerArray Obj) (p : Obj) (hroom : array.used < nObjects) :
    PointerArray Obj where
  objects := array.objects ++ [some p]
  count := array.count + 1
  used_le := by
    rw [List.length_append]
    exact hroom

/-- The copy of `addObjects` into one page. It advances `used` only. -/
def append (array : PointerArray Obj) (ps : List Obj)
    (hroom : array.used + ps.length ≤ nObjects) : PointerArray Obj where
  objects := array.objects ++ ps.map some
  count := array.count
  used_le := by
    rw [List.length_append, List.length_map]
    exact hroom

/-- `*q = NULL; array->count--;` for the slot at `q`. -/
def clear (array : PointerArray Obj) (q : ℕ) : PointerArray Obj where
  objects := array.objects.set q none
  count := array.count - 1
  used_le := by
    rw [List.length_set]
    exact array.used_le

@[simp] theorem objects_init : (init : PointerArray Obj).objects = [] := rfl

@[simp] theorem objects_add (array : PointerArray Obj) (p : Obj) (hroom) :
    (array.add p hroom).objects = array.objects ++ [some p] := rfl

@[simp] theorem objects_append (array : PointerArray Obj) (ps : List Obj) (hroom) :
    (array.append ps hroom).objects = array.objects ++ ps.map some := rfl

@[simp] theorem objects_clear (array : PointerArray Obj) (q : ℕ) :
    (array.clear q).objects = array.objects.set q none := rfl

@[simp] theorem count_add (array : PointerArray Obj) (p : Obj) (hroom) :
    (array.add p hroom).count = array.count + 1 := rfl

@[simp] theorem count_append (array : PointerArray Obj) (ps : List Obj) (hroom) :
    (array.append ps hroom).count = array.count := rfl

end PointerArray

namespace Storage

/-- The page that takes the next entry, with the pages behind it: the current page
while it has space, else a new page chained in front of it. -/
def writable : Storage Obj → { array : PointerArray Obj // array.used < nObjects } × Storage Obj
  | [] => (⟨.init, PointerArray.used_init_lt⟩, [])
  | array :: previous =>
    if hroom : array.used < nObjects then (⟨array, hroom⟩, previous)
    else (⟨.init, PointerArray.used_init_lt⟩, array :: previous)

/-- `addObject`, from the storage of the pool to its new storage. -/
def addObject (storage : Storage Obj) (p : Obj) : Storage Obj :=
  let (array, previous) := storage.writable
  array.1.add p array.2 :: previous

/-- The ids at `count` places, `step` bytes apart. `objects i` is the id `i` bytes
behind the pointer. -/
def spaced (objects : ℕ → Obj) (count step : ℕ) : List Obj :=
  (List.range count).map fun i => objects (step * i)

@[simp] theorem length_spaced (objects : ℕ → Obj) (count step : ℕ) :
    (spaced objects count step).length = count := by simp [spaced]

/-- `addObjects`, from the storage of the pool to its new storage. Every iteration
fills one page; `mulle_id_copy` is the strided copy with `step == sizeof( id)`. -/
def addObjects (storage : Storage Obj) (objects : ℕ → Obj) (count step : ℕ) : Storage Obj :=
  if hcount : count = 0 then storage
  else
    let array := storage.writable.1
    let amount := min count (nObjects - array.1.used)
    have hroom : array.1.used + (spaced objects amount step).length ≤ nObjects := by
      rw [length_spaced]
      have := array.2
      omega
    addObjects (array.1.append (spaced objects amount step) hroom :: storage.writable.2)
      (fun i => objects (step * amount + i)) (count - amount) step
  termination_by count
  decreasing_by
    have := storage.writable.1.2
    omega

/-- All slots of a chain, oldest first. -/
def slots : Storage Obj → List (Option Obj)
  | [] => []
  | array :: previous => slots previous ++ array.objects

/-- The sum of the `count` fields. -/
def countSum : Storage Obj → BitVec 64
  | [] => 0
  | array :: previous => countSum previous + array.count

/-- Making room for an entry adds no slot. -/
theorem slots_writable (storage : Storage Obj) :
    slots (storage.writable.1.1 :: storage.writable.2) = slots storage := by
  cases storage with
  | nil => rfl
  | cons array previous =>
    rw [writable]
    split
    · rfl
    · simp [slots]

/-- Making room for an entry counts nothing. -/
theorem countSum_writable (storage : Storage Obj) :
    countSum (storage.writable.1.1 :: storage.writable.2) = countSum storage := by
  cases storage with
  | nil => rfl
  | cons array previous =>
    rw [writable]
    split
    · rfl
    · simp [countSum, PointerArray.init]

/-- A single object becomes the newest slot. -/
theorem slots_addObject (storage : Storage Obj) (p : Obj) :
    slots (storage.addObject p) = slots storage ++ [some p] := by
  rw [← slots_writable storage]
  simp [addObject, slots]

/-- A single object is counted. -/
theorem countSum_addObject (storage : Storage Obj) (p : Obj) :
    countSum (storage.addObject p) = countSum storage + 1 := by
  rw [← countSum_writable storage]
  simp [addObject, countSum, BitVec.add_assoc]

/-- Reading on behind the first ids reads the remaining ones. -/
theorem spaced_append (objects : ℕ → Obj) (step amount rest : ℕ) :
    spaced objects amount step ++ spaced (fun i => objects (step * amount + i)) rest step =
      spaced objects (amount + rest) step := by
  simp [spaced, List.range_add, Nat.mul_add, Function.comp_def]

/-- Bulk addition appends the addressed objects in order, however the pages are
filled. -/
theorem slots_addObjects (storage : Storage Obj) (objects : ℕ → Obj) (count step : ℕ) :
    slots (storage.addObjects objects count step) =
      slots storage ++ (spaced objects count step).map some := by
  induction count using Nat.strong_induction_on generalizing storage objects with
  | _ count ih =>
    rw [addObjects]
    split
    case isTrue hcount => simp [hcount, spaced]
    case isFalse hcount =>
      have hroom := storage.writable.1.2
      rw [ih _ (by omega), ← slots_writable storage]
      simp only [slots, PointerArray.objects_append, List.append_assoc, ← List.map_append,
        spaced_append]
      congr 4
      omega

/-- Bulk addition counts nothing. -/
theorem countSum_addObjects (storage : Storage Obj) (objects : ℕ → Obj) (count step : ℕ) :
    countSum (storage.addObjects objects count step) = countSum storage := by
  induction count using Nat.strong_induction_on generalizing storage objects with
  | _ count ih =>
    rw [addObjects]
    split
    case isTrue hcount => rfl
    case isFalse hcount =>
      have hroom := storage.writable.1.2
      rw [ih _ (by omega), ← countSum_writable storage]
      rfl

end Storage

end MulleObjC.Pool
