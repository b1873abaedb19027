import Mathlib.Data.List.ReduceOption
import MulleObjC.Library.Memory

/-!
# Owned objects

`-_getOwnedObjects:maxCount:` fills a buffer with the objects that an object retains or copies, and
returns how many there are. `MulleObjCCopyObjects` and `MulleObjCCopyObjectArray` do the same for
classes that keep their objects elsewhere, and leave out what is nil. The default implementation,
which walks the instance variables, counts nil.
-/

namespace MulleObjC.NSObject.Owned

/-- The first character of a signature. -/
inductive Code
  /-- `_C_RETAIN_ID` -/
  | retainId
  /-- `_C_COPY_ID` -/
  | copyId
  | other
  deriving DecidableEq, Repr

/-- `struct _mulle_objc_ivar` -/
structure Ivar where
  signature : Code
  offset : ℕ

/-- The instance variable owns its object. -/
def Ivar.isOwned (ivar : Ivar) : Bool :=
  match ivar.signature with
  | .retainId | .copyId => true
  | .other => false

/-- `isa`. The instance variables are in the order of `_mulle_objc_infraclass_walk_ivars`. -/
inductive Isa
  | metaclass
  | infraclass (ivars : List Ivar)

/-- An object, and the pointers that are in it. -/
structure Object (Obj : Type*) where
  isa : Isa
  /-- By the offset of the instance variable. -/
  pointervalue : ℕ → Option Obj

/-- The values of those instance variables that own an object. -/
def Object.valuesOf {Obj : Type*} (self : Object Obj) (ivars : List Ivar) : List (Option Obj) :=
  (ivars.filter Ivar.isOwned).map fun ivar => self.pointervalue ivar.offset

/-- What the object owns, in the order of its instance variables. -/
def Object.ownedValues {Obj : Type*} (self : Object Obj) : List (Option Obj) :=
  match self.isa with
  | .metaclass => []
  | .infraclass ivars => self.valuesOf ivars

/-- `struct collect_info`, which are the variables of the copying functions as well, and the
memory that they write to. -/
structure Info (Obj : Type*) where
  n : ℕ
  objects : ℕ
  sentinel : ℕ
  memory : Memory (Option Obj)

variable {Obj : Type*}

namespace Info

/-- In front of the first object. -/
def start (memory : Memory (Option Obj)) (objects maxCount : ℕ) : Info Obj :=
  ⟨0, objects, objects + maxCount, memory⟩

/-- `collect` -/
def collect (self : Object Obj) (info : Info Obj) (ivar : Ivar) : Info Obj :=
  if ivar.isOwned then
    let value := self.pointervalue ivar.offset
    if info.objects < info.sentinel then
      { info with
        n := info.n + 1
        memory := info.memory.write info.objects [value]
        objects := if value.isSome then info.objects + 1 else info.objects }
    else { info with n := info.n + 1 }
  else info

/-- The body of the loops of the copying functions. -/
def copy (info : Info Obj) : Option Obj → Info Obj
  | none => info
  | some obj =>
    if info.objects < info.sentinel then
      { info with
        n := info.n + 1
        memory := info.memory.write info.objects [some obj]
        objects := info.objects + 1 }
    else { info with n := info.n + 1 }

/-- The `while` loop of `MulleObjCCopyObjectArray`. -/
def copyArray : ℕ → ℕ → Info Obj → Info Obj
  | 0, _, info => info
  | count + 1, array, info => copyArray count (array + 1) (info.copy (info.memory array))

end Info

/-- `-_getOwnedObjects:maxCount:` -/
def getOwnedObjects (memory : Memory (Option Obj)) (self : Object Obj) (objects maxCount : ℕ) :
    ℕ × Memory (Option Obj) :=
  match self.isa with
  | .metaclass => (0, memory)
  | .infraclass ivars =>
    let info := ivars.foldl (Info.collect self) (.start memory objects maxCount)
    (info.n, info.memory)

/-- `MulleObjCCopyObjects` -/
def copyObjects (memory : Memory (Option Obj)) (objects length : ℕ) (args : List (Option Obj)) :
    ℕ × Memory (Option Obj) :=
  let info := args.foldl Info.copy (.start memory objects length)
  (info.n, info.memory)

/-- `MulleObjCCopyObjectArray` -/
def copyObjectArray (memory : Memory (Option Obj)) (objects length array count : ℕ) :
    ℕ × Memory (Option Obj) :=
  let info := Info.copyArray count array (.start memory objects length)
  (info.n, info.memory)

/-- All objects are counted, and the first of them are written to the buffer, but nothing else. -/
structure Collects (memory : Memory (Option Obj)) (objects maxCount : ℕ)
    (values : List (Option Obj)) (r : ℕ × Memory (Option Obj)) : Prop where
  count : r.1 = values.reduceOption.length
  filled : r.2 = memory.write objects ((values.reduceOption.take maxCount).map some)

namespace Info

variable {self : Object Obj} {info : Info Obj} {ivars : List Ivar} {ivar : Ivar}

/-- What the copying functions count and write. -/
theorem foldl_copy (info : Info Obj) (values : List (Option Obj)) :
    (values.foldl copy info).n = info.n + values.reduceOption.length ∧
      (values.foldl copy info).memory = info.memory.write info.objects
        ((values.reduceOption.take (info.sentinel - info.objects)).map some) := by
  induction values generalizing info with
  | nil => simp
  | cons value values ih =>
    rw [List.foldl_cons]
    cases value with
    | none =>
      rw [List.reduceOption_cons_of_none]
      exact ih info
    | some obj =>
      rw [List.reduceOption_cons_of_some, List.length_cons, copy]
      split
      · rename_i hroom
        obtain ⟨room, hroom⟩ : ∃ room, info.sentinel - info.objects = room + 1 :=
          ⟨info.sentinel - info.objects - 1, by omega⟩
        have hrest : info.sentinel - (info.objects + 1) = room := by omega
        obtain ⟨hn, hmemory⟩ := ih ⟨info.n + 1, info.objects + 1, info.sentinel,
          info.memory.write info.objects [some obj]⟩
        refine ⟨hn.trans (by dsimp only; omega), hmemory.trans ?_⟩
        rw [hrest, hroom, List.take_succ_cons, List.map_cons]
        exact Memory.write_append
      · rename_i hfull
        obtain ⟨hn, hmemory⟩ := ih { info with n := info.n + 1 }
        have hroom : info.sentinel - info.objects = 0 := by omega
        refine ⟨hn.trans (by dsimp only; omega), hmemory.trans ?_⟩
        rw [hroom]
        rfl

/-- Copying reads an array that is not written to. -/
theorem copyArray_eq (count array : ℕ) (info : Info Obj)
    (h : info.sentinel ≤ array ∨ array + count ≤ info.objects) :
    copyArray count array info = (info.memory.read array count).foldl copy info := by
  induction count generalizing array info with
  | zero => rfl
  | succ count ih =>
    rw [copyArray, Memory.read_succ, List.foldl_cons]
    cases info.memory array with
    | none => exact ih (array + 1) info (by omega)
    | some obj =>
      rw [copy]
      split
      · rename_i hroom
        rw [ih (array + 1) _ (by dsimp only; omega)]
        -- What was written lies in the buffer.
        have hread : (info.memory.write info.objects [some obj]).read (array + 1) count =
            info.memory.read (array + 1) count := by
          apply Memory.read_write_of_apart
          simp only [Memory.Apart, List.length_singleton]
          omega
        rw [hread]
      · exact ih (array + 1) _ (by dsimp only; omega)

theorem valuesOf_cons_of_owned (howned : ivar.isOwned = true) :
    self.valuesOf (ivar :: ivars) = self.pointervalue ivar.offset :: self.valuesOf ivars := by
  rw [Object.valuesOf, List.filter_cons_of_pos howned, List.map_cons]
  rfl

theorem valuesOf_cons_of_not_owned (howned : ivar.isOwned = false) :
    self.valuesOf (ivar :: ivars) = self.valuesOf ivars := by
  rw [Object.valuesOf, List.filter_cons_of_neg (by simp [howned])]
  rfl

theorem collect_of_not_owned (howned : ivar.isOwned = false) :
    collect self info ivar = info := by
  simp [collect, howned]

theorem collect_of_none (howned : ivar.isOwned = true) (hroom : info.objects < info.sentinel)
    (hvalue : self.pointervalue ivar.offset = none) : collect self info ivar =
      { info with n := info.n + 1, memory := info.memory.write info.objects [none] } := by
  simp [collect, howned, hvalue, hroom]

theorem collect_of_some {obj : Obj} (howned : ivar.isOwned = true)
    (hvalue : self.pointervalue ivar.offset = some obj) :
    collect self info ivar = info.copy (some obj) := by
  simp [collect, copy, howned, hvalue]

theorem collect_of_full (howned : ivar.isOwned = true) (hfull : ¬info.objects < info.sentinel) :
    collect self info ivar = { info with n := info.n + 1 } := by
  simp [collect, howned, hfull]

/-- Whatever the values are, all instance variables that own an object are counted. -/
theorem n_foldl_collect (info : Info Obj) (ivars : List Ivar) :
    (ivars.foldl (collect self) info).n = info.n + (self.valuesOf ivars).length := by
  induction ivars generalizing info with
  | nil => rfl
  | cons ivar ivars ih =>
    rw [List.foldl_cons, ih]
    cases howned : ivar.isOwned with
    | false => rw [collect_of_not_owned howned, valuesOf_cons_of_not_owned howned]
    | true =>
      rw [valuesOf_cons_of_owned howned, List.length_cons, collect, if_pos howned]
      dsimp only
      split
      · dsimp only
        omega
      · dsimp only
        omega

/-- What is written in any case. At the end, nil may be left behind the objects. -/
theorem memory_foldl_collect (self : Object Obj) (info : Info Obj) (ivars : List Ivar) :
    ∃ rest, (rest = [] ∨ rest = [none]) ∧ (ivars.foldl (collect self) info).memory =
      info.memory.write info.objects (((self.valuesOf ivars).reduceOption.take
        (info.sentinel - info.objects)).map some ++ rest) := by
  induction ivars generalizing info with
  | nil => exact ⟨[], .inl rfl, by simp [Object.valuesOf]⟩
  | cons ivar ivars ih =>
    rw [List.foldl_cons]
    cases howned : ivar.isOwned with
    | false =>
      rw [collect_of_not_owned howned, valuesOf_cons_of_not_owned howned]
      exact ih info
    | true =>
      rw [valuesOf_cons_of_owned howned]
      by_cases hroom : info.objects < info.sentinel
      · cases hvalue : self.pointervalue ivar.offset with
        | none =>
          rw [collect_of_none howned hroom hvalue, List.reduceOption_cons_of_none]
          obtain ⟨rest, hrest, hmemory⟩ := ih { info with
            n := info.n + 1, memory := info.memory.write info.objects [none] }
          rw [hmemory]
          by_cases hnil : ((self.valuesOf ivars).reduceOption.take
              (info.sentinel - info.objects)).map some ++ rest = []
          · rw [hnil, Memory.write_nil, (List.append_eq_nil_iff.mp hnil).1]
            exact ⟨[none], .inr rfl, rfl⟩
          · -- The next cell replaces nil.
            exact ⟨rest, hrest, Memory.write_write (List.length_pos_iff.mpr hnil)⟩
        | some obj =>
          have hsize : info.sentinel - info.objects = info.sentinel - (info.objects + 1) + 1 := by
            omega
          obtain ⟨rest, hrest, hmemory⟩ := ih { info with
            n := info.n + 1
            memory := info.memory.write info.objects [some obj]
            objects := info.objects + 1 }
          refine ⟨rest, hrest, ?_⟩
          rw [collect_of_some howned hvalue, copy, if_pos hroom, hmemory,
            List.reduceOption_cons_of_some, hsize, List.take_succ_cons, List.map_cons]
          exact Memory.write_append
      · have hsize : info.sentinel - info.objects = 0 := by omega
        obtain ⟨rest, hrest, hmemory⟩ := ih { info with n := info.n + 1 }
        refine ⟨rest, hrest, ?_⟩
        rw [collect_of_full howned hroom, hmemory, hsize]
        rfl

/-- Without nil, the instance variables are walked as if their values were copied. -/
theorem foldl_collect (info : Info Obj) (h : ∀ value ∈ self.valuesOf ivars, value.isSome = true) :
    ivars.foldl (collect self) info = (self.valuesOf ivars).foldl copy info := by
  induction ivars generalizing info with
  | nil => rfl
  | cons ivar ivars ih =>
    rw [List.foldl_cons]
    cases howned : ivar.isOwned with
    | false =>
      rw [valuesOf_cons_of_not_owned howned] at h ⊢
      rw [collect_of_not_owned howned]
      exact ih info h
    | true =>
      rw [valuesOf_cons_of_owned howned] at h ⊢
      obtain ⟨hsome, h⟩ := List.forall_mem_cons.mp h
      obtain ⟨obj, hobj⟩ := Option.isSome_iff_exists.mp hsome
      rw [collect_of_some howned hobj, hobj, List.foldl_cons]
      exact ih _ h

end Info

/-- `MulleObjCCopyObjects` leaves out nil. -/
theorem copyObjects_collects (memory : Memory (Option Obj)) (objects length : ℕ)
    (args : List (Option Obj)) :
    Collects memory objects length args (copyObjects memory objects length args) := by
  obtain ⟨hn, hmemory⟩ := Info.foldl_copy (.start memory objects length) args
  refine ⟨hn.trans (Nat.zero_add _), hmemory.trans ?_⟩
  simp only [Info.start, Nat.add_sub_cancel_left]

/-- `MulleObjCCopyObjectArray` leaves out nil, if the array is not in the buffer. -/
theorem copyObjectArray_collects (memory : Memory (Option Obj)) {objects length array count : ℕ}
    (h : Memory.Apart objects length array count) :
    Collects memory objects length (memory.read array count)
      (copyObjectArray memory objects length array count) := by
  have hcopy := copyObjects_collects memory objects length (memory.read array count)
  rw [copyObjectArray, Info.copyArray_eq count array (.start memory objects length) h]
  exact hcopy

/-- As far as it goes, the buffer gets the objects in any case. Nil may be left behind them. -/
theorem getOwnedObjects_filled (memory : Memory (Option Obj)) (self : Object Obj)
    (objects maxCount : ℕ) : ∃ rest, (rest = [] ∨ rest = [none]) ∧
      (getOwnedObjects memory self objects maxCount).2 = memory.write objects
        ((self.ownedValues.reduceOption.take maxCount).map some ++ rest) := by
  rw [getOwnedObjects, Object.ownedValues]
  cases self.isa with
  | metaclass => exact ⟨[], .inl rfl, by simp⟩
  | infraclass ivars =>
    have h := Info.memory_foldl_collect self (.start memory objects maxCount) ivars
    simpa only [Info.start, Nat.add_sub_cancel_left] using h

/-- The default implementation does the same if and only if no object that it owns is nil. -/
theorem getOwnedObjects_collects_iff (memory : Memory (Option Obj)) (self : Object Obj)
    (objects maxCount : ℕ) :
    Collects memory objects maxCount self.ownedValues
        (getOwnedObjects memory self objects maxCount) ↔
      ∀ value ∈ self.ownedValues, value.isSome = true := by
  rw [getOwnedObjects, Object.ownedValues]
  cases self.isa with
  | metaclass => exact iff_of_true ⟨rfl, by simp⟩ (by simp)
  | infraclass ivars =>
    dsimp only
    constructor
    · intro hcollects
      have hn : (self.valuesOf ivars).reduceOption.length = (self.valuesOf ivars).length := by
        rw [← hcollects.count]
        exact (Info.n_foldl_collect _ ivars).trans (Nat.zero_add _)
      exact List.reduceOption_length_eq_iff.mp hn
    · intro hsome
      rw [Info.foldl_collect _ hsome]
      exact copyObjects_collects memory objects maxCount (self.valuesOf ivars)

/-- Two instance variables, one of which is nil. -/
def halfEmpty : Object ℕ where
  isa := .infraclass [⟨.retainId, 0⟩, ⟨.other, 1⟩, ⟨.copyId, 2⟩]
  pointervalue offset := if offset = 0 then some 7 else none

/-- Nil is counted and written. -/
theorem halfEmpty_not_collects : ¬Collects (fun _ => some 9) 0 2 halfEmpty.ownedValues
    (getOwnedObjects (fun _ => some 9) halfEmpty 0 2) := by
  intro hcollects
  exact absurd hcollects.count (by decide)

end MulleObjC.NSObject.Owned
