import Mathlib.Logic.Function.Basic
import MulleObjC.Pool.PointerArray

/-!
# The pool configuration of a thread

A thread has a stack of pools, linked by `_owner` from `config->tail` on, and
optionally a map that counts the entries of each object. `-autorelease` ends in
`_autoreleaseObject`, the bulk functions end in `_autoreleaseObjects`. The bulk
function is a second implementation: it neither filters constant objects, nor
updates the `count` of a page, nor honours `step` when it updates the map.
-/

namespace MulleObjC.Pool

/-- An autorelease pool instance. -/
structure NSAutoreleasePool (Obj : Type*) where
  /-- The pool's address. -/
  address : ℕ
  /-- `_storage` -/
  storage : Storage Obj

/-- `struct _mulle_objc_poolconfiguration` -/
structure PoolConfiguration (Obj : Type*) where
  /-- `tail` and the pools reached through `_owner`. -/
  pools : List (NSAutoreleasePool Obj)
  /-- `object_map`: the number of entries of every object, zero if it is not in the
  map. `none` if the map is not enabled. -/
  objectMap : Option (Obj → BitVec 64)

variable {Obj : Type*} [DecidableEq Obj]

/-- `mulle_map_set( object_map, p, mulle_map_get( object_map, p) + 1)` -/
def mapIncrement (map : Obj → BitVec 64) (p : Obj) : Obj → BitVec 64 :=
  Function.update map p (map p + 1)

/-- `_mulle_object_map_release_and_free`. A value of zero is as good as a removed
key. -/
def mapReleaseAndFree (map : Obj → BitVec 64) (p : Obj) : Obj → BitVec 64 :=
  Function.update map p (map p - 1)

namespace PoolConfiguration

/-- `_autoreleaseObject`. `isConstant` is `_mulle_objc_object_is_constant`. -/
def autoreleaseObject (isConstant : Obj → Bool) (config : PoolConfiguration Obj) (p : Obj) :
    PoolConfiguration Obj :=
  if isConstant p then config
  else
    match config.pools with
    | [] => config
    | pool :: owner =>
      { pools := { pool with storage := pool.storage.addObject p } :: owner
        objectMap := config.objectMap.map fun map => mapIncrement map p }

/-- `_autoreleaseObjects`. `none` is a NULL pointer. -/
def autoreleaseObjects (config : PoolConfiguration Obj) (objects : Option (ℕ → Obj))
    (count step : ℕ) : PoolConfiguration Obj :=
  match objects with
  | none => config
  | some objects =>
    if count = 0 then config
    else
      match config.pools with
      | [] => config
      | pool :: owner =>
        { pools := { pool with storage := pool.storage.addObjects objects count step } :: owner
          -- the loop over the map advances by `++p`
          objectMap := config.objectMap.map fun map =>
            (Storage.spaced objects count 8).foldl mapIncrement map }

/-- The objects a bulk call addresses. -/
def addressed (objects : Option (ℕ → Obj)) (count step : ℕ) : List Obj :=
  match objects with
  | none => []
  | some objects => Storage.spaced objects count step

/-- The storage of the current pool. -/
def tailStorage (config : PoolConfiguration Obj) : Storage Obj :=
  match config.pools with
  | [] => []
  | pool :: _ => pool.storage

/-- Single autoreleases keep the stack of pools in place. -/
theorem pools_foldl_ne_nil (isConstant : Obj → Bool) (ps : List Obj)
    {config : PoolConfiguration Obj} (hpools : config.pools ≠ []) :
    (ps.foldl (autoreleaseObject isConstant) config).pools ≠ [] := by
  induction ps generalizing config with
  | nil => exact hpools
  | cons p ps ih =>
    apply ih
    unfold autoreleaseObject
    split
    · exact hpools
    · split <;> simp_all

/-- Without a pool nothing is autoreleased. -/
theorem foldl_autoreleaseObject_of_pools_eq_nil (isConstant : Obj → Bool) (ps : List Obj)
    {config : PoolConfiguration Obj} (hpools : config.pools = []) :
    ps.foldl (autoreleaseObject isConstant) config = config := by
  induction ps with
  | nil => rfl
  | cons p ps ih =>
    have hp : autoreleaseObject isConstant config p = config := by
      simp [autoreleaseObject, hpools]
    rw [List.foldl_cons, hp, ih]

/-- With a pool in place, single autoreleases add a slot for every object that is
not constant, and count it. -/
theorem tailStorage_foldl_autoreleaseObject (isConstant : Obj → Bool) (ps : List Obj)
    {config : PoolConfiguration Obj} (hpools : config.pools ≠ []) :
    let added := ps.filter fun p => !isConstant p
    let storage := (ps.foldl (autoreleaseObject isConstant) config).tailStorage
    storage.slots = config.tailStorage.slots ++ added.map some ∧
      storage.countSum = config.tailStorage.countSum + BitVec.ofNat 64 added.length := by
  induction ps generalizing config with
  | nil => simp
  | cons p ps ih =>
    have hnext := ih (pools_foldl_ne_nil isConstant [p] hpools)
    simp only [List.foldl_cons, List.foldl_nil] at hnext ⊢
    cases hp : isConstant p with
    | true => simpa [autoreleaseObject, hp] using hnext
    | false =>
      obtain ⟨pool, owner, hconfig⟩ := List.exists_cons_of_ne_nil hpools
      have hadd : (autoreleaseObject isConstant config p).tailStorage =
          config.tailStorage.addObject p := by
        simp [autoreleaseObject, hp, tailStorage, hconfig]
      rw [hadd, Storage.slots_addObject, Storage.countSum_addObject] at hnext
      refine ⟨by simpa [hp] using hnext.1, ?_⟩
      rw [hnext.2, List.filter_cons_of_pos (by simp [hp]), List.length_cons,
        BitVec.ofNat_add, BitVec.add_assoc, BitVec.add_comm 1]
      rfl

/-- A bulk call with something to add adds a slot for every addressed object, and
counts none. -/
theorem tailStorage_autoreleaseObjects {config : PoolConfiguration Obj}
    (hpools : config.pools ≠ []) (objects : Option (ℕ → Obj)) (count step : ℕ) :
    let storage := (config.autoreleaseObjects objects count step).tailStorage
    storage.slots = config.tailStorage.slots ++ (addressed objects count step).map some ∧
      storage.countSum = config.tailStorage.countSum := by
  obtain ⟨pool, owner, hconfig⟩ := List.exists_cons_of_ne_nil hpools
  cases objects with
  | none => simp [autoreleaseObjects, addressed]
  | some objects =>
    by_cases hcount : count = 0
    · simp [autoreleaseObjects, addressed, hcount, Storage.spaced]
    · simp [autoreleaseObjects, addressed, hcount, tailStorage, hconfig, Storage.slots_addObjects,
        Storage.countSum_addObjects]

/-- The bulk call and the calls one by one agree exactly if nothing is added: no
objects, a count of zero, or no pool. -/
theorem autoreleaseObjects_eq_foldl_iff (isConstant : Obj → Bool)
    (config : PoolConfiguration Obj) (objects : Option (ℕ → Obj)) (count : BitVec 64)
    (step : ℕ) :
    config.autoreleaseObjects objects count.toNat step =
        (addressed objects count.toNat step).foldl (autoreleaseObject isConstant) config ↔
      objects = none ∨ count = 0 ∨ config.pools = [] := by
  constructor
  · intro heq
    by_contra hnot
    obtain ⟨hobjects, hcount, hpools⟩ := not_or.mp hnot |>.imp_right not_or.mp
    obtain ⟨objects, rfl⟩ := Option.ne_none_iff_exists'.mp hobjects
    have hbulk := tailStorage_autoreleaseObjects hpools (some objects) count.toNat step
    have hsingle := tailStorage_foldl_autoreleaseObject isConstant
      (addressed (some objects) count.toNat step) hpools
    rw [heq] at hbulk
    -- equal slots leave no constant object, so all of them are counted one by one
    have hslots := congrArg List.length (hbulk.1.symm.trans hsingle.1)
    have hcounts := hbulk.2.symm.trans hsingle.2
    simp only [List.length_append, List.length_map, addressed, Storage.length_spaced] at hslots
    rw [addressed, ← Nat.add_left_cancel hslots, BitVec.ofNat_toNat, BitVec.setWidth_eq,
      left_eq_add] at hcounts
    exact hcount hcounts
  · rintro (rfl | rfl | hpools)
    · rfl
    · cases objects <;> simp [autoreleaseObjects, addressed, Storage.spaced]
    · rw [foldl_autoreleaseObject_of_pools_eq_nil isConstant _ hpools]
      cases objects <;> simp [autoreleaseObjects, hpools]

/-- One object, added in bulk to an empty pool, is not counted. -/
theorem autoreleaseObjects_one_ne :
    let config : PoolConfiguration ℕ := ⟨[⟨0, [.init]⟩], none⟩
    (config.autoreleaseObjects (some fun _ => 5) 1 8).tailStorage.countSum = 0 ∧
      (config.autoreleaseObject (fun _ => false) 5).tailStorage.countSum = 1 ∧
      ¬ ∀ (isConstant : ℕ → Bool) (config : PoolConfiguration ℕ) (objects : ℕ → ℕ)
        (count : BitVec 64) (step : ℕ), 8 ≤ step →
        config.autoreleaseObjects (some objects) count.toNat step =
          (addressed (some objects) count.toNat step).foldl (autoreleaseObject isConstant)
            config := by
  have hbulk : (PoolConfiguration.autoreleaseObjects ⟨[⟨0, [.init]⟩], none⟩ (some fun _ => 5) 1
      8).tailStorage.countSum = 0 :=
    (tailStorage_autoreleaseObjects (List.cons_ne_nil _ _) _ _ _).2
  refine ⟨hbulk, by decide, fun h => ?_⟩
  have hone := h (fun _ => false) ⟨[⟨0, [.init]⟩], none⟩ (fun _ => 5) 1 8 le_rfl
  have hcount := congrArg (fun config => config.tailStorage.countSum) hone
  exact absurd (hbulk.symm.trans hcount) (by decide)

end PoolConfiguration

end MulleObjC.Pool
