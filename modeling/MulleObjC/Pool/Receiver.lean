import MulleObjC.Pool.Completeness
import MulleObjC.Pool.Count
import MulleObjC.Pool.ObjectMap
import MulleObjC.Pool.Removal

/-!
# Methods of a pool

The instance methods of `NSAutoreleasePool` that add, count and remove objects take the pool
configuration of the thread and work on its `tail`. Only `-mulleReleaseAllPoolObjects` works on
its receiver. `-_pushToParentAutoreleasePool` messages the parent of the current pool, and its
object ends up in the current pool.
-/

namespace MulleObjC.Pool

variable {Obj : Type*}

section Removal

variable [DecidableEq Obj]

/-- The loop over a page leaves the slots above its place alone. -/
theorem PointerArray.getElem?_releaseObjects (ps : List Obj) {q i : ℕ} (hi : q ≤ i)
    (array : PointerArray Obj) :
    (array.releaseObjects ps q).1.objects[i]? = array.objects[i]? := by
  induction q generalizing array with
  | zero => rfl
  | succ q ih =>
    rw [releaseObjects]
    split
    · split
      · rw [ih (by omega), objects_clear, List.getElem?_set_ne (by omega)]
      · exact ih (by omega) array
    · exact ih (by omega) array

/-- The loop over a page takes out all of its objects. -/
theorem PointerArray.releaseObjects_ne (ps : List Obj) {q i : ℕ} (hi : i < q)
    (array : PointerArray Obj) {p : Obj} (hp : p ∈ ps) :
    (array.releaseObjects ps q).1.objects[i]? ≠ some (some p) := by
  induction q generalizing array with
  | zero => omega
  | succ q ih =>
    rw [releaseObjects]
    by_cases hq : i = q
    · subst hq
      split
      · split
        · rename_i hslot _
          have hlt := (List.getElem?_eq_some_iff.mp hslot).1
          dsimp only
          rw [getElem?_releaseObjects ps le_rfl, objects_clear, List.getElem?_set_self hlt]
          simp
        · rename_i obj hslot hother
          rw [getElem?_releaseObjects ps le_rfl, hslot]
          rintro heq
          obtain rfl := Option.some.inj (Option.some.inj heq)
          exact hother hp
      · rename_i hnone
        rw [getElem?_releaseObjects ps le_rfl]
        exact fun heq => hnone p heq
    · split
      · split
        · exact ih (by omega) _
        · exact ih (by omega) array
      · exact ih (by omega) array

/-- The loop over a chain takes out all of its objects and no other. -/
theorem Storage.count_slots_releaseObjects (ps : List Obj) (storage : Storage Obj) (p : Obj) :
    (Storage.releaseObjects ps storage).1.slots.count (some p) =
      if p ∈ ps then 0 else storage.slots.count (some p) := by
  split
  case isTrue hp =>
    induction storage with
    | nil => rfl
    | cons array previous ih =>
      have hpage : (array.releaseObjects ps array.used).1.objects.count (some p) = 0 := by
        refine List.count_eq_zero.mpr fun hmem => ?_
        obtain ⟨i, hget⟩ := List.mem_iff_getElem?.mp hmem
        by_cases hi : i < array.used
        · exact array.releaseObjects_ne ps hi hp hget
        · have hnone : array.objects[i]? = none := by
            rw [List.getElem?_eq_none_iff]
            exact Nat.le_of_not_lt hi
          rw [array.getElem?_releaseObjects ps (by omega), hnone] at hget
          cases hget
      rw [Storage.releaseObjects, slots, List.count_append, ih, hpage]
  case isFalse hp =>
    have hcount := Storage.count_releaseObjects ps storage p
    have hreleased : (Storage.releaseObjects ps storage).2.count p = 0 :=
      List.count_eq_zero.mpr (mt (Storage.mem_of_released ps storage) hp)
    omega

end Removal

/-- The instance methods of a pool that add, count or remove objects. -/
inductive Method
  | addObject
  | mulleAddObjects
  | mulleContainsObject
  | mulleCountObject
  | mulleCount
  | mulleReleasePoolObjects
  | mulleReleaseAllPoolObjects
  deriving DecidableEq

namespace PoolConfiguration

variable [DecidableEq Obj] (config : PoolConfiguration Obj)

/-- `-addObject:`. The receiver is asked for its universe only, here and below. -/
def addObjectTo (isConstant : Obj → Bool) (_receiver : ℕ) (p : Obj) : PoolConfiguration Obj :=
  config.autoreleaseObject isConstant p

/-- `-mulleAddObjects:count:` -/
def mulleAddObjectsTo (_receiver : ℕ) (objects : Option (ℕ → Obj)) (count : ℕ) :
    PoolConfiguration Obj :=
  config.autoreleaseObjects objects count 8

/-- `-mulleContainsObject:` -/
def mulleContainsObjectIn (_receiver : ℕ) (p : Obj) : Bool := config.tailStorage.contains p

/-- `-mulleCountObject:`. The count goes through an `int`. -/
def mulleCountObjectIn (_receiver : ℕ) (p : Obj) : BitVec 64 :=
  (config.tailStorage.countObject p).signExtend 64

/-- `-mulleCount` -/
def mulleCountIn (_receiver : ℕ) : BitVec 64 := config.mulleCountOfTail

/-- `-mulleReleasePoolObjects:count:` of objects that are retained elsewhere. -/
def mulleReleasePoolObjectsIn (_receiver : ℕ) (ps : List Obj) : PoolConfiguration Obj :=
  ((⟨config, [], 0⟩ : State Obj).releaseObjects ps false).2.config

/-- `-mulleReleaseAllPoolObjects` of objects that are retained elsewhere. -/
def mulleReleaseAllPoolObjectsIn (receiver : ℕ) : PoolConfiguration Obj where
  pools := modifyStorage receiver (fun _ => []) config.pools
  objectMap := config.objectMap.map fun map =>
    ((storageOf receiver config.pools).slots.reverse.filterMap id).foldl mapReleaseAndFree map

end PoolConfiguration

variable [DecidableEq Obj]

/-- A method acts on the entries of its receiver, and on no others. -/
def Method.ActsOn (isConstant : Obj → Bool) (receiver : ℕ) (config : PoolConfiguration Obj) :
    Method → Prop
  | addObject => ∀ p, isConstant p = false → ∀ a,
      (storageOf a (config.addObjectTo isConstant receiver p).pools).slots =
        (storageOf a config.pools).slots ++ if a = receiver then [some p] else []
  | mulleAddObjects => ∀ objects count a,
      (storageOf a (config.mulleAddObjectsTo receiver objects count).pools).slots =
        (storageOf a config.pools).slots ++
          if a = receiver then (PoolConfiguration.addressed objects count 8).map some else []
  | mulleContainsObject => ∀ p, config.mulleContainsObjectIn receiver p =
      (storageOf receiver config.pools).contains p
  | mulleCountObject => ∀ p, config.mulleCountObjectIn receiver p =
      ((storageOf receiver config.pools).countObject p).signExtend 64
  | mulleCount => config.mulleCountIn receiver =
      (storageOf receiver config.pools).count.setWidth 64
  | mulleReleasePoolObjects => ∀ ps a p,
      (storageOf a (config.mulleReleasePoolObjectsIn receiver ps).pools).slots.count (some p) =
        if a = receiver ∧ p ∈ ps then 0 else (storageOf a config.pools).slots.count (some p)
  | mulleReleaseAllPoolObjects => ∀ a,
      (storageOf a (config.mulleReleaseAllPoolObjectsIn receiver).pools).slots =
        if a = receiver then [] else (storageOf a config.pools).slots

variable {isConstant : Obj → Bool}

/-- Every method acts on the current pool. -/
theorem actsOn_of_head {config : PoolConfiguration Obj} {receiver : ℕ}
    (hhead : (addresses config.pools).head? = some receiver) (method : Method) :
    method.ActsOn isConstant receiver config := by
  obtain ⟨pool, owner, hpools, rfl, hstorage⟩ := storageOf_head hhead
  have htail : config.tailStorage = pool.storage := by rw [PoolConfiguration.tailStorage, hpools]
  have hother : ∀ a, a ≠ pool.address → ∀ storage : Storage Obj,
      storageOf a ({ pool with storage := storage } :: owner) = storageOf a config.pools := by
    intro a ha storage
    rw [hpools, storageOf, storageOf, if_neg (Ne.symm ha), if_neg (Ne.symm ha)]
  have hhere : ∀ storage : Storage Obj,
      storageOf pool.address ({ pool with storage := storage } :: owner) = storage :=
    fun storage => if_pos rfl
  cases method with
  | addObject =>
    intro p hp a
    have hadd : (config.addObjectTo isConstant pool.address p).pools =
        { pool with storage := pool.storage.addObject p } :: owner := by
      rw [PoolConfiguration.addObjectTo, PoolConfiguration.autoreleaseObject, hp, hpools]
      rfl
    rw [hadd]
    by_cases ha : a = pool.address
    · subst ha
      rw [hhere, Storage.slots_addObject, hstorage, if_pos rfl]
    · rw [hother a ha, if_neg ha, List.append_nil]
  | mulleAddObjects =>
    intro objects count a
    rw [PoolConfiguration.mulleAddObjectsTo]
    cases objects with
    | none => simp [PoolConfiguration.autoreleaseObjects, PoolConfiguration.addressed]
    | some objects =>
      by_cases hcount : count = 0
      · simp [PoolConfiguration.autoreleaseObjects, PoolConfiguration.addressed, hcount,
          Storage.spaced]
      · have hadd : (config.autoreleaseObjects (some objects) count 8).pools =
            { pool with storage := pool.storage.addObjects objects count 8 } :: owner := by
          rw [PoolConfiguration.autoreleaseObjects, if_neg hcount, hpools]
        rw [hadd]
        by_cases ha : a = pool.address
        · subst ha
          rw [hhere, Storage.slots_addObjects, hstorage, if_pos rfl]
          rfl
        · rw [hother a ha, if_neg ha, List.append_nil]
  | mulleContainsObject =>
    intro p
    rw [PoolConfiguration.mulleContainsObjectIn, htail, hstorage]
  | mulleCountObject =>
    intro p
    rw [PoolConfiguration.mulleCountObjectIn, htail, hstorage]
  | mulleCount =>
    rw [Method.ActsOn, PoolConfiguration.mulleCountIn, hstorage, PoolConfiguration.mulleCountOfTail,
      hpools]
    rfl
  | mulleReleasePoolObjects =>
    intro ps a p
    have hrelease : (config.mulleReleasePoolObjectsIn pool.address ps).pools =
        { pool with storage := (Storage.releaseObjects ps pool.storage).1 } :: owner := by
      rw [PoolConfiguration.mulleReleasePoolObjectsIn, State.releaseObjects]
      dsimp only
      rw [hpools]
      rfl
    rw [hrelease]
    by_cases ha : a = pool.address
    · subst ha
      rw [hhere, Storage.count_slots_releaseObjects, hstorage]
      simp
    · rw [hother a ha, if_neg fun h => ha h.1]
  | mulleReleaseAllPoolObjects =>
    intro a
    have hrelease : (config.mulleReleaseAllPoolObjectsIn pool.address).pools =
        { pool with storage := [] } :: owner := by
      rw [PoolConfiguration.mulleReleaseAllPoolObjectsIn, hpools, modifyStorage, if_pos rfl]
    rw [hrelease]
    by_cases ha : a = pool.address
    · subst ha
      rw [hhere, if_pos rfl]
      rfl
    · rw [hother a ha, if_neg ha]

/-- Emptying a pool acts on its receiver wherever it stands. -/
theorem actsOn_mulleReleaseAllPoolObjects {config : PoolConfiguration Obj} {receiver : ℕ}
    (hmem : receiver ∈ addresses config.pools) :
    Method.mulleReleaseAllPoolObjects.ActsOn isConstant receiver config := by
  intro a
  rw [PoolConfiguration.mulleReleaseAllPoolObjectsIn]
  dsimp only
  by_cases ha : a = receiver
  · subst ha
    rw [storageOf_modifyStorage_self _ hmem, if_pos rfl]
    rfl
  · rw [if_neg ha]
    rcases storageOf_modifyStorage a receiver (fun _ => []) config.pools with h | ⟨h, -⟩
    · rw [h]
    · exact absurd h ha

/-- A stack of pools in which the current pool alone holds an object. -/
def filled (p : Obj) : List ℕ → PoolConfiguration Obj
  | [] => ⟨[], none⟩
  | tail :: owner =>
    ⟨⟨tail, Storage.addObject [.init] p⟩ :: owner.map fun a => ⟨a, [.init]⟩, none⟩

omit [DecidableEq Obj] in
theorem addresses_filled (p : Obj) (stack : List ℕ) :
    addresses (filled p stack).pools = stack := by
  cases stack with
  | nil => rfl
  | cons tail owner => simp [filled, addresses, Function.comp_def]

omit [DecidableEq Obj] in
theorem storageOf_filled (p : Obj) {tail receiver : ℕ} {owner : List ℕ}
    (hne : receiver ≠ tail) (hmem : receiver ∈ owner) :
    storageOf receiver (filled p (tail :: owner)).pools = [.init] := by
  rw [filled, storageOf, if_neg (Ne.symm hne)]
  clear hne
  induction owner with
  | nil => cases hmem
  | cons a owner ih =>
    rw [List.map_cons, storageOf]
    split
    · rfl
    · rename_i ha
      exact ih ((List.mem_cons.mp hmem).resolve_left (Ne.symm ha))

/-- Below the current pool no other method acts on its receiver whatever the pools hold. -/
theorem not_actsOn_filled {p : Obj} (hp : isConstant p = false) {tail receiver : ℕ}
    {owner : List ℕ} (hne : receiver ≠ tail) (hmem : receiver ∈ owner) {method : Method}
    (hmethod : method ≠ .mulleReleaseAllPoolObjects) :
    ¬ method.ActsOn isConstant receiver (filled p (tail :: owner)) := by
  have hreceiver := storageOf_filled p hne hmem
  have htail : storageOf tail (filled p (tail :: owner)).pools = Storage.addObject [.init] p :=
    if_pos rfl
  have hslots : (Storage.addObject [.init] p).slots = [some p] := rfl
  intro hacts
  cases method with
  | addObject =>
    have hslot := hacts p hp tail
    rw [if_neg (Ne.symm hne), htail, PoolConfiguration.addObjectTo,
      PoolConfiguration.autoreleaseObject, hp, filled] at hslot
    simp only [Bool.false_eq_true, if_false, storageOf, if_true, Storage.slots_addObject,
      List.append_nil] at hslot
    exact absurd (congrArg List.length hslot) (by simp)
  | mulleAddObjects =>
    have hslot := hacts (some fun _ => p) 1 tail
    rw [if_neg (Ne.symm hne), htail, PoolConfiguration.mulleAddObjectsTo,
      PoolConfiguration.autoreleaseObjects, if_neg Nat.one_ne_zero, filled] at hslot
    simp only [storageOf, if_true, Storage.slots_addObjects, List.append_nil] at hslot
    exact absurd (congrArg List.length hslot) (by simp)
  | mulleContainsObject =>
    have hanswer := hacts p
    rw [hreceiver, Bool.eq_iff_iff, Storage.contains_iff,
      PoolConfiguration.mulleContainsObjectIn, Storage.contains_iff] at hanswer
    have hone : 0 < (filled p (tail :: owner)).tailStorage.slots.count (some p) := by
      rw [PoolConfiguration.tailStorage, filled]
      simp [hslots]
    exact absurd (hanswer.mp hone) (by simp [Storage.slots])
  | mulleCountObject =>
    have hanswer := hacts p
    rw [hreceiver, PoolConfiguration.mulleCountObjectIn, Storage.countObject_eq,
      Storage.countObject_eq, PoolConfiguration.tailStorage, filled] at hanswer
    simp [hslots, Storage.slots] at hanswer
  | mulleCount =>
    have hone : (Storage.addObject [.init] p).count = 1 := rfl
    have hnone : Storage.count [(PointerArray.init : PointerArray Obj)] = 0 := rfl
    have hanswer : (filled p (tail :: owner)).mulleCountOfTail = _ := hacts
    rw [hreceiver, hnone, PoolConfiguration.mulleCountOfTail, filled] at hanswer
    dsimp only at hanswer
    rw [NSAutoreleasePool.mulleCount, hone] at hanswer
    exact absurd hanswer (by decide)
  | mulleReleasePoolObjects =>
    have hslot := hacts [p] tail p
    rw [if_neg fun h => hne h.1.symm, htail, hslots,
      PoolConfiguration.mulleReleasePoolObjectsIn, State.releaseObjects, filled] at hslot
    simp [Pool.releaseObjects, storageOf, Storage.count_slots_releaseObjects] at hslot
  | mulleReleaseAllPoolObjects => exact hmethod rfl

/-- The objects of a thread with their references, the autoreleased ones included. -/
structure Lifetimes (Obj : Type*) where
  config : PoolConfiguration Obj
  /-- The number of releases that deallocate an object. -/
  references : Obj → ℕ
  /-- The objects retained until the universe ends. -/
  rootObjects : List Obj

namespace Lifetimes

/-- `-retain` -/
def retain (isConstant : Obj → Bool) (s : Lifetimes Obj) (p : Obj) : Lifetimes Obj :=
  if isConstant p then s
  else { s with references := Function.update s.references p (s.references p + 1) }

/-- `-_becomeRootObject` -/
def becomeRootObject (isConstant : Obj → Bool) (s : Lifetimes Obj) (p : Obj) : Lifetimes Obj :=
  if isConstant p then s
  else { s.retain isConstant p with rootObjects := p :: s.rootObjects }

/-- `+mulleParentAutoreleasePool` -/
def mulleParentAutoreleasePool (s : Lifetimes Obj) : Option ℕ :=
  s.config.pools.tail.head?.map NSAutoreleasePool.address

/-- `-_pushToParentAutoreleasePool` -/
def pushToParentAutoreleasePool (isConstant : Obj → Bool) (s : Lifetimes Obj) (p : Obj) :
    Lifetimes Obj :=
  match s.mulleParentAutoreleasePool with
  | some pool =>
    { s.retain isConstant p with config := s.config.addObjectTo isConstant pool p }
  | none => s.becomeRootObject isConstant p

/-- The entries for an object in a pool. -/
def entries (s : Lifetimes Obj) (pool : ℕ) (p : Obj) : ℕ :=
  (storageOf pool s.config.pools).slots.count (some p)

/-- The parent pool has one further entry for the object, and popping the innermost pool
leaves it a reference. -/
structure PushedToParent (s s' : Lifetimes Obj) (innermost parent : ℕ) (p : Obj) : Prop where
  parent_entries : s'.entries parent p = s.entries parent p + 1
  survives : s'.entries innermost p < s'.references p

end Lifetimes

/-- An object that is pushed to the parent pool never gets an entry in it. Of the methods that
add, count or remove objects, emptying a pool acts on its receiver wherever it stands, and each
of the others acts on its receiver, whatever the pools hold, if and only if this is the innermost
pool. -/
theorem instanceMethods_actOn_iff {x : Obj} (hx : isConstant x = false) :
    (∀ (s : Lifetimes Obj) (innermost parent : NSAutoreleasePool Obj)
      (owners : List (NSAutoreleasePool Obj)), s.config.pools = innermost :: parent :: owners →
      (addresses s.config.pools).Nodup → ∀ p,
      ¬ s.PushedToParent (s.pushToParentAutoreleasePool isConstant p) innermost.address
        parent.address p) ∧
    ∀ (stack : List ℕ) (receiver : ℕ), stack.Nodup → receiver ∈ stack → ∀ method : Method,
      (∀ config : PoolConfiguration Obj, addresses config.pools = stack →
        method.ActsOn isConstant receiver config) ↔
      method = .mulleReleaseAllPoolObjects ∨ stack.head? = some receiver := by
  constructor
  · intro s innermost parent owners hpools hnodup p hpushed
    have hne : innermost.address ≠ parent.address := by
      rw [hpools] at hnodup
      exact fun heq => (List.nodup_cons.mp hnodup).1 (by rw [heq]; exact List.mem_cons_self)
    have hentries := hpushed.parent_entries
    have hsame : (s.pushToParentAutoreleasePool isConstant p).entries parent.address p =
        s.entries parent.address p := by
      simp only [Lifetimes.entries, Lifetimes.pushToParentAutoreleasePool,
        Lifetimes.mulleParentAutoreleasePool, hpools, List.tail_cons, List.head?_cons,
        Option.map_some, PoolConfiguration.addObjectTo, PoolConfiguration.autoreleaseObject]
      split
      · rw [hpools]
      · simp [storageOf, hne]
    omega
  · intro stack receiver hnodup hmem method
    constructor
    · intro hacts
      by_contra hnot
      obtain ⟨hmethod, hhead⟩ := not_or.mp hnot
      cases stack with
      | nil => cases hmem
      | cons tail owner =>
        have hne : receiver ≠ tail := by
          rintro rfl
          exact hhead rfl
        exact not_actsOn_filled hx hne ((List.mem_cons.mp hmem).resolve_left hne) hmethod
          (hacts _ (addresses_filled x _))
    · rintro (rfl | hhead) config rfl
      · exact actsOn_mulleReleaseAllPoolObjects hmem
      · exact actsOn_of_head hhead method

/-- Two pools, and an object that is autoreleased in the inner one. -/
def autoreleasedOnce : Lifetimes ℕ := ⟨filled 5 [1, 0], fun _ => 1, []⟩

/-- The object is pushed to the parent pool, and an object is added to each pool. -/
theorem autoreleasedOnce_methods :
    ¬ autoreleasedOnce.PushedToParent
        (autoreleasedOnce.pushToParentAutoreleasePool (fun _ => false) 5) 1 0 5 ∧
      Method.addObject.ActsOn (fun _ => false) 1 (filled 5 [1, 0]) ∧
      ¬ ∀ config : PoolConfiguration ℕ, addresses config.pools = [1, 0] →
        Method.addObject.ActsOn (fun _ => false) 0 config := by
  obtain ⟨hpush, hacts⟩ := @instanceMethods_actOn_iff ℕ _ (fun _ => false) 5 rfl
  refine ⟨hpush autoreleasedOnce _ _ [] rfl (by decide) 5, ?_, ?_⟩
  · exact (hacts [1, 0] 1 (by decide) (by decide) .addObject).mpr (.inr rfl) _ rfl
  · intro hall
    have hor := (hacts [1, 0] 0 (by decide) (by decide) .addObject).mp hall
    exact absurd hor (by decide)

/-- The pushed object gets its second entry in the inner pool. Both of its references go with
this pool, and the parent pool has no entry for it. -/
theorem pushed_object_deallocated :
    autoreleasedOnce.config.pools.length = 2 ∧ autoreleasedOnce.entries 1 5 = 1 ∧
      ∃ s, autoreleasedOnce.pushToParentAutoreleasePool (fun _ => false) 5 = s ∧
        s.entries 0 5 = 0 ∧ s.entries 1 5 = 2 ∧ s.references 5 = 2 ∧
        ¬ autoreleasedOnce.PushedToParent s 1 0 5 ∧
        ¬ Method.addObject.ActsOn (fun _ => false) 0 autoreleasedOnce.config := by
  refine ⟨rfl, rfl, _, rfl, rfl, rfl, rfl, ?_, ?_⟩
  · rintro ⟨-, hsurvives⟩
    exact absurd hsurvives (by decide)
  · exact not_actsOn_filled rfl (by decide) (by decide) (by decide)

end MulleObjC.Pool
