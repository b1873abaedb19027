import MulleObjC.Library.Machine
import MulleObjC.Library.ProbeCache
import MulleObjC.Autolock.Calls

/-!
# Method caches of a MulleObject class

A class has two caches. The first one tells for a message whether its method runs at
once or behind `-__lockingForward:`. The second one holds, for the calls behind a lock,
the implementations that `MulleObjectGetForwardImp` found, and in the `userinfo` of its
callback the method that `MulleObjectGetSuperForwardImp` found for `forward:`. Adding a
method list invalidates the first cache and then the second.
-/

namespace MulleObjC.Autolock

/-- `struct _mulle_objc_method` -/
structure Method (Imp : Type*) where
  descriptor : Descriptor
  implementation : Imp
  deriving DecidableEq

/-- What is fixed of a class. -/
structure Class (Sel SuperId Imp : Type*) where
  /-- `@selector( forward:)` -/
  forward : Sel
  /-- `_mulle_objc_class_supersearch_method`, which does not see the class itself. -/
  supersearchMethod : SuperId → Option Descriptor
  /-- `_mulle_objc_class_invalidate_caches_default` of the runtime. -/
  invalidateCachesDefault : Option (List (Sel × Method Imp)) →
    ProbeCache (Sel ⊕ SuperId) Implementation Implementation →
    ProbeCache (Sel ⊕ SuperId) Implementation Implementation

/-- A class with its methods and its caches. -/
structure ClassState (Sel SuperId Imp : Type*) where
  /-- The method that a search without a cache finds. -/
  search : Sel → Option (Method Imp)
  /-- `cls->cachepivot` -/
  cachepivot : ProbeCache (Sel ⊕ SuperId) Implementation Implementation
  /-- `cls->userinfo`, the second cache. -/
  userinfo : ProbeCache Sel Imp (Method Imp)

variable {Sel SuperId Imp : Type*} [DecidableEq Sel] [DecidableEq SuperId]

/-- The second cache for a `uniqueid`, `none` for `MULLE_OBJC_NO_METHODID`, by
`MulleObjectInvalidateSecondLevelCacheEntry`, and whether it was replaced. -/
def invalidateSecondLevelCacheEntry (fcache : ProbeCache Sel Imp (Method Imp)) :
    Option Sel → Bool × ProbeCache Sel Imp (Method Imp)
  | none => if fcache.entries.isEmpty then (false, fcache) else (true, fcache.fresh)
  | some uniqueid =>
    if fcache.entries.isEmpty then (false, fcache)
    else if (fcache.probe uniqueid).isNone then (false, fcache)
    else (true, fcache.fresh)

/-- The loop of `MulleObjectInvalidateSecondLevelCache`, which ends once the cache was
replaced. -/
def invalidateForMethods (fcache : ProbeCache Sel Imp (Method Imp)) :
    List (Sel × Method Imp) → ProbeCache Sel Imp (Method Imp)
  | [] => fcache
  | (methodid, _) :: list =>
    let r := invalidateSecondLevelCacheEntry fcache (some methodid)
    if r.1 then r.2 else invalidateForMethods r.2 list

/-- `MulleObjectInvalidateSecondLevelCache` -/
def invalidateSecondLevelCache (fcache : ProbeCache Sel Imp (Method Imp)) :
    Option (List (Sel × Method Imp)) → ProbeCache Sel Imp (Method Imp)
  | none => (invalidateSecondLevelCacheEntry fcache none).2
  | some list => invalidateForMethods fcache list

namespace ClassState

/-- What a class starts with in `+initialize`. -/
def initial (search : Sel → Option (Method Imp)) : ClassState Sel SuperId Imp :=
  ⟨search, .new, .new⟩

variable (cls : Class Sel SuperId Imp) (s : ClassState Sel SuperId Imp)

/-- `mulle_objc_class_search_method_nofail`; `none` if it raises. -/
def searchMethodNofail (methodid : Sel) : Option (Method Imp) :=
  (s.search methodid).or (s.search cls.forward)

/-- The implementation that a search without a cache returns. -/
def searchImp (methodid : Sel) : Option Imp :=
  (s.searchMethodNofail cls methodid).map (·.implementation)

/-- `MulleObjectGetForwardImp`, and the class behind it; `none` if the search raises. If
the cache grows when it is filled, it keeps `kept`. -/
def getForwardImp (methodid : Sel) (kept : Sel → Bool) : Option Imp × ClassState Sel SuperId Imp :=
  match s.userinfo.probe methodid with
  | some imp => (some imp, s)
  | none =>
    match s.searchMethodNofail cls methodid with
    | none => (none, s)
    | some method =>
      (some method.implementation,
        { s with userinfo := s.userinfo.fill methodid method.implementation kept })

/-- `MulleObjectGetSuperForwardImp`, and the class behind it; `none` if the search raises. -/
def getSuperForwardImp : Option Imp × ClassState Sel SuperId Imp :=
  match s.userinfo.userinfo with
  | some forward => (some forward.implementation, s)
  | none =>
    match s.searchMethodNofail cls cls.forward with
    | none => (none, s)
    | some forward =>
      (some forward.implementation,
        { s with userinfo := { s.userinfo with userinfo := some forward } })

/-- The first cache for a message, filled by `_MulleObjectRefreshMethodNofail`. -/
def lookup (methodid : Sel) (kept : Sel ⊕ SuperId → Bool) :
    Implementation × ClassState Sel SuperId Imp :=
  match s.cachepivot.probe (.inl methodid) with
  | some i => (i, s)
  | none =>
    let i := refreshMethodNofail ((s.search methodid).map (·.descriptor))
    (i, { s with cachepivot := s.cachepivot.fill (.inl methodid) i kept })

/-- The first cache for a message to `super`, filled by
`_MulleObjectRefreshSuperMethodNofail`. -/
def lookupSuper (superid : SuperId) (kept : Sel ⊕ SuperId → Bool) :
    Implementation × ClassState Sel SuperId Imp :=
  match s.cachepivot.probe (.inr superid) with
  | some i => (i, s)
  | none =>
    match cls.supersearchMethod superid with
    | some _ =>
      (.method, { s with cachepivot := s.cachepivot.fill (.inr superid) .method kept })
    | none =>
      let i := s.cachepivot.userinfo.getD .lockingForward
      let icache := { s.cachepivot with userinfo := some i }
      (i, { s with cachepivot := icache.fill (.inr superid) i kept })

/-- `MulleObjectInvalidateCaches` -/
def invalidateCaches (list : Option (List (Sel × Method Imp))) : ClassState Sel SuperId Imp :=
  { s with
    cachepivot := cls.invalidateCachesDefault list s.cachepivot
    userinfo := invalidateSecondLevelCache s.userinfo list }

/-- The search after a method list was added. The list is in front of older ones. -/
def searchWith (list : List (Sel × Method Imp)) (methodid : Sel) : Option (Method Imp) :=
  (list.lookup methodid).or (s.search methodid)

/-- Add a method list to the class. -/
def addMethods (list : List (Sel × Method Imp)) : ClassState Sel SuperId Imp :=
  invalidateCaches cls { s with search := s.searchWith list } (some list)

end ClassState

/-- What happens to a class. -/
inductive ClassAct (Sel SuperId Imp : Type*)
  /-- A message, with what the caches keep if they grow. -/
  | call (methodid : Sel) (kept : Sel ⊕ SuperId → Bool) (keptForward : Sel → Bool)
  /-- A message to `super`. -/
  | superCall (superid : SuperId) (kept : Sel ⊕ SuperId → Bool)
  | addMethods (list : List (Sel × Method Imp))
  /-- `MulleObjectInvalidateCaches` without a list. -/
  | invalidateCaches

namespace ClassState

variable (cls : Class Sel SuperId Imp) (s : ClassState Sel SuperId Imp)

/-- A step of the class. -/
def step : ClassAct Sel SuperId Imp → Option (ClassState Sel SuperId Imp)
  | .call methodid kept keptForward =>
    match s.lookup methodid kept with
    | (.method, s') => some s'
    | (.lockingForward, s') => some (s'.getForwardImp cls methodid keptForward).2
  | .superCall superid kept =>
    match s.lookupSuper cls superid kept with
    | (.method, s') => some s'
    | (.lockingForward, s') => some (s'.getSuperForwardImp cls).2
  | .addMethods list => some (s.addMethods cls list)
  | .invalidateCaches => some (s.invalidateCaches cls none)

/-- Whatever is called now, the implementation is the one that a search without a cache
returns. -/
def Coherent : Prop :=
  (∀ methodid kept, (s.getForwardImp cls methodid kept).1 = s.searchImp cls methodid) ∧
    (s.getSuperForwardImp cls).1 = s.searchImp cls cls.forward

end ClassState

end MulleObjC.Autolock
