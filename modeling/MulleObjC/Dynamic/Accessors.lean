import MulleObjC.Dynamic.Forward
import MulleObjC.Library.OwningMap

/-!
# Accessors of an object

An object keeps the values of its dynamic properties in a map, by the selectors of the
getters. The accessors retain, copy, duplicate or wrap the values, or keep them as they are.
What they acquire and release is reported.
-/

namespace MulleObjC.Dynamic

open Holdings

/-- An object or a string. -/
inductive Resource
  | object (o : ℕ)
  | string (s : ℕ)
  deriving DecidableEq, Repr

/-- How a value is stored. -/
inductive Storage
  /-- As it is. -/
  | raw
  /-- As a duplicate that is freed. -/
  | string
  /-- As an object that is released. -/
  | object
  deriving DecidableEq, Repr

/-- What a value owns on behalf of its key. -/
def Storage.resource {Sel : Type*} (key : Sel) : Storage → ℕ → Option (Sel × Resource)
  | .raw, _ => none
  | .string, value => if value = 0 then none else some (key, .string value)
  | .object, value => if value = 0 then none else some (key, .object value)

/-- What accessors acquire and release, each on behalf of a key. -/
abbrev Report (Sel : Type*) := List (Event (Sel × Resource))

/-- The argument of an accessor. `nil` and `NULL` are zero. -/
structure Message where
  /-- `_param` -/
  param : ℕ := 0
  /-- The string or the block that `_param` points to. -/
  bytes : List UInt8 := []
  /-- What the accessor gets from other code: a copy, a new wrapper or duplicate, or the answer to
  `willReadRelationship:`. -/
  answer : ℕ := 0
  deriving DecidableEq, Repr

/-- What an accessor returns. -/
inductive Returned
  | pointer (value : ℕ)
  /-- The value was copied to the block of the caller. -/
  | block (bytes : List UInt8)
  /-- The block of the caller was left as it was. -/
  | unchanged
  | nothing
  deriving DecidableEq, Repr

/-- A `MulleDynamicObject` -/
structure Instance (Cls Sel : Type*) where
  cls : Cls
  /-- `__ivars` -/
  ivars : AList fun _ : Sel => ℕ
  /-- The contents of the duplicates and wrappers. -/
  contents : ℕ → List UInt8

variable {Cls Sel : Type*} [DecidableEq Cls] [DecidableEq Sel]

/-- `MulleObjectGetKeyForSelector` -/
def getKeyForSelector (runtime : Runtime Cls Sel) (u : Universe Cls Sel) (infra : Cls)
    (methodid : Sel) : Except Failure Sel :=
  match u.getterLookup methodid with
  | none => .error .undefined
  | some key =>
    if key ≠ runtime.invalidMethodid then .ok key
    else
      match searchDynamicProperty (runtime.properties infra) methodid with
      | some property => .ok property.getter
      | none => .error .undefined

namespace Instance

/-- `-init` -/
def init (cls : Cls) : Instance Cls Sel := ⟨cls, ∅, fun _ => []⟩

variable (self : Instance Cls Sel) (key : Sel)

/-- `_mulle__pointermap_get` -/
def get : ℕ := (self.ivars.lookup key).getD 0

/-- `_mulle__pointermap_set` -/
def set (value : ℕ) : Instance Cls Sel := { self with ivars := self.ivars.insert key value }

/-- A value is acquired and stored, then the old one is given up. -/
def replace (storage : Storage) (value : ℕ) : Report Sel × Instance Cls Sel :=
  ((storage.resource key value).toList.map .acquired ++
    (storage.resource key (self.get key)).toList.map .released, self.set key value)

/-- New contents of a duplicate or a wrapper. -/
def write (value : ℕ) (bytes : List UInt8) : Instance Cls Sel :=
  { self with contents := Function.update self.contents value bytes }

variable (m : Message)

/-- `_MulleObjectVoidPointerGetter` -/
def voidPointerGetter : Returned := .pointer (self.get key)

/-- `_MulleObjectAssignGetterWillReadRelationship` -/
def assignGetterWillReadRelationship : Report Sel × Returned × Instance Cls Sel :=
  if self.get key = m.answer then ([], .pointer m.answer, self)
  else ([], .pointer m.answer, self.set key m.answer)

/-- `_MulleObjectRetainGetterWillReadRelationship` -/
def retainGetterWillReadRelationship : Report Sel × Returned × Instance Cls Sel :=
  if self.get key = m.answer then ([], .pointer m.answer, self)
  else
    ((Storage.object.resource key (self.get key)).toList.map .released ++
      (Storage.object.resource key m.answer).toList.map .acquired,
      .pointer m.answer, self.set key m.answer)

/-- `_MulleDynamicObjectValueGetter`: nothing happens if `nil` gets `getValue:`. -/
def valueGetter : Returned :=
  if self.get key = 0 then .unchanged else .block (self.contents (self.get key))

/-- `_MulleObjectVoidPointerSetter` -/
def voidPointerSetter : Report Sel × Instance Cls Sel := self.replace key .raw m.param

/-- `_MulleObjectStrdupSetter` -/
def strdupSetter : Report Sel × Instance Cls Sel :=
  if m.param = 0 then self.replace key .string 0
  else (self.write m.answer m.bytes).replace key .string m.answer

/-- `_MulleObjectRetainSetter` -/
def retainSetter : Report Sel × Instance Cls Sel := self.replace key .object m.param

/-- `_MulleObjectCopySetter` -/
def copySetter : Report Sel × Instance Cls Sel :=
  self.replace key .object (if m.param = 0 then 0 else m.answer)

/-- `_MulleDynamicObjectValueSetter` -/
def valueSetter : Report Sel × Instance Cls Sel :=
  (self.write m.answer m.bytes).replace key .object m.answer

/-- `_MulleDynamicObjectNumberSetter` -/
def numberSetter : Report Sel × Instance Cls Sel :=
  (self.write m.answer m.bytes).replace key .object m.answer

/-- `_MulleObjectGenericValueSetter`, which takes the type from the property of the key. -/
def genericValueSetter (runtime : Runtime Cls Sel) :
    Except Failure (Report Sel × Instance Cls Sel) :=
  match searchDynamicProperty (runtime.properties self.cls) key with
  | some _ => .ok (self.valueSetter key m)
  | none => .error .undefined

/-- `_MulleObjectAdder` and `_MulleObjectRemover`, as far as the object itself is concerned. -/
def changeContainer (willReadRelationship : Bool) : Report Sel × Instance Cls Sel :=
  if willReadRelationship then
    let r := self.retainGetterWillReadRelationship key m
    (r.1, r.2.2)
  else ([], self)

/-- An accessor other than a getter looks up its key first. -/
def withKey (runtime : Runtime Cls Sel) (u : Universe Cls Sel) (methodid : Sel)
    (f : Sel → Except Failure (Report Sel × Instance Cls Sel)) :
    Except Failure (Report Sel × Returned × Instance Cls Sel) :=
  match getKeyForSelector runtime u self.cls methodid with
  | .error failure => .error failure
  | .ok key => (f key).map fun r => (r.1, .nothing, r.2)

/-- The call of an accessor. What `willChange` does is not about the values. -/
def perform (runtime : Runtime Cls Sel) (u : Universe Cls Sel) (imp : Implementation)
    (methodid : Sel) : Except Failure (Report Sel × Returned × Instance Cls Sel) :=
  let withKey := self.withKey runtime u methodid
  match imp with
  | .code => .ok ([], .nothing, self)
  | .voidPointerGetter => .ok ([], self.voidPointerGetter methodid, self)
  | .assignGetterWillReadRelationship => .ok (self.assignGetterWillReadRelationship methodid m)
  | .retainGetterWillReadRelationship => .ok (self.retainGetterWillReadRelationship methodid m)
  | .valueGetter => .ok ([], self.valueGetter methodid, self)
  | .voidPointerSetter _ => withKey fun key => .ok (self.voidPointerSetter key m)
  | .strdupSetter _ => withKey fun key => .ok (self.strdupSetter key m)
  | .retainSetter _ => withKey fun key => .ok (self.retainSetter key m)
  | .copySetter _ => withKey fun key => .ok (self.copySetter key m)
  | .genericValueSetter _ => withKey fun key => self.genericValueSetter key m runtime
  | .valueSetter _ => withKey fun key => .ok (self.valueSetter key m)
  | .numberSetter _ => withKey fun key => .ok (self.numberSetter key m)
  | .adder _ willReadRelationship =>
    withKey fun key => .ok (self.changeContainer key m willReadRelationship)
  | .remover _ willReadRelationship =>
    withKey fun key => .ok (self.changeContainer key m willReadRelationship)

/-- `release_generic_value` decides what is done about a value. -/
def releaseStorage (runtime : Runtime Cls Sel) : Option (Property Sel) → Storage
  | some property =>
    match property.ivarType runtime with
    | .voidPointer => .raw
    | .strdup => .string
    | _ => .object
  | none => .object

/-- What `-finalize` does about the value of a key. -/
def finalStorage (runtime : Runtime Cls Sel) : Storage :=
  releaseStorage runtime (searchDynamicProperty (runtime.properties self.cls) key)

/-- `-finalize`. The setters that `[super finalize]` calls with `nil` are calls like others. -/
def finalize (runtime : Runtime Cls Sel) : Report Sel × Instance Cls Sel :=
  (OwningMap.giveUp (fun key => (self.finalStorage key runtime).resource key) self.ivars,
    { self with ivars := ∅ })

end Instance

end MulleObjC.Dynamic
