import Mathlib.Data.List.Basic

/-!
# Dynamic properties

A dynamic property has no ivar. What its accessors do with a value follows from its
attributes and from the type of its value.
-/

namespace MulleObjC.Dynamic

/-- The first type of a signature, behind its qualifiers. -/
inductive TypeCode
  | cls
  | assignId
  | retainId
  | copyId
  | charptr
  | sel
  | chr
  | uchr
  | sht
  | usht
  | int
  | uint
  | bool
  | lng
  | ulng
  | lngLng
  | ulngLng
  | dbl
  | flt
  | lngDbl
  | ptr (isFunction : Bool)
  /-- Structs, arrays and all that has no code of its own. -/
  | other
  deriving DecidableEq, Repr

/-- `MulleObjCGenericType` -/
inductive GenericType
  /-- As is. -/
  | voidPointer
  /-- strdup/free -/
  | strdup
  /-- Just like void pointer. -/
  | assign
  /-- retain/autorelease -/
  | retain
  /-- copy/autorelease -/
  | copy
  /-- Wrap into `NSValue`. -/
  | value
  /-- Wrap into `NSNumber`. -/
  | number
  deriving DecidableEq, Repr

/-- `_MulleObjCGenericTypeOfSignature`, where some types are as large as a `void *`. -/
def genericTypeOfSignature (isVoidptrStorageCompatible : TypeCode → Bool) :
    TypeCode → GenericType
  | .cls | .assignId => .assign
  | .retainId => .retain
  | .copyId => .copy
  | .charptr => .strdup
  | .sel | .chr | .uchr | .sht | .usht | .int | .uint | .bool => .voidPointer
  | .lng => if isVoidptrStorageCompatible .lng then .voidPointer else .number
  | .ulng => if isVoidptrStorageCompatible .ulng then .voidPointer else .number
  | .lngLng => if isVoidptrStorageCompatible .lngLng then .voidPointer else .number
  | .ulngLng => if isVoidptrStorageCompatible .ulngLng then .voidPointer else .number
  | .dbl | .flt | .lngDbl => .number
  | .ptr isFunction =>
    if isFunction then .voidPointer
    else if isVoidptrStorageCompatible (.ptr true) then .voidPointer
    else .value
  | .other => .value

/-- `struct _mulle_objc_property`. A selector that is missing is zero in the source. -/
structure Property (Sel : Type*) where
  type : TypeCode
  isDynamic : Bool := true
  isReadonly : Bool := false
  isRetain : Bool := false
  isCopy : Bool := false
  isObservable : Bool := false
  isRelationship : Bool := false
  getter : Sel
  setter : Option Sel := none
  adder : Option Sel := none
  remover : Option Sel := none
  deriving DecidableEq

namespace Property

variable {Sel : Type*}

/-- `_MulleObjCGenericTypeOfProperty` -/
def genericType (isVoidptrStorageCompatible : TypeCode → Bool) (p : Property Sel) : GenericType :=
  if p.isRetain then .retain
  else if p.isCopy then .copy
  else
    let ivarType := genericTypeOfSignature isVoidptrStorageCompatible p.type
    if ivarType = .retain then .assign else ivarType

variable [DecidableEq Sel]

/-- `search_methodid`: the property is dynamic, and the selector is one of its accessors. -/
def isFound (methodid : Sel) (p : Property Sel) : Bool :=
  p.isDynamic && (p.getter = methodid || !p.isReadonly &&
    (p.setter = some methodid || p.adder = some methodid || p.remover = some methodid))

end Property

/-- `_MulleObjCClassPointerSearchDynamicProperty`, for the properties of a class and its
superclasses in the order of a walk. -/
def searchDynamicProperty {Sel : Type*} [DecidableEq Sel] (properties : List (Property Sel))
    (methodid : Sel) : Option (Property Sel) :=
  properties.find? (·.isFound methodid)

end MulleObjC.Dynamic
