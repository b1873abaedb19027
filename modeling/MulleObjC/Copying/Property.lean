import Mathlib.Data.List.Flatten
import MulleObjC.Library.Holdings

/-!
# Properties of an object

A class lists its properties, category by category, and so do its superclasses. An
object gives up what its ivars own when it is finalized, by a walk over the properties
that can be cleared, and when it is deallocated, by the code of its class.
-/

namespace MulleObjC.Copying

open Holdings

/-- The bits of a property, and the ivar that a search for its `ivarid` finds. -/
structure Property (Ivar : Type*) where
  isDynamic : Bool := false
  isReadonly : Bool := false
  isCopy : Bool := false
  isRetain : Bool := false
  /-- A `copy` property of type `char *`. -/
  isCstring : Bool := false
  isForward : Bool := false
  setterclear : Bool := false
  autoreleaseclear : Bool := false
  ivar : Option Ivar
  deriving DecidableEq

/-- The ivar of the property owns what it holds. -/
def Property.owns {Ivar : Type*} (p : Property Ivar) : Bool := p.isCopy || p.isRetain

/-- `struct _mulle_objc_infraclass` -/
structure Infraclass (Ivar : Type*) where
  /-- The properties of the class itself come first, then those of its categories. -/
  propertylists : List (List (Property Ivar))
  dontInheritCategories : Bool := false
  /-- `MULLE_OBJC_INFRACLASS_HAS_CLEARABLE_PROPERTY` -/
  hasClearableProperty : Bool := true

/-- The properties of a class in the order of a walk. -/
def Infraclass.properties {Ivar : Type*} (infra : Infraclass Ivar) : List (Property Ivar) :=
  let lists := if infra.dontInheritCategories then infra.propertylists.take 1
    else infra.propertylists
  lists.reverse.flatten

/-- The order of `_MulleObjCClassCopyWithAllocatorProperties`, for a class followed by
its superclasses. -/
def walkProperties {Ivar : Type*} (hierarchy : List (Infraclass Ivar)) : List (Property Ivar) :=
  hierarchy.flatMap Infraclass.properties

/-- The order of `_MulleObjCClassWalkClearableProperties`. -/
def walkClearableProperties {Ivar : Type*} (hierarchy : List (Infraclass Ivar)) :
    List (Property Ivar) :=
  (hierarchy.filter (·.hasClearableProperty)).flatMap Infraclass.properties

/-- What an ivar holds. -/
inductive IvarType
  | integer
  /-- `void *` -/
  | pointer
  | object
  /-- `char *` -/
  | string
  deriving DecidableEq, Repr

/-- `-finalize` reaches the ivar of the property. The one of `MulleObject` clears readonly
properties, too. -/
def Property.isCleared {Ivar : Type*} (isMulleObject : Bool) (p : Property Ivar) : Bool :=
  !p.isForward && (p.setterclear || p.isCstring || p.autoreleaseclear) &&
    (!p.isReadonly || isMulleObject)

/-- A class whose objects give up what their ivars own. -/
structure Class (Ivar : Type*) where
  /-- The class, and then its superclasses. -/
  hierarchy : List (Infraclass Ivar)
  isMulleObject : Bool
  type : Ivar → IvarType
  /-- The ivars that the `-dealloc` of the class releases or frees. -/
  deallocIvars : List Ivar
  dynamic_ivar : ∀ p ∈ walkProperties hierarchy, p.isDynamic = true → p.ivar = none
  cstring_copy : ∀ p ∈ walkProperties hierarchy, p.isCstring = true → p.isCopy = true
  type_ivar : ∀ p ∈ walkProperties hierarchy, p.owns = true → ∀ v, p.ivar = some v →
    type v = if p.isCstring then .string else .object
  clear_owns : ∀ p ∈ walkProperties hierarchy,
    (p.setterclear || p.autoreleaseclear) = true → p.owns = true
  dealloc_ivar : ∀ v ∈ deallocIvars, type v = .object ∨ type v = .string
  given_up : ∀ p ∈ walkProperties hierarchy, p.owns = true → ∀ v, p.ivar = some v →
    v ∈ deallocIvars ∨
      ∃ q ∈ walkClearableProperties hierarchy, q.isCleared isMulleObject = true ∧ q.ivar = some v

/-- An object or a string, which belongs to an allocator. -/
inductive Resource (Allocator : Type*)
  | object (o : ℕ)
  | string (allocator : Allocator) (s : ℕ)
  deriving DecidableEq

/-- An object with its ivars. An ivar that holds `nil` or `NULL` is zero. -/
structure Instance (Ivar Allocator : Type*) where
  allocator : Allocator
  ivar : Ivar → ℕ

/-- What an operation on an object reports, and the object behind it. -/
abbrev Outcome (Ivar Allocator : Type*) :=
  List (Event (Resource Allocator)) × Instance Ivar Allocator

variable {Ivar Allocator : Type*} [DecidableEq Ivar]

/-- Do something with the object behind an outcome. -/
def Outcome.andThen (r : Outcome Ivar Allocator)
    (f : Instance Ivar Allocator → Outcome Ivar Allocator) : Outcome Ivar Allocator :=
  (r.1 ++ (f r.2).1, (f r.2).2)

namespace Instance

variable (self : Instance Ivar Allocator)

/-- Zero an ivar and release what it held. -/
def clearIvar (resource : ℕ → Resource Allocator) (v : Ivar) : Outcome Ivar Allocator :=
  if self.ivar v = 0 then ([], self)
  else ([.released (resource (self.ivar v))],
    { self with ivar := Function.update self.ivar v 0 })

/-- `mulle_objc_object_set_property_value` of `NULL`. -/
def setPropertyValueNil (v : Ivar) : Outcome Ivar Allocator := self.clearIvar .object v

/-- `mulle_objc_object_set_property_cstring` of `NULL`. -/
def setPropertyCstringNull (v : Ivar) : Outcome Ivar Allocator :=
  self.clearIvar (.string self.allocator) v

/-- The setter of a property with `NULL`. A setter without an ivar is code of the class. -/
def callSetterNull (p : Property Ivar) : Outcome Ivar Allocator :=
  match p.ivar with
  | none => ([], self)
  | some v => if p.isCstring then self.setPropertyCstringNull v else self.setPropertyValueNil v

/-- `_MulleObjCInstanceClearProperty` -/
def clearProperty (p : Property Ivar) : Outcome Ivar Allocator :=
  if p.isForward then ([], self)
  else if p.setterclear then self.callSetterNull p
  else if p.isCstring then
    match p.ivar with
    | some v => self.setPropertyCstringNull v
    | none => ([], self)
  else if p.autoreleaseclear then
    match p.ivar with
    | some v => self.setPropertyValueNil v
    | none => ([], self)
  else ([], self)

/-- `_MulleObjCInstanceClearPropertyNoReadOnly` -/
def clearPropertyNoReadOnly (p : Property Ivar) : Outcome Ivar Allocator :=
  if p.isReadonly then ([], self) else self.clearProperty p

/-- `_MulleObjCInstanceClearPropertyOnlyReadOnly` -/
def clearPropertyOnlyReadOnly (p : Property Ivar) : Outcome Ivar Allocator :=
  if p.isReadonly then self.clearProperty p else ([], self)

/-- Do something for every item of a list. -/
def walk {Item : Type*} (f : Instance Ivar Allocator → Item → Outcome Ivar Allocator) :
    List Item → Instance Ivar Allocator → Outcome Ivar Allocator
  | [], self => ([], self)
  | i :: is, self => (f self i).andThen (walk f is)

/-- `-finalize` of the class. -/
def finalize (cls : Class Ivar) : Outcome Ivar Allocator :=
  if cls.isMulleObject then
    (walk clearPropertyOnlyReadOnly (walkClearableProperties cls.hierarchy) self).andThen
      (walk clearPropertyNoReadOnly (walkClearableProperties cls.hierarchy))
  else walk clearPropertyNoReadOnly (walkClearableProperties cls.hierarchy) self

/-- `-dealloc` of the class for one of its ivars. -/
def deallocIvar (cls : Class Ivar) (v : Ivar) : Outcome Ivar Allocator :=
  match cls.type v with
  | .string => self.setPropertyCstringNull v
  | _ => self.setPropertyValueNil v

/-- The end of an object. -/
def teardown (cls : Class Ivar) : Outcome Ivar Allocator :=
  (self.finalize cls).andThen (walk (fun self v => self.deallocIvar cls v) cls.deallocIvars)

end Instance

end MulleObjC.Copying
