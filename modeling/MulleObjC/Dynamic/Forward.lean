import Mathlib.Logic.Function.Basic
import MulleObjC.Dynamic.Names

/-!
# Methods on demand

A class gets the methods for its dynamic properties when one of them is called for the first
time. In fully dynamic mode a setter and a getter are made up for any other selector, too, if
that part of `_MulleDynamicObjectForward` is compiled.
-/

namespace MulleObjC.Dynamic

/-- The type behind the return value and the first argument in a signature. -/
structure Signature where
  result : TypeCode
  argument : Option TypeCode := none
  deriving DecidableEq, Repr

/-- `_mulle_objc_descriptor_is_getter_method` and `_mulle_objc_descriptor_is_setter_method` ask
for the method family. -/
inductive MethodFamily
  | getter
  | setter
  | other
  deriving DecidableEq, Repr

/-- `struct _mulle_objc_descriptor` -/
structure Descriptor (Sel : Type*) where
  name : List Char
  methodid : Sel
  signature : Signature
  methodfamily : MethodFamily
  deriving DecidableEq

/-- The implementation of a method. Most setters, adders and removers exist with and without
`WillChange`. -/
inductive Implementation
  /-- Code of a class. -/
  | code
  /-- `_MulleObjectVoidPointerGetter` -/
  | voidPointerGetter
  /-- `_MulleObjectAssignGetterWillReadRelationship` -/
  | assignGetterWillReadRelationship
  /-- `_MulleObjectRetainGetterWillReadRelationship` -/
  | retainGetterWillReadRelationship
  /-- `_MulleDynamicObjectValueGetter` -/
  | valueGetter
  /-- `_MulleObjectVoidPointerSetter` -/
  | voidPointerSetter (willChange : Bool)
  /-- `_MulleObjectStrdupSetter` -/
  | strdupSetter (willChange : Bool)
  /-- `_MulleObjectRetainSetter` -/
  | retainSetter (willChange : Bool)
  /-- `_MulleObjectCopySetter` -/
  | copySetter (willChange : Bool)
  /-- `_MulleObjectGenericValueSetter` -/
  | genericValueSetter (willChange : Bool)
  /-- An implementation of `NSValue`, which calls `_MulleDynamicObjectValueSetter`. -/
  | valueSetter (objcType : TypeCode)
  /-- An implementation of `NSNumber`, which calls `_MulleDynamicObjectNumberSetter`. -/
  | numberSetter (objcType : TypeCode)
  /-- `_MulleObjectAdder`, with and without `WillReadRelationship` -/
  | adder (willChange willReadRelationship : Bool)
  /-- `_MulleObjectRemover`, with and without `WillReadRelationship` -/
  | remover (willChange willReadRelationship : Bool)
  deriving DecidableEq, Repr

/-- What does not change: the classes, their properties, and code from elsewhere. -/
structure Runtime (Cls Sel : Type*) where
  isVoidptrStorageCompatible : TypeCode → Bool
  /-- A class and its superclasses, in the order of a search for a method. -/
  hierarchy : Cls → List Cls
  mem_hierarchy : ∀ infra, infra ∈ hierarchy infra
  /-- The properties of a class and its superclasses, in the order of a walk. -/
  properties : Cls → List (Property Sel)
  isFullyDynamic : Cls → Bool
  /-- `HAVE_FULLY_DYNAMIC_MULLE_DYNAMIC_OBJECT` is defined where `MulleDynamicObject.h` is read.
  `MulleDynamicObject.m` defines it behind its import of that header. -/
  haveFullyDynamic : Bool
  /-- `mulle_objc_class_add_methodlist_nofail` takes a list with this many methods that are all
  zero. -/
  acceptsZeroedMethods : ℕ → Bool
  /-- `mulle_objc_methodid_from_string` -/
  methodidFromString : List Char → Sel
  /-- `MULLE_OBJC_INVALID_METHODID` -/
  invalidMethodid : Sel
  /-- `+[NSValue setterImplementationObjCType:accessorBits:]` returns something. -/
  valueSetterImplementation : Property Sel → Bool
  /-- `+[NSNumber setterImplementationObjCType:accessorBits:]` returns something. -/
  numberSetterImplementation : Property Sel → Bool

/-- What the universe knows, and the methods of the classes. -/
structure Universe (Cls Sel : Type*) where
  methods : Cls → Sel → Option Implementation
  descriptors : Sel → Option (Descriptor Sel)
  /-- `_mulle_objc_universe_search_hashstring` -/
  hashstrings : Sel → Option (List Char)
  /-- `ClassStatic._getter_lookup` -/
  getterLookup : Sel → Option Sel
  methodid_of_descriptors : ∀ sel desc, descriptors sel = some desc → desc.methodid = sel

/-- Why no method is created. -/
inductive Failure
  /-- `mulle_objc_universe_fail_inconsistency` -/
  | inconsistency
  /-- Undefined behaviour. -/
  | undefined
  deriving DecidableEq, Repr

/-- What the search for a method yields: a method, or nothing. Either changes what the universe
knows. -/
inductive Outcome (Cls Sel : Type*)
  | method (imp : Implementation) (u : Universe Cls Sel)
  /-- `*fail = 1` -/
  | fail (u : Universe Cls Sel)
  | failure (failure : Failure)

variable {Cls Sel : Type*}

/-- `mulle_objc_class_add_methodlist_nofail` does not fail, if the methods that are not zero are
those of accessors. -/
def Runtime.takesMethodlist (runtime : Runtime Cls Sel) (zeroed : ℕ) : Bool :=
  zeroed = 0 || runtime.acceptsZeroedMethods zeroed

namespace Property

variable (runtime : Runtime Cls Sel) (property : Property Sel)

/-- `_MulleObjCGenericTypeOfProperty` -/
def ivarType : GenericType := property.genericType runtime.isVoidptrStorageCompatible

/-- `_mulle_objc_method_init_getter` -/
def getterImplementation : Implementation :=
  match property.ivarType runtime with
  | .voidPointer | .strdup => .voidPointerGetter
  | .assign =>
    if property.isRelationship then .assignGetterWillReadRelationship else .voidPointerGetter
  | .copy | .retain =>
    if property.isRelationship then .retainGetterWillReadRelationship else .voidPointerGetter
  -- A getter from `NSNumber` or `NSValue` calls `_MulleDynamicObjectValueGetter`, too.
  | .number | .value => .valueGetter

/-- `_mulle_objc_method_init_setter` -/
def setterImplementation : Implementation :=
  let value : Implementation :=
    if runtime.valueSetterImplementation property then .valueSetter property.type
    else .genericValueSetter property.isObservable
  match property.ivarType runtime with
  | .assign | .voidPointer => .voidPointerSetter property.isObservable
  | .strdup => .strdupSetter property.isObservable
  | .retain => .retainSetter property.isObservable
  | .copy => .copySetter property.isObservable
  | .number =>
    if runtime.numberSetterImplementation property then .numberSetter property.type else value
  | .value => value

/-- Adders and removers can only be created for objects, else `retain_complain`. -/
def isContainerType : Bool :=
  match property.ivarType runtime with
  | .retain | .copy | .assign => true
  | _ => false

/-- The accessors of a property, in order. -/
def accessors : List (AccessorType × Sel) :=
  (.getter, property.getter) ::
    (property.setter.toList.map (.setter, ·) ++ property.adder.toList.map (.adder, ·) ++
      property.remover.toList.map (.remover, ·))

end Property

variable [DecidableEq Cls] [DecidableEq Sel]

namespace Universe

/-- The classes are loaded, and have no methods of their own. -/
def loaded (descs : List (Descriptor Sel)) : Universe Cls Sel where
  methods _ _ := none
  descriptors sel := descs.find? (·.methodid = sel)
  hashstrings _ := none
  getterLookup _ := none
  methodid_of_descriptors := by
    intro sel desc hdesc
    simpa using List.find?_some hdesc

variable (runtime : Runtime Cls Sel) (u : Universe Cls Sel)

/-- `register_getter_lookup` -/
def registerGetterLookup (sel : Sel) (property : Property Sel) :
    Except Failure (Universe Cls Sel) :=
  match u.getterLookup sel with
  | none => .ok { u with
      getterLookup := Function.update u.getterLookup sel (some property.getter) }
  | some otherSel => if otherSel = property.getter then .ok u else .error .inconsistency

/-- `_mulle_objc_universe_register_descriptor_nofail` of the runtime, as documented: the first
descriptor of a selector stays, and is what the caller gets back and goes on with. -/
def registerDescriptor (desc : Descriptor Sel) : Universe Cls Sel :=
  if (u.descriptors desc.methodid).isSome then u
  else
    { u with
      descriptors := Function.update u.descriptors desc.methodid (some desc)
      methodid_of_descriptors := by
        intro sel other hother
        by_cases hsel : sel = desc.methodid
        · subst hsel
          rw [Function.update_self] at hother
          obtain rfl := Option.some.inj hother
          rfl
        · rw [Function.update_of_ne hsel] at hother
          exact u.methodid_of_descriptors sel other hother }

/-- A method of a list that `mulle_objc_class_add_methodlist_nofail` of the runtime adds to a class.
As documented, a search looks into the list that was added last first, and the universe learns the
descriptor of each method. -/
def addMethod (infra : Cls) (desc : Descriptor Sel) (imp : Implementation) : Universe Cls Sel :=
  let u := u.registerDescriptor desc
  { u with
    methods := Function.update u.methods infra
      (Function.update (u.methods infra) desc.methodid (some imp)) }

/-- `mulle_objc_class_search_method` of the runtime with default arguments. As documented, a method
of the class itself comes before those that it inherits, and those of a superclass come in the
order of the superclasses. -/
def searchMethod (infra : Cls) (sel : Sel) : Option Implementation :=
  (runtime.hierarchy infra).findSome? (u.methods · sel)

/-- `_mulle_objc_method_init_getter`, `_mulle_objc_method_init_setter`,
`_mulle_objc_method_init_adder` and `_mulle_objc_method_init_remover`, and where the method goes. -/
def initMethod (infra : Cls) (property : Property Sel) (accessorType : AccessorType)
    (desc : Descriptor Sel) : Except Failure (Universe Cls Sel) :=
  match accessorType with
  | .getter => .ok (u.addMethod infra desc (property.getterImplementation runtime))
  | .setter => do
    let u ← u.registerGetterLookup desc.methodid property
    return u.addMethod infra desc (property.setterImplementation runtime)
  | .adder =>
    if property.isContainerType runtime then do
      let u ← u.registerGetterLookup desc.methodid property
      return u.addMethod infra desc
        (.adder property.isObservable property.isRelationship)
    else .error .inconsistency
  | .remover =>
    if property.isContainerType runtime then do
      let u ← u.registerGetterLookup desc.methodid property
      return u.addMethod infra desc
        (.remover property.isObservable property.isRelationship)
    else .error .inconsistency
  | .invalid => .ok u

/-- The accessors of a property that a class has no method of its own for. -/
def missingMethods (infra : Cls) (property : Property Sel) : List (AccessorType × Sel) :=
  property.accessors.filter fun a => (u.methods infra a.2).isNone

/-- Those of them that have a descriptor. -/
def missingAccessors (infra : Cls) (property : Property Sel) :
    List (AccessorType × Descriptor Sel) :=
  (u.missingMethods infra property).filterMap fun a => (u.descriptors a.2).map (a.1, ·)

/-- The methods of the list that are left all zero. All missing accessors are counted, but those
without a descriptor are not initialized. -/
def zeroedMethods (infra : Cls) (property : Property Sel) : ℕ :=
  (u.missingMethods infra property).countP fun a => (u.descriptors a.2).isNone

/-- `__mulle_objc_infraclass_create_methods_for_property` -/
def createMethodsForProperty (infra : Cls) (property : Property Sel) (neededSel : Sel) :
    Outcome Cls Sel :=
  let accessors := u.missingAccessors infra property
  let zeroed := u.zeroedMethods infra property
  match accessors.foldlM (fun u a => u.initMethod runtime infra property a.1 a.2) u with
  | .error failure => .failure failure
  | .ok u =>
    if !runtime.takesMethodlist zeroed then .failure .inconsistency
    -- `assert( i < n)`
    else if accessors.any (·.2.methodid = neededSel) then
      match u.methods infra neededSel with
      | some imp => .method imp u
      | none => .failure .undefined
    else .failure .undefined

/-- `create_getter_from_setter` -/
def createGetterFromSetter (setter : Descriptor Sel) : Except Failure (Descriptor Sel) :=
  if getterSignatureIsDefined then
    let name := getterName setter.name
    .ok ⟨name, runtime.methodidFromString name, ⟨setter.signature.argument.getD .other, none⟩,
      .getter⟩
  else .error .undefined

/-- `create_setter_from_getter` -/
def createSetterFromGetter (getter : Descriptor Sel) : Except Failure (Descriptor Sel) :=
  if setterSignatureIsDefined then
    let name := setterName getter.name
    .ok ⟨name, runtime.methodidFromString name, ⟨.other, some getter.signature.result⟩, .setter⟩
  else .error .undefined

/-- `create_fake_accessor` -/
def createFakeAccessor (methodid : Sel) (name : List Char) : Option (Descriptor Sel) :=
  match accessorTypeFromString name with
  | .getter => some ⟨name, methodid, ⟨.retainId, none⟩, .getter⟩
  | .setter => some ⟨name, methodid, ⟨.other, some .retainId⟩, .setter⟩
  | _ => none

/-- The property of two accessors that are made up, observable by default. -/
def fakeProperty (getter setter : Descriptor Sel) : Property Sel where
  type := getter.signature.result
  isDynamic := false
  isObservable := true
  getter := getter.methodid
  setter := some setter.methodid

/-- The part of `__mulle_objc_infraclass_create_accessor_methods` behind the search for the
counterpart. -/
def createMethodsForFakeProperty (infra : Cls) (getter setter : Descriptor Sel) (neededSel : Sel) :
    Outcome Cls Sel :=
  if (u.searchMethod runtime infra getter.methodid).isSome ||
      (u.searchMethod runtime infra setter.methodid).isSome then
    .fail u
  else
    let property := fakeProperty getter setter
    let created := do
      let u ← u.initMethod runtime infra property .getter getter
      u.initMethod runtime infra property .setter setter
    match created with
    | .error failure => .failure failure
    | .ok u =>
      match u.methods infra neededSel with
      | some imp => .method imp u
      | none => .failure .undefined

/-- The descriptor that `__mulle_objc_infraclass_create_accessor_methods` finds or makes up. -/
def descriptorOrFake (neededSel : Sel) : Option (Descriptor Sel × Universe Cls Sel) :=
  match u.descriptors neededSel with
  | some desc => some (desc, u)
  | none =>
    (u.hashstrings neededSel).bind fun name =>
      (createFakeAccessor neededSel name).map fun desc => (desc, u.registerDescriptor desc)

/-- `__mulle_objc_infraclass_create_accessor_methods` -/
def createAccessorMethods (infra : Cls) (neededSel : Sel) : Outcome Cls Sel :=
  match u.descriptorOrFake neededSel with
  | none => .fail u
  | some (desc, u) =>
    match desc.methodfamily with
    | .setter =>
      match createGetterFromSetter runtime desc with
      | .ok getter => u.createMethodsForFakeProperty runtime infra getter desc neededSel
      | .error failure => .failure failure
    | .getter =>
      match createSetterFromGetter runtime desc with
      | .ok setter => u.createMethodsForFakeProperty runtime infra desc setter neededSel
      | .error failure => .failure failure
    | .other => .fail u

/-- `_MulleDynamicObjectForward`, up to the call of the method. The methods go to the class of
the object, also if a superclass declares the property. -/
def forward (infra : Cls) (sel : Sel) : Outcome Cls Sel :=
  match searchDynamicProperty (runtime.properties infra) sel with
  | some property => u.createMethodsForProperty runtime infra property sel
  | none =>
    if runtime.haveFullyDynamic && runtime.isFullyDynamic infra then
      u.createAccessorMethods runtime infra sel
    else .fail u

/-- A message finds a method, or is forwarded. -/
def send (infra : Cls) (sel : Sel) : Outcome Cls Sel :=
  match u.searchMethod runtime infra sel with
  | some imp => .method imp u
  | none => u.forward runtime infra sel

end Universe

/-- A class with some properties. The selectors are the names. -/
def oneClass (properties : List (Property (List Char))) : Runtime Unit (List Char) where
  isVoidptrStorageCompatible _ := true
  hierarchy _ := [()]
  mem_hierarchy _ := List.mem_singleton_self _
  properties _ := properties
  isFullyDynamic _ := false
  haveFullyDynamic := false
  acceptsZeroedMethods _ := false
  methodidFromString name := name
  invalidMethodid := []
  valueSetterImplementation _ := false
  numberSetterImplementation _ := false

/-- A property `x` with a setter. -/
def propertyX (type : TypeCode) : Property (List Char) where
  type := type
  getter := ['x']
  setter := some ['s', 'e', 't', 'X', ':']

/-- The accessors of `x` are known. -/
def universeX (type : TypeCode) : Universe Unit (List Char) :=
  .loaded [⟨['x'], ['x'], ⟨type, none⟩, .getter⟩,
    ⟨['s', 'e', 't', 'X', ':'], ['s', 'e', 't', 'X', ':'], ⟨.other, some type⟩, .setter⟩]

end MulleObjC.Dynamic
