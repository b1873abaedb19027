import Mathlib.Data.Finset.Insert
import Mathlib.Data.Finset.Option
import MulleObjC.Access.World
import MulleObjC.Invocation.Owned

/-!
# Access to a graph of objects

`-mulleRelinquishAccess` and `-mulleGainAccess` go through the objects that an object
keeps in its instance variables, or an invocation in its slots. A set of the objects they
have come across keeps them from calling an object twice.
-/

namespace MulleObjC.Access

open Invocation (TypeInfo)

universe u

/-- `_mulle_objc_property`, as far as access is concerned. -/
structure Property (Ivar : Type*) where
  /-- The instance variable that backs the property, if there is one. -/
  ivar : Option Ivar
  isRetain : Bool
  isCopy : Bool

/-- An instance of a class that inherits the methods of `NSObject`. -/
structure NSObject (Obj Ivar : Type*) where
  strategy : TAOStrategy
  /-- All properties, from the class up to the root class. -/
  properties : List (Property Ivar)
  /-- All instance variables, from the root class down to the class. -/
  ivars : List Ivar
  /-- `_mulle_objc_signature_is_object`, for the signature of an instance variable. -/
  isObject : Ivar → Bool
  value : Ivar → Option Obj

/-- An `NSInvocation`. -/
structure NSInvocation (Obj : Type*) where
  strategy : TAOStrategy
  /-- The slots of the return value, the target, the selector and the arguments. An empty
  invocation has none. -/
  infos : List TypeInfo
  /-- The object that is stored at an offset. -/
  slot : ℕ → Option Obj

/-- What an object is. -/
inductive Kind (Obj Ivar : Type*)
  | cls
  | object (self : NSObject Obj Ivar)
  | invocation (self : NSInvocation Obj)

/-- Some objects and what they refer to. -/
structure Graph (Obj Ivar : Type*) where
  kind : Obj → Kind Obj Ivar
  isConstant : Obj → Bool

/-- The set of the objects met so far, which may contain `nil`, and the objects whose
affinity was changed, in order. -/
structure Progress (Obj : Type*) where
  uniquing : Finset (Option Obj)
  performed : List Obj

/-- Why a message does not return. -/
inductive Failure (Obj : Type*)
  /-- An exception is thrown, after the affinity of these objects was changed. -/
  | exception (performed : List Obj)
  /-- There are more calls inside of each other than allowed. -/
  | tooDeep
  deriving DecidableEq

/-- The result of a message. -/
abbrev Result (Obj : Type*) := Except (Failure Obj)

variable {Obj Ivar : Type u}

/-- `-mulleTAOStrategy` -/
def Kind.strategy : Kind Obj Ivar → TAOStrategy
  | .cls => .knownThreadSafe
  | .object self => self.strategy
  | .invocation self => self.strategy

/-- A class object does nothing when its access is transferred. -/
def Kind.isInstance : Kind Obj Ivar → Bool
  | .cls => false
  | .object _ | .invocation _ => true

/-- The classes of the objects. -/
def Graph.classes (g : Graph Obj Ivar) : Classes Obj :=
  ⟨g.isConstant, fun o => (g.kind o).strategy⟩

/-- The object is not a class object. -/
def Graph.isInstance (g : Graph Obj Ivar) (o : Obj) : Bool := (g.kind o).isInstance

/-- The strategies that transfer instance variables as well. -/
def TAOStrategy.transfersIvars : TAOStrategy → Bool
  | .callerRemovesFromCurrentPool | .callerRemovesFromAllPools | .transferIvars => true
  | _ => false

/-- `-mulleGainAccessWithTAOStrategy:` or `-mulleRelinquishAccessWithTAOStrategy:` -/
def Progress.perform (p : Progress Obj) (o : Obj) : Progress Obj :=
  { p with performed := p.performed ++ [o] }

variable [DecidableEq Obj]

/-- `mulle_pointerset_insert` of a pointer that is not in the set. -/
def Progress.insert (p : Progress Obj) (x : Option Obj) : Progress Obj :=
  { p with uniquing := Insert.insert x p.uniquing }

section Send

/- The method that an object is sent, if it is not `nil`. -/
variable (send : Obj → Progress Obj → Result Obj (Progress Obj))

/-- `_MulleObjCIvarCallGainOrRelinquishAccessWithContext`, with the value of the ivar -/
def callIvar (value : Option Obj) (p : Progress Obj) : Result Obj (Progress Obj) :=
  if value ∈ p.uniquing then .ok p
  else
    match value with
    | none => .ok (p.insert none)
    | some o => send o (p.insert (some o))

/-- `-mulleGainAccessWithUniquingSetIfAbsent:` or its counterpart -/
def sendIfAbsent (obj : Option Obj) (p : Progress Obj) : Result Obj (Progress Obj) :=
  match obj with
  | none => .ok p
  | some o => if some o ∈ p.uniquing then .ok p else send o (p.insert (some o))

namespace NSObject

variable [DecidableEq Ivar] (self : NSObject Obj Ivar)

/-- What the callbacks of both walks do with an instance variable that was not met before. -/
def callback (s : Finset Ivar × Progress Obj) (ivar : Ivar) (transfers : Bool) :
    Result Obj (Finset Ivar × Progress Obj) :=
  if ivar ∈ s.1 then .ok s
  else if transfers then (callIvar send (self.value ivar) s.2).map (insert ivar s.1, ·)
  else .ok (insert ivar s.1, s.2)

/-- `_MulleObjCPropertyGainOrRelinquishAccessCallbackWithContext` -/
def propertyCallback (s : Finset Ivar × Progress Obj) (property : Property Ivar) :
    Result Obj (Finset Ivar × Progress Obj) :=
  match property.ivar with
  | none => .ok s
  | some ivar => self.callback send s ivar (property.isRetain || property.isCopy)

/-- `_MulleObjCIvarCallbackGainOrRelinquishAccessWithContext` -/
def ivarCallback (s : Finset Ivar × Progress Obj) (ivar : Ivar) :
    Result Obj (Finset Ivar × Progress Obj) :=
  self.callback send s ivar (self.isObject ivar)

/-- `_MulleObjCObjectGainOrRelinquishAccessToIvars` -/
def gainOrRelinquishAccessToIvars (p : Progress Obj) : Result Obj (Progress Obj) := do
  let s ← self.properties.foldlM (self.propertyCallback send) (∅, p)
  let s ← self.ivars.foldlM (self.ivarCallback send) s
  return s.2

end NSObject

namespace NSInvocation

variable (self : NSInvocation Obj)

/-- `_performArgumentMemberOperation:withArgument:signatureTypeInfo:atIndex:` and the
variant for the return value. Strings are left alone. -/
def performMemberOperation (info : TypeInfo) (p : Progress Obj) : Result Obj (Progress Obj) := do
  let objects := info.slotMembers.filter (·.kind.resource = .object)
  let p ← objects.foldlM (fun p m => sendIfAbsent send (self.slot m.offset) p) p
  if info.ownedMembers.offset.isSome then return p else throw (.exception p.performed)

/-- What `NSInvocationMakeObjectArgumentsPerformSelector` does with a slot. -/
def performSlot (p : Progress Obj) (info : TypeInfo) : Result Obj (Progress Obj) :=
  match info.type with
  | .array _ _ | .struct _ | .union _ =>
    if info.type.hasRetainable then self.performMemberOperation send info p else .ok p
  | .cls | .assignId | .retainId | .copyId =>
    sendIfAbsent send (self.slot info.invocationOffset) p
  | .scalar _ | .charPtr => .ok p

/-- `NSInvocationMakeObjectArgumentsPerformSelector` -/
def makeObjectArgumentsPerformSelector (p : Progress Obj) : Result Obj (Progress Obj) :=
  self.infos.foldlM (self.performSlot send) p

end NSInvocation

end Send

namespace Graph

variable [DecidableEq Ivar] (g : Graph Obj Ivar)

/-- `mulleGainAccessWithUniquingSet:` of an object, an invocation or a class, if `fuel`
calls may be open. -/
def gainAccessWithUniquingSet : ℕ → Obj → Progress Obj → Result Obj (Progress Obj)
  | 0, _, _ => .error .tooDeep
  | fuel + 1, o, p =>
    match g.kind o with
    | .cls => .ok p
    | .object self =>
      let p := p.perform o
      if self.strategy.transfersIvars then
        self.gainOrRelinquishAccessToIvars (gainAccessWithUniquingSet fuel) p
      else .ok p
    | .invocation self =>
      self.makeObjectArgumentsPerformSelector (gainAccessWithUniquingSet fuel) (p.perform o)

/-- `mulleRelinquishAccessWithUniquingSet:` of an object, an invocation or a class, if
`fuel` calls may be open. -/
def relinquishAccessWithUniquingSet : ℕ → Obj → Progress Obj → Result Obj (Progress Obj)
  | 0, _, _ => .error .tooDeep
  | fuel + 1, o, p =>
    match g.kind o with
    | .cls => .ok p
    | .object self => do
      let p ← (if self.strategy.transfersIvars then
          self.gainOrRelinquishAccessToIvars (relinquishAccessWithUniquingSet fuel) p
        else .ok p)
      return p.perform o
    | .invocation self => do
      let p ← self.makeObjectArgumentsPerformSelector (relinquishAccessWithUniquingSet fuel) p
      return p.perform o

/-- `-mulleGainAccess` -/
def gainAccess (fuel : ℕ) (o : Obj) : Result Obj (Progress Obj) :=
  g.gainAccessWithUniquingSet fuel o ⟨{some o}, []⟩

/-- `-mulleRelinquishAccess` -/
def relinquishAccess (fuel : ℕ) (o : Obj) : Result Obj (Progress Obj) :=
  g.relinquishAccessWithUniquingSet fuel o ⟨{some o}, []⟩

end Graph

end MulleObjC.Access
