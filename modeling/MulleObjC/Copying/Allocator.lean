import MulleObjC.Copying.Teardown

/-!
# Copies with an allocator

`-copyWithAllocator:` starts from the bytes of the source and then walks the properties.
A `copy` property of the clone gets a copy or a duplicated string, and the source loses
its own. Everything else stays as the bytes have it.
-/

namespace MulleObjC.Copying

open Holdings

/-- What allocations do. -/
structure World where
  /-- The text of the string at an address. -/
  text : ℕ → List Char
  /-- The address of the next string. -/
  next : ℕ

/-- `mulle_allocator_strdup`: the duplicate is at the next address. -/
def World.strdup (w : World) (s : ℕ) : World where
  text := Function.update w.text w.next (w.text s)
  next := w.next + 1

/-- `struct copy_info`, and what happened so far. -/
structure CopyInfo (Ivar Allocator : Type*) where
  obj : Instance Ivar Allocator
  clone : Instance Ivar Allocator
  world : World
  events : List (Event (Resource Allocator))

/-- The result of `_MulleObjCInstanceCopyWithAllocator`. -/
inductive Copied (Ivar Allocator : Type*)
  /-- `[obj retain]` -/
  | retained
  | cloned (info : CopyInfo Ivar Allocator)

variable {Ivar Allocator : Type*} [DecidableEq Ivar]

/-- `-copyWithAllocator:` does something about the property. -/
def Property.isCopied (p : Property Ivar) : Bool := !p.isDynamic && (p.isCstring || p.isCopy)

namespace CopyInfo

variable (copyWithAllocator : ℕ → ℕ) (info : CopyInfo Ivar Allocator)

/-- A string is duplicated into the clone, and the source frees its own. -/
def duplicate (v : Ivar) : CopyInfo Ivar Allocator :=
  let r := info.obj.setPropertyCstringNull v
  { obj := r.2
    clone := { info.clone with ivar := Function.update info.clone.ivar v info.world.next }
    world := info.world.strdup (info.obj.ivar v)
    events := info.events ++ [.acquired (.string info.clone.allocator info.world.next)] ++ r.1 }

/-- An object is copied into the clone, and the source releases its own. A readonly
property is zeroed once more. -/
def copyValue (p : Property Ivar) (v : Ivar) : CopyInfo Ivar Allocator :=
  let value := copyWithAllocator (info.obj.ivar v)
  let r := info.obj.setPropertyValueNil v
  let r' := if p.autoreleaseclear then r.andThen fun obj => obj.setPropertyValueNil v else r
  { info with
    obj := r'.2
    clone := { info.clone with ivar := Function.update info.clone.ivar v value }
    events := info.events ++ (if value = 0 then [] else [.acquired (.object value)]) ++ r'.1 }

/-- `_MulleObjCInstanceCopyWithAllocatorProperty`; `none` if the offset of an ivar that does
not exist is read. -/
def copyProperty (p : Property Ivar) : Option (CopyInfo Ivar Allocator) :=
  if p.isDynamic then some info
  else if p.isCstring then
    match p.ivar with
    | none => none
    | some v => if info.obj.ivar v = 0 then some info else some (info.duplicate v)
  else if !p.isCopy then some info
  else
    match p.ivar with
    | none => none
    | some v => if info.obj.ivar v = 0 then some info else some (info.copyValue copyWithAllocator p v)

/-- `_MulleObjCClassCopyWithAllocatorProperties` -/
def copyProperties : List (Property Ivar) → CopyInfo Ivar Allocator →
    Option (CopyInfo Ivar Allocator)
  | [], info => some info
  | p :: ps, info => (info.copyProperty copyWithAllocator p).bind (copyProperties ps)

end CopyInfo

/-- `_MulleObjCInstanceCopyWithAllocator`. Other objects answer `copyWithAllocator:` with the
object that `copyWithAllocator` tells. -/
def Instance.copyWithAllocator [DecidableEq Allocator] (cls : Class Ivar)
    (copyWithAllocator : ℕ → ℕ) (allocator : Allocator) (world : World)
    (obj : Instance Ivar Allocator) : Option (Copied Ivar Allocator) :=
  if obj.allocator = allocator then some .retained
  else
    (CopyInfo.copyProperties copyWithAllocator (walkProperties cls.hierarchy)
      ⟨obj, { allocator := allocator, ivar := obj.ivar }, world, []⟩).map .cloned

end MulleObjC.Copying
