import Mathlib.Data.List.Basic
import MulleObjC.Library.Blocks
import MulleObjC.Library.Machine

/-!
# Calls of an NSValue

A `_MulleObjCConcreteValue` has its bytes and its type in extra memory behind its only
instance variable, which is the number of the bytes. The type is a C string, whose position
is computed from that number. All values share one memory with everybody else.
-/

namespace MulleObjC.NSValue

/-- What `MulleObjCThrowInvalidArgumentExceptionUTF8String` is called with. -/
structure InvalidArgument where
  format : String
  arguments : List ℕ
  deriving DecidableEq, Repr

/-- A `_MulleObjCConcreteValue`, known by the address of its bytes. -/
structure Object where
  /-- `_MulleObjCConcreteValueBytes` -/
  bytes : ℕ
  /-- `_size` -/
  size : ℕ
  /-- What was added to the size of an instance by `NSAllocateObject`. -/
  extra : ℕ
  deriving DecidableEq, Repr

namespace Object

/-- `_MulleObjCConcreteValueObjCType` -/
def objCType (o : Object) : ℕ := o.bytes + o.size

/-- The cells from the type to the end of the object. -/
def typeSize (o : Object) : ℕ := o.extra - o.size

/-- The extra memory. -/
def block (o : Object) : Memory.Block := ⟨o.bytes, o.extra⟩

end Object

/-- The memory and the values in it. -/
structure State where
  memory : Memory UInt8
  objects : List Object

namespace State

/-- The value with these bytes. -/
def object (s : State) (p : ℕ) : Option Object := s.objects.find? (·.bytes = p)

/-- No value is in the block. -/
def Clear (s : State) (b : Memory.Block) : Prop := ∀ o ∈ s.objects, o.block.Apart b

instance (s : State) (b : Memory.Block) : Decidable (s.Clear b) :=
  inferInstanceAs (Decidable (∀ o ∈ s.objects, _))

end State

/-- What the values get from elsewhere. -/
structure Runtime where
  /-- The size that `NSGetSizeAndAlignment` finds for a type, if it is one. -/
  size : List UInt8 → Option ℕ
  /-- `mulle_data_hash` -/
  dataHash : List UInt8 → BitVec 64

section Methods

variable (rt : Runtime) (m : Memory UInt8)

/-- `NSGetSizeAndAlignment`, of a type with `n` readable cells. -/
def getSize (type n : ℕ) : Option ℕ :=
  (Memory.strlen 0 m type n).bind fun k => rt.size (m.read type k)

/-- The object that `+mulleNewWithBytes:objCType:` allocates at `p`. The size is asserted. -/
def allocateObject (type n p : ℕ) : Option Object :=
  (getSize rt m type n).bind fun size =>
    if size = 0 then none
    else (Memory.strlen 0 m type n).map fun k => ⟨p, size, size + (k + 1)⟩

/-- What `+mulleNewWithBytes:objCType:` does with its object. -/
def fillObject (bytes type : ℕ) (o : Object) : Option (Memory UInt8) :=
  ((m.write o.bytes (List.replicate o.extra 0)).memcpy o.bytes bytes o.size).bind fun m =>
    m.memcpy o.objCType type o.typeSize

/-- `+mulleNewWithBytes:objCType:`, for a type with `n` readable cells and an object that is
allocated at `p`. `none` is undefined. -/
def mulleNewWithBytes (s : State) (bytes type n p : ℕ) : Option (Except InvalidArgument State) :=
  if bytes = 0 then some (.error ⟨"empty bytes", []⟩)
  else if type = 0 then some (.error ⟨"empty type", []⟩)
  else (allocateObject rt s.memory type n p).bind fun o =>
    (fillObject s.memory bytes type o).map fun m => .ok ⟨m, o :: s.objects⟩

/-- The string that the caller of `-objCType` finds. -/
def objCType (o : Object) : Option (List UInt8) :=
  (Memory.strlen 0 m o.objCType o.typeSize).map fun k => m.read o.objCType k

/-- `-getValue:` -/
def getValue (o : Object) (bytes : ℕ) : Option (Except InvalidArgument (Memory UInt8)) :=
  if bytes = 0 then some (.error ⟨"empty bytes", []⟩)
  else (m.memcpy bytes o.bytes o.size).map .ok

/-- `-getValue:size:` -/
def getValueSize (o : Object) (bytes size : ℕ) : Option (Except InvalidArgument (Memory UInt8)) :=
  if bytes = 0 ∧ size ≠ 0 then some (.error ⟨"empty bytes", []⟩)
  else if size ≠ o.size then
    some (.error ⟨"size should be %ld bytes on this platform", [o.size]⟩)
  else (m.memcpy bytes o.bytes o.size).map .ok

/-- `-getValue:size:` of `NSValue`, which the concrete class overrides. -/
def superGetValueSize (o : Object) (bytes size : ℕ) :
    Option (Except InvalidArgument (Memory UInt8)) :=
  if bytes = 0 ∧ size ≠ 0 then some (.error ⟨"NULL bytes", []⟩)
  else (getSize rt m o.objCType o.typeSize).bind fun real =>
    if real ≠ size then
      some (.error ⟨"size should be %ld bytes on this platform", [real]⟩)
    else getValue m o bytes

/-- `MulleObjCGetHashBytesRange`, the offset and the length. -/
def getHashBytesRange (length : ℕ) : ℕ × ℕ :=
  if length > 64 then (length - 64, 64) else (0, length)

/-- `MulleObjCBytesHashRange` -/
def bytesHashRange (buf : ℕ) (range : ℕ × ℕ) : BitVec 64 :=
  if buf = 0 then -1 else rt.dataHash (m.read (buf + range.1) range.2)

/-- `MulleObjCBytesPartialHash` -/
def bytesPartialHash (buf length : ℕ) : BitVec 64 :=
  bytesHashRange rt m buf (getHashBytesRange length)

/-- `-hash` -/
def hash (o : Object) : BitVec 64 := bytesPartialHash rt m o.bytes o.size

/-- `-isEqualToValue:`. Each buffer is as long as the type says and has to be filled by
`-getValue:`, not more and not less. -/
def isEqualToValue (o other : Object) : Option Bool :=
  (Memory.streq 0 m o.objCType o.typeSize other.objCType other.typeSize).bind fun same =>
    if same = false then some false
    else
      (getSize rt m o.objCType o.typeSize).bind fun size =>
        (getSize rt m other.objCType other.typeSize).bind fun otherSize =>
          if size ≠ otherSize then some false
          else if o.size ≠ size ∨ other.size ≠ size then none
          else some (m.read o.bytes size = m.read other.bytes size)

end Methods

/-- `-isEqual:`. `nil` and objects of other classes do not answer `YES` to `__isNSValue`. -/
def isEqual (rt : Runtime) (s : State) (o : Object) (other : ℕ) : Option Bool :=
  if o.bytes = other then some true
  else
    match s.object other with
    | none => some false
    | some o' => isEqualToValue rt s.memory o o'

/-- What is done with the memory. -/
inductive Act
  /-- The type has `n` readable cells, and the object will have its bytes at `p`. -/
  | mulleNewWithBytes (bytes type n p : ℕ)
  | objCType (p : ℕ)
  | getValue (p bytes : ℕ)
  | getValueSize (p bytes size : ℕ)
  | hash (p : ℕ)
  | isEqual (p other : ℕ)
  | dealloc (p : ℕ)
  /-- A write by anybody else. -/
  | write (q : ℕ) (cells : List UInt8)
  deriving DecidableEq

/-- What a caller sees. -/
inductive Event
  | new (p : ℕ)
  | raised (e : InvalidArgument)
  | type (p : ℕ) (s : List UInt8)
  /-- These bytes are in the buffer now. -/
  | value (p : ℕ) (bytes : List UInt8)
  | hash (p : ℕ) (h : BitVec 64)
  | equal (p other : ℕ) (b : Bool)
  deriving DecidableEq

/-- The end of `-getValue:` and `-getValue:size:`. -/
def State.got (s : State) (o : Object) (bytes : ℕ) :
    Except InvalidArgument (Memory UInt8) → List Event × State
  | .error e => ([.raised e], s)
  | .ok m => ([.value o.bytes (m.read bytes o.size)], { s with memory := m })

/-- A call. `none` is undefined. -/
def State.step (rt : Runtime) (s : State) : Act → Option (List Event × State)
  | .mulleNewWithBytes bytes type n p =>
    (mulleNewWithBytes rt s bytes type n p).map fun
      | .error e => ([.raised e], s)
      | .ok s' => ([.new p], s')
  | .objCType p =>
    (s.object p).bind fun o => (objCType s.memory o).map fun t => ([.type p t], s)
  | .getValue p bytes =>
    (s.object p).bind fun o => (getValue s.memory o bytes).map (s.got o bytes)
  | .getValueSize p bytes size =>
    (s.object p).bind fun o => (getValueSize s.memory o bytes size).map (s.got o bytes)
  | .hash p => (s.object p).map fun o => ([.hash p (hash rt s.memory o)], s)
  | .isEqual p other =>
    (s.object p).bind fun o => (isEqual rt s o other).map fun b => ([.equal p other b], s)
  | .dealloc p =>
    (s.object p).map fun o => ([], { s with objects := s.objects.filter (·.bytes ≠ o.bytes) })
  | .write q cells => some ([], { s with memory := s.memory.write q cells })

/-- The allocator gives memory that nobody uses. -/
structure State.Allocates (s : State) (bytes type : ℕ) (o : Object) : Prop where
  bytes_ne : o.bytes ≠ 0
  clear : s.Clear o.block
  apart_bytes : o.block.Apart ⟨bytes, o.size⟩
  apart_type : o.block.Apart ⟨type, o.typeSize⟩

instance (s : State) (bytes type : ℕ) (o : Object) : Decidable (s.Allocates bytes type o) :=
  decidable_of_iff (o.bytes ≠ 0 ∧ s.Clear o.block ∧ o.block.Apart ⟨bytes, o.size⟩ ∧
      o.block.Apart ⟨type, o.typeSize⟩)
    ⟨fun h => ⟨h.1, h.2.1, h.2.2.1, h.2.2.2⟩, fun h => ⟨h.1, h.2, h.3, h.4⟩⟩

/-- What the caller promises: a type is a C string that is known to the runtime, and only
memory that belongs to no value is written. -/
def State.Legal (rt : Runtime) (s : State) : Act → Prop
  | .mulleNewWithBytes bytes type n p =>
    bytes = 0 ∨ type = 0 ∨
      ∃ o ∈ allocateObject rt s.memory type n p, s.Allocates bytes type o
  | .objCType p | .hash p | .isEqual p _ | .dealloc p => (s.object p).isSome
  | .getValue p bytes => ∃ o ∈ s.object p, bytes = 0 ∨ s.Clear ⟨bytes, o.size⟩
  | .getValueSize p bytes size =>
    ∃ o ∈ s.object p, bytes = 0 ∨ size ≠ o.size ∨ s.Clear ⟨bytes, size⟩
  | .write q cells => s.Clear ⟨q, cells.length⟩

instance (rt : Runtime) (s : State) (a : Act) : Decidable (s.Legal rt a) := by
  cases a with
  | mulleNewWithBytes | objCType | getValue | getValueSize | hash | isEqual | dealloc | write =>
    unfold State.Legal
    infer_instance

/-- A memory without any value. -/
def State.init (memory : Memory UInt8) : State := ⟨memory, []⟩

end MulleObjC.NSValue
