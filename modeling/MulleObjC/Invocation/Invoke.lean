import MulleObjC.Library.Memory
import MulleObjC.Invocation.Signature

/-!
# Invocations

An invocation keeps the target, the selector, the arguments and the return value in its
storage. `-invoke` passes a pointer to the method, either the single pointer argument, or
a pointer to the arguments in the storage, as the MetaABI demands for the nine call types.
A method that returns a parameter block writes it where the arguments begin.
-/

namespace MulleObjC.Invocation

/-- What is reported instead of a result. -/
inductive Failure
  /-- `MulleObjCThrowInvalidIndexException` -/
  | invalidIndex (i : ℕ)
  /-- `MulleObjCThrowInternalInconsistencyExceptionUTF8String` -/
  | internalInconsistency (reason : String)
  /-- The C language defines no behaviour. -/
  | undefined
  deriving DecidableEq, Repr

/-- All bits are zero: `nil` or no selector. -/
def isNil (bytes : List UInt8) : Bool := bytes.all (· == 0)

variable {abi : MetaABI}

/-- `NSInvocation` -/
structure NSInvocation (sig : NSMethodSignature abi) where
  /-- `_storage` -/
  storage : Memory UInt8
  /-- The distance of `_sentinel` to `_storage`. -/
  size : ℕ
  invocationSize_le : sig.invocationSize ≤ size
  /-- The `_implementation` is set. -/
  hasImplementation : Bool

/-- What a method is called with. -/
structure Call where
  target : List UInt8
  selector : List UInt8
  arguments : List (List UInt8)
  deriving DecidableEq, Repr

/-- The number of bytes a method produces: nothing, a pointer or a parameter block. -/
def NSMethodSignature.resultLength (sig : NSMethodSignature abi) : ℕ :=
  match sig.returnType with
  | .void => 0
  | .voidPointer => 8
  | .parameterBlock => sig.rval.naturalSize

/-- `&storage[ infos[ 3].invocation_offset]` -/
def NSMethodSignature.argumentsPointer (sig : NSMethodSignature abi) : Except Failure ℕ :=
  match sig.infos[3]? with
  | some info => .ok info.invocationOffset
  | none => .error .undefined

/-- A method with the signature. -/
structure Callee (sig : NSMethodSignature abi) where
  run : Call → List UInt8
  length_run : ∀ call, (run call).length = sig.resultLength

theorem Callee.length_of_block {sig : NSMethodSignature abi} (callee : Callee sig)
    (h : sig.returnType = .parameterBlock) (call : Call) :
    (callee.run call).length = sig.rval.naturalSize := by
  rw [callee.length_run, NSMethodSignature.resultLength, h]

/-- A method that returns something produces all bytes of the return value. -/
theorem Callee.le_length {sig : NSMethodSignature abi} (callee : Callee sig)
    (h : sig.returnType ≠ .void) (call : Call) :
    sig.rval.naturalSize ≤ (callee.run call).length := by
  rw [callee.length_run, NSMethodSignature.resultLength]
  cases hreturn : sig.returnType with
  | void => exact absurd hreturn h
  | voidPointer => exact sig.returnType_voidPointer hreturn
  | parameterBlock => exact Nat.le_refl _

/-- The `_param` of a method. -/
inductive Parameter
  /-- The receiver stands in for the parameter of a method without any. -/
  | target
  | value (p : List UInt8)
  /-- The address of a parameter block. -/
  | block (p : ℕ)
  deriving DecidableEq, Repr

/-- The arguments that a method finds, if its parameter block is in the memory. -/
def NSMethodSignature.received (sig : NSMethodSignature abi) (m : Memory UInt8) :
    Parameter → List (List UInt8)
  | .target => []
  | .value p => sig.args.map fun a => p.take a.naturalSize
  | .block p => sig.args.map fun a => m.read (p + (a.invocationOffset - 16)) a.naturalSize

namespace NSInvocation

variable {sig : NSMethodSignature abi} (inv : NSInvocation sig)

/-- Change bytes of the storage. -/
def store (p : ℕ) (bytes : List UInt8) : NSInvocation sig :=
  { inv with storage := inv.storage.write p bytes }

@[simp] theorem store_storage (p : ℕ) (bytes : List UInt8) :
    (inv.store p bytes).storage = inv.storage.write p bytes := rfl

@[simp] theorem store_size (p : ℕ) (bytes : List UInt8) : (inv.store p bytes).size = inv.size := rfl

@[simp] theorem store_hasImplementation (p : ℕ) (bytes : List UInt8) :
    (inv.store p bytes).hasImplementation = inv.hasImplementation := rfl

/-- `pointerAndSizeOfArgumentValue` -/
def pointerAndSizeOfArgumentValue (i : ℕ) : Except Failure (ℕ × ℕ) :=
  match sig.infos[i]? with
  | none => .error (.invalidIndex i)
  | some info =>
    if info.slotEnd ≤ inv.size then .ok (info.invocationOffset, info.naturalSize)
    else .error (.invalidIndex i)

/-- `NSInvocationGetReturnValue` at the index `0`, `NSInvocationGetArgumentAtIndex` behind. -/
def getValue (i : ℕ) : Except Failure (List UInt8) := do
  let (adr, size) ← inv.pointerAndSizeOfArgumentValue i
  return inv.storage.read adr size

/-- `NSInvocationSetReturnValue` at the index `0`, `NSInvocationSetArgumentAtIndex` behind,
of a value outside of the invocation. -/
def setValue (i : ℕ) (value : List UInt8) : Except Failure (NSInvocation sig) := do
  let (adr, size) ← inv.pointerAndSizeOfArgumentValue i
  if size ≤ value.length then return inv.store adr (value.take size) else throw .undefined

/-- As `setValue`, of a value at an address inside of the storage. -/
def copyValue (i p : ℕ) : Except Failure (NSInvocation sig) := do
  let (adr, size) ← inv.pointerAndSizeOfArgumentValue i
  match inv.storage.memcpy adr p size with
  | some storage => return { inv with storage := storage }
  | none => throw .undefined

/-- `-getReturnValue:` -/
def getReturnValue : Except Failure (List UInt8) := inv.getValue 0

/-- `-getArgument:atIndex:` -/
def getArgumentAtIndex (i : ℕ) : Except Failure (List UInt8) := inv.getValue (i + 1)

/-- `-setArgument:atIndex:` -/
def setArgumentAtIndex (value : List UInt8) (i : ℕ) : Except Failure (NSInvocation sig) :=
  inv.setValue (i + 1) value

/-- `-target` -/
def target : Except Failure (List UInt8) := inv.getArgumentAtIndex 0

/-- `-selector` -/
def selector : Except Failure (List UInt8) := inv.getArgumentAtIndex 1

/-- The parameter in `__NSInvocationInvokeWithTargetAndMessageSignature`. -/
def messageParameter : Except Failure Parameter :=
  match sig.paramType, sig.returnType with
  | .voidPointer, .voidPointer | .voidPointer, .void => do
    return .value (inv.storage.read (← sig.argumentsPointer) 8)
  | .void, .voidPointer | .void, .void => return .target
  | .parameterBlock, .voidPointer | .parameterBlock, .void | .voidPointer, .parameterBlock
  | .parameterBlock, .parameterBlock => return .block (← sig.argumentsPointer)
  | .void, .parameterBlock => return .block 0

/-- The parameter in `__NSInvocationCallIMP`. -/
def implementationParameter : Except Failure Parameter :=
  match sig.paramType, sig.returnType with
  | .voidPointer, .voidPointer | .voidPointer, .void => do
    return .value (inv.storage.read (← sig.argumentsPointer) 8)
  | .void, .voidPointer | .void, .void => return .target
  | _, _ => return .block (← sig.argumentsPointer)

/-- The parameter that `-invoke` passes. -/
def parameter : Except Failure Parameter :=
  if inv.hasImplementation then inv.implementationParameter else inv.messageParameter

/-- Call the method and store what it returns. -/
def perform (sel target : List UInt8) (param : Parameter) (callee : Callee sig) :
    Except Failure (Call × NSInvocation sig) := do
  let call := ⟨target, sel, sig.received inv.storage param⟩
  match sig.returnType, param with
  | .void, _ => return (call, inv)
  | .voidPointer, _ => return (call, ← inv.setValue 0 (callee.run call))
  | .parameterBlock, .block p =>
    return (call, ← (inv.store p (callee.run call)).copyValue 0 p)
  | .parameterBlock, _ => throw .undefined

/-- `-invokeWithTarget:`, with the method that is found or the `_implementation`. -/
def invokeWithTarget (target : List UInt8) (callee : Callee sig) :
    Except Failure (List Call × NSInvocation sig) :=
  if isNil target then .ok ([], inv)
  else do
    let sel ← inv.selector
    if isNil sel then
      throw (.internalInconsistency "NSInvocation: selector has not been set yet")
    let param ← inv.parameter
    let (call, inv') ← inv.perform sel target param callee
    return ([call], inv')

/-- `-invoke` -/
def invoke (callee : Callee sig) : Except Failure (List Call × NSInvocation sig) := do
  inv.invokeWithTarget (← inv.target) callee

end NSInvocation

end MulleObjC.Invocation
