import MulleObjC.Invocation.Forward

/-!
# Calls through an implementation

An invocation with an `_implementation` calls it. An invocation without messages its target,
which calls the same implementation if it is the one that is found. The two ways choose the
parameter and store the return value on their own. An implementation can change the storage.
The storage is of any size here, as that of a variadic method is.
-/

namespace MulleObjC.Invocation

/-- What an implementation is given, and the storage that its parameter may point into. It
produces the bytes of a pointer. -/
abbrev Implementation :=
  (target sel : List UInt8) → Parameter → Memory UInt8 → List UInt8 × Memory UInt8

/-- What is reported instead of a result. -/
inductive Fault
  /-- An arginfo was read that the signature does not have. -/
  | arginfo (i : ℕ)
  | failure (f : Failure)
  deriving DecidableEq, Repr

/-- The storage of an invocation. -/
structure Contents where
  /-- `_storage` -/
  storage : Memory UInt8
  /-- The distance of `_sentinel` to `_storage`. -/
  size : ℕ

variable {abi : MetaABI} (sig : NSMethodSignature abi)

namespace NSMethodSignature

/-- `infos[ i]` -/
def arginfo (i : ℕ) : Except Fault TypeInfo :=
  match sig.infos[i]? with
  | some info => .ok info
  | none => .error (.arginfo i)

/-- `NSInvocationSetReturnValue`, of a value outside of the invocation. -/
def setReturnValue (c : Contents) (value : List UInt8) : Except Fault Contents :=
  if ¬ sig.rval.slotEnd ≤ c.size then .error (.failure (.invalidIndex 0))
  else if sig.rval.naturalSize ≤ value.length then
    .ok { c with
      storage := c.storage.write sig.rval.invocationOffset (value.take sig.rval.naturalSize) }
  else .error (.failure .undefined)

/-- As `setReturnValue`, of a value at an address inside of the storage. -/
def copyReturnValue (c : Contents) (p : ℕ) : Except Fault Contents :=
  if ¬ sig.rval.slotEnd ≤ c.size then .error (.failure (.invalidIndex 0))
  else
    match c.storage.memcpy sig.rval.invocationOffset p sig.rval.naturalSize with
    | some storage => .ok { c with storage := storage }
    | none => .error (.failure .undefined)

/-- `__NSInvocationInvokeWithTargetAndMessageSignature`, with the implementation that the
message finds. The parameter is part of the result. -/
def invokeWithTargetAndMessageSignature (imp : Implementation) (sel target : List UInt8)
    (c : Contents) : Except Fault (Parameter × Contents) :=
  match sig.paramType, sig.returnType with
  | .voidPointer, .voidPointer => do
    let info ← sig.arginfo 3
    let param := .value (c.storage.read info.invocationOffset 8)
    let (rval, storage) := imp target sel param c.storage
    return (param, ← sig.setReturnValue { c with storage := storage } rval)
  | .voidPointer, .void => do
    let info ← sig.arginfo 3
    let param := .value (c.storage.read info.invocationOffset 8)
    let (_, storage) := imp target sel param c.storage
    return (param, { c with storage := storage })
  | .void, .voidPointer => do
    let (rval, storage) := imp target sel .target c.storage
    return (.target, ← sig.setReturnValue { c with storage := storage } rval)
  | .void, .void => do
    let (_, storage) := imp target sel .target c.storage
    return (.target, { c with storage := storage })
  | .parameterBlock, .voidPointer => do
    let info ← sig.arginfo 3
    let (rval, storage) := imp target sel (.block info.invocationOffset) c.storage
    return (.block info.invocationOffset,
      ← sig.setReturnValue { c with storage := storage } rval)
  | .parameterBlock, .void => do
    let info ← sig.arginfo 3
    let (_, storage) := imp target sel (.block info.invocationOffset) c.storage
    return (.block info.invocationOffset, { c with storage := storage })
  | .voidPointer, .parameterBlock => do
    let info ← sig.arginfo 3
    let (_, storage) := imp target sel (.block info.invocationOffset) c.storage
    return (.block info.invocationOffset,
      ← sig.copyReturnValue { c with storage := storage } info.invocationOffset)
  | .void, .parameterBlock => do
    let (_, storage) := imp target sel (.block 0) c.storage
    return (.block 0, ← sig.copyReturnValue { c with storage := storage } 0)
  | .parameterBlock, .parameterBlock => do
    let info ← sig.arginfo 3
    let (_, storage) := imp target sel (.block info.invocationOffset) c.storage
    return (.block info.invocationOffset,
      ← sig.copyReturnValue { c with storage := storage } info.invocationOffset)

/-- The first switch of `__NSInvocationCallIMP`. -/
def implementationParameter (m : Memory UInt8) : Except Fault Parameter :=
  match sig.paramType, sig.returnType with
  | .voidPointer, .voidPointer | .voidPointer, .void => do
    let info ← sig.arginfo 3
    return .value (m.read info.invocationOffset 8)
  | .void, .voidPointer | .void, .void => return .target
  | _, _ => do
    let info ← sig.arginfo 3
    return .block info.invocationOffset

/-- The second switch of `__NSInvocationCallIMP`. -/
def storeReturnValue (rval : List UInt8) (param : Parameter) (c : Contents) :
    Except Fault Contents :=
  match sig.returnType, param with
  | .voidPointer, _ => sig.setReturnValue c rval
  | .parameterBlock, .block p => sig.copyReturnValue c p
  -- the value of a parameter is not the address of a parameter block
  | .parameterBlock, _ => .error (.failure .undefined)
  | .void, _ => .ok c

/-- `__NSInvocationCallIMP`. The parameter is part of the result. -/
def callIMP (imp : Implementation) (sel target : List UInt8) (c : Contents) :
    Except Fault (Parameter × Contents) := do
  let param ← sig.implementationParameter c.storage
  let (rval, storage) := imp target sel param c.storage
  return (param, ← sig.storeReturnValue rval param { c with storage := storage })

/-- The two ways to invoke pass the same parameter and leave the same contents, and none of
them reads an arginfo that is not there. -/
structure CallsAlike (imp : Implementation) (sel target : List UInt8) (c : Contents) : Prop where
  callIMP_eq : sig.callIMP imp sel target c =
    sig.invokeWithTargetAndMessageSignature imp sel target c
  callIMP_within : ∀ i, sig.callIMP imp sel target c ≠ .error (.arginfo i)
  message_within :
    ∀ i, sig.invokeWithTargetAndMessageSignature imp sel target c ≠ .error (.arginfo i)

variable {sig}

theorem setReturnValue_ne (c : Contents) (value : List UInt8) (i : ℕ) :
    sig.setReturnValue c value ≠ .error (.arginfo i) := by
  unfold setReturnValue
  split
  · simp
  · split <;> simp

theorem copyReturnValue_ne (c : Contents) (p i : ℕ) :
    sig.copyReturnValue c p ≠ .error (.arginfo i) := by
  unfold copyReturnValue
  split
  · simp
  · split <;> simp

/-- What storing the return value reports is all that is reported. -/
theorem stored_ne {param : Parameter} {stored : Except Fault Contents} {f : Fault}
    (h : stored ≠ .error f) :
    (do return (param, ← stored) : Except Fault (Parameter × Contents)) ≠ .error f := by
  intro heq
  cases stored with
  | error g =>
    obtain rfl : g = f := by simpa [bind, Except.bind] using heq
    exact h rfl
  | ok c => simp [bind, Except.bind, pure, Except.pure] at heq

/-- A method with parameters has an arginfo for the first one. -/
theorem arginfo_three (h : sig.paramType ≠ .void) :
    ∃ info, sig.arginfo 3 = .ok info := by
  have hargs : sig.args ≠ [] := fun hnil => h (sig.paramType_void.mpr hnil)
  obtain ⟨a, as, hcons⟩ := List.exists_cons_of_ne_nil hargs
  refine ⟨a, ?_⟩
  rw [arginfo, sig.infos_three, hcons]
  rfl

/-- A method without parameters has none. -/
theorem arginfo_three_of_void (h : sig.paramType = .void) :
    sig.arginfo 3 = .error (.arginfo 3) := by
  rw [arginfo, sig.infos_three, sig.paramType_void.mp h]
  rfl

/-- The two ways to invoke choose the same parameter and store the same return value, unless
the method has no parameters and returns a parameter block. -/
theorem callIMP_eq_message (h : ¬ (sig.paramType = .void ∧ sig.returnType = .parameterBlock))
    (imp : Implementation) (sel target : List UInt8) (c : Contents) :
    sig.callIMP imp sel target c =
      sig.invokeWithTargetAndMessageSignature imp sel target c := by
  have harginfo : sig.paramType ≠ .void → ∃ info, sig.arginfo 3 = .ok info := arginfo_three
  unfold callIMP implementationParameter storeReturnValue invokeWithTargetAndMessageSignature
  cases hparam : sig.paramType with
  | void =>
    cases hreturn : sig.returnType with
    | parameterBlock => exact absurd ⟨hparam, hreturn⟩ h
    | voidPointer | void => rfl
  | voidPointer | parameterBlock =>
    obtain ⟨info, hinfo⟩ := harginfo (by simp [hparam])
    cases sig.returnType <;> rw [hinfo] <;> rfl

/-- A method with parameters has all arginfos that are read, and one without parameters needs
none to be messaged. -/
theorem message_within (imp : Implementation) (sel target : List UInt8) (c : Contents) (i : ℕ) :
    sig.invokeWithTargetAndMessageSignature imp sel target c ≠ .error (.arginfo i) := by
  have harginfo : sig.paramType ≠ .void → ∃ info, sig.arginfo 3 = .ok info := arginfo_three
  unfold invokeWithTargetAndMessageSignature
  cases hparam : sig.paramType with
  | void =>
    cases sig.returnType with
    | voidPointer => exact stored_ne (setReturnValue_ne _ _ i)
    | void => simp [pure, Except.pure]
    | parameterBlock => exact stored_ne (copyReturnValue_ne _ _ i)
  | voidPointer | parameterBlock =>
    obtain ⟨info, hinfo⟩ := harginfo (by simp [hparam])
    rw [hinfo]
    cases sig.returnType with
    | voidPointer => exact stored_ne (setReturnValue_ne _ _ i)
    | void => simp [bind, Except.bind, pure, Except.pure]
    | parameterBlock => exact stored_ne (copyReturnValue_ne _ _ i)

/-- The implementation of a method without parameters that returns a parameter block is not
called, as there is no arginfo to find the parameter with. -/
theorem callIMP_of_void_block (hparam : sig.paramType = .void)
    (hreturn : sig.returnType = .parameterBlock) (imp : Implementation) (sel target : List UInt8)
    (c : Contents) : sig.callIMP imp sel target c = .error (.arginfo 3) := by
  rw [callIMP, implementationParameter, hparam, hreturn, arginfo_three_of_void hparam]
  rfl

/-- Calling the implementation is messaging the target for exactly eight of the nine call
types. A method without parameters that returns a parameter block is the other one. -/
theorem callsAlike_iff (sig : NSMethodSignature abi) :
    (∀ (imp : Implementation) (sel target : List UInt8) (c : Contents),
      sig.CallsAlike imp sel target c) ↔
      ¬ (sig.paramType = .void ∧ sig.returnType = .parameterBlock) := by
  constructor
  · rintro hall ⟨hparam, hreturn⟩
    have hwithin := (hall (fun _ _ _ m => ([], m)) [] [] ⟨fun _ => 0, 0⟩).callIMP_within 3
    exact hwithin (callIMP_of_void_block hparam hreturn ..)
  · intro h imp sel target c
    have heq := callIMP_eq_message h imp sel target c
    refine ⟨heq, fun i => ?_, message_within imp sel target c⟩
    rw [heq]
    exact message_within imp sel target c i

end NSMethodSignature

/-- The implementation is not called with the address of an arginfo that is not there, and the
message passes the storage. -/
theorem struct_implementation_not_called :
    structSignature.callIMP (fun _ _ _ m => ([], m)) [] [] ⟨ones.storage, 64⟩ =
        .error (.arginfo 3) ∧
      (∃ c, structSignature.invokeWithTargetAndMessageSignature (fun _ _ _ m => ([], m)) [] []
        ⟨ones.storage, 64⟩ = .ok (.block 0, c)) ∧
      ¬ ∀ (abi : MetaABI) (sig : NSMethodSignature abi) (imp : Implementation)
        (sel target : List UInt8) (c : Contents), sig.CallsAlike imp sel target c := by
  refine ⟨rfl, ⟨_, rfl⟩, fun hall => ?_⟩
  exact (hall _ structSignature (fun _ _ _ m => ([], m)) [] [] ⟨ones.storage, 64⟩).callIMP_within
    3 rfl

/-- A method that writes its result to its parameter block, or returns it. -/
def Callee.implementation {sig : NSMethodSignature abi} (callee : Callee sig) : Implementation :=
  fun target sel param m =>
    let result := callee.run ⟨target, sel, sig.received m param⟩
    match sig.returnType, param with
    | .parameterBlock, .block p => ([], m.write p result)
    | _, _ => (result, m)

namespace NSInvocation

variable {sig}

/-- The storage of an invocation. -/
def contents (inv : NSInvocation sig) : Contents := ⟨inv.storage, inv.size⟩

/-- Calling a method is calling its implementation, and storing the return value. -/
theorem perform_eq (inv : NSInvocation sig) (sel target : List UInt8) (param : Parameter)
    (callee : Callee sig) :
    ((inv.perform sel target param callee).map fun r => r.2.contents).toOption =
      (let r := callee.implementation target sel param inv.storage;
        sig.storeReturnValue r.1 param ⟨r.2, inv.size⟩).toOption := by
  have hle : sig.rval.slotEnd ≤ inv.size :=
    (sig.slotEnd_le_invocationSize List.mem_cons_self).trans inv.invocationSize_le
  cases hreturn : sig.returnType with
  | void => simp [perform, hreturn, Callee.implementation, NSMethodSignature.storeReturnValue,
      contents, pure, Except.pure, Except.map, Except.toOption]
  | voidPointer =>
    have hlength := callee.le_length (by simp [hreturn])
      ⟨target, sel, sig.received inv.storage param⟩
    simp [perform, hreturn, Callee.implementation, NSMethodSignature.storeReturnValue, contents,
      setValue_eq sig.infos_zero hlength, NSMethodSignature.setReturnValue, hle, hlength, bind,
      Except.bind, pure, Except.pure, Except.map, Except.toOption]
  | parameterBlock =>
    cases param with
    | target | value =>
      simp [perform, hreturn, NSMethodSignature.storeReturnValue, throw, throwThe,
        MonadExceptOf.throw, Except.map, Except.toOption]
    | block p =>
      have hlength := callee.length_of_block hreturn
        ⟨target, sel, sig.received inv.storage (.block p)⟩
      rw [perform_of_block hreturn]
      simp only [Callee.implementation, hreturn, NSMethodSignature.storeReturnValue,
        NSMethodSignature.copyReturnValue, hle, not_true_eq_false, if_false, Memory.memcpy]
      split
      · simp [contents, Memory.read_write_of_length hlength, Except.map, Except.toOption]
      · rfl

end NSInvocation

end MulleObjC.Invocation
