import MulleObjC.Invocation.Reuse

/-!
# Forwarding

`-forward:` copies the frame of the caller into an invocation, which `-forwardInvocation:`
invokes on another target, and hands the return value of the invocation to the caller. The
frame is the single pointer argument or the address of a parameter block. The result of a
method that returns a parameter block is found in the frame.
-/

namespace MulleObjC.Invocation

variable {abi : MetaABI} {sig : NSMethodSignature abi}

/-- The method is called with the address of a parameter block. -/
def NSMethodSignature.UsesBlock (sig : NSMethodSignature abi) : Prop :=
  sig.paramType = .parameterBlock ∨ sig.returnType = .parameterBlock

instance : Decidable sig.UsesBlock := inferInstanceAs (Decidable (_ ∨ _))

/-- What a caller passes as `param`: the bytes of the parameter block that its address is
passed of, or of the pointer itself. -/
structure Frame (sig : NSMethodSignature abi) where
  bytes : List UInt8
  length_pointer : ¬ sig.UsesBlock → bytes.length = 8
  length_block : sig.UsesBlock → 8 ≤ bytes.length
  args_le : sig.UsesBlock → ∀ a ∈ sig.args, a.slotEnd ≤ 16 + bytes.length
  rval_le : sig.returnType = .parameterBlock → sig.rval.naturalSize ≤ bytes.length

/-- What a caller gets: nothing, the bytes of the pointer that the type of the return value
has, or the contents of the parameter block. -/
inductive Returned
  | void
  | pointer (bytes : List UInt8)
  | block (bytes : List UInt8)
  deriving DecidableEq, Repr

namespace Frame

variable (frame : Frame sig)

/-- The parameter block in the memory of the caller. -/
def memory : Memory UInt8 := Memory.write (fun _ => 0) 0 frame.bytes

/-- The parameter that a method called directly gets. -/
def parameter : Parameter :=
  if sig.UsesBlock then .block 0
  else if sig.paramType = .void then .target
  else .value frame.bytes

/-- A direct call. -/
def directCall (sel target : List UInt8) : Call :=
  ⟨target, sel, sig.received frame.memory frame.parameter⟩

/-- The result of a direct call. -/
def directReturned (result : List UInt8) : Returned :=
  match sig.returnType with
  | .void => .void
  | .voidPointer => .pointer (result.take sig.rval.naturalSize)
  | .parameterBlock => .block (result ++ frame.bytes.drop sig.rval.naturalSize)

/-- The pointer argument is `NULL`. The address of a block is not. -/
def isNull : Bool := !decide sig.UsesBlock && isNil frame.bytes

end Frame

/-- The number of bytes that are copied out of a parameter block, if nobody knows better. -/
def NSMethodSignature.copyLength (sig : NSMethodSignature abi) : ℕ :=
  abi.sizeofUnion sig.last.slotEnd - (8 + abi.sizeofSEL)

namespace NSInvocation

/-- `+invocationWithMethodSignature:`, of at least `NSInvocationStandardSize`. -/
def invocationWithMethodSignature (sig : NSMethodSignature abi) : NSInvocation sig :=
  ⟨fun _ => 0, max sig.invocationSize 128, Nat.le_max_left _ _, false⟩

/-- `_NSMethodSignatureSetMetaABIFrame`, without a length. -/
def setMetaABIFrame (inv : NSInvocation sig) (frame : Frame sig) :
    Except Failure (NSInvocation sig) :=
  match sig.paramType, sig.returnType with
  | .voidPointer, .voidPointer | .voidPointer, .void => do
    return inv.store (← sig.argumentsPointer) frame.bytes
  | .void, .voidPointer | .void, .void => return inv
  | .voidPointer, .parameterBlock => do
    return inv.store (← sig.argumentsPointer) (frame.memory.read 0 8)
  | .void, .parameterBlock => return inv
  | .parameterBlock, _ => do
    let p ← sig.argumentsPointer
    if sig.copyLength ≤ frame.bytes.length then
      return inv.store p (frame.memory.read 0 sig.copyLength)
    else throw .undefined

/-- `NSInvocationCreateWithMetaABIFrame` -/
def createWithMetaABIFrame (sig : NSMethodSignature abi) (target sel : List UInt8)
    (frame : Frame sig) : Except Failure (NSInvocation sig) := do
  let inv ← (invocationWithMethodSignature sig).setArgumentAtIndex target 0
  let inv ← inv.setArgumentAtIndex sel 1
  if frame.isNull then return inv else inv.setMetaABIFrame frame

end NSInvocation

/-- `-forward:` of an object whose `-forwardInvocation:` invokes the invocation with another
target. -/
def forward (self cmd : List UInt8) (frame : Frame sig) (target : List UInt8)
    (callee : Callee sig) : Except Failure (List Call × Returned) := do
  let inv ← NSInvocation.createWithMetaABIFrame sig self cmd frame
  let (calls, inv) ← inv.invokeWithTarget target callee
  match sig.returnType with
  | .void => return (calls, .void)
  | .voidPointer => return (calls, .pointer (← inv.getReturnValue))
  | .parameterBlock =>
    return (calls, .block ((← inv.getReturnValue) ++ frame.bytes.drop sig.rval.naturalSize))

/-- Arguments that were copied as one block. -/
theorem NSMethodSignature.received_write {m m' : Memory UInt8} {n : ℕ}
    (h : ∀ a ∈ sig.args, a.slotEnd ≤ 16 + n) :
    sig.args.map (fun a => (m.write 16 (m'.read 0 n)).read a.invocationOffset a.naturalSize) =
      sig.received m' (.block 0) := by
  refine List.map_congr_left fun a ha => ?_
  have hge := sig.args_ge ha
  have hle := h a ha
  unfold TypeInfo.slotEnd at hle
  have hread : (m.write 16 (m'.read 0 n)).read (16 + (a.invocationOffset - 16)) a.naturalSize =
      m'.read (0 + (a.invocationOffset - 16)) a.naturalSize :=
    Memory.read_write_read (by omega)
  rwa [Nat.add_sub_cancel' hge] at hread

/-- The copy contains all arguments. -/
theorem NSMethodSignature.slotEnd_le_copyLength {a : TypeInfo} (ha : a ∈ sig.args) :
    a.slotEnd ≤ 16 + sig.copyLength := by
  have hle := sig.slotEnd_le (sig.args_mem ha)
  have hunion := abi.le_sizeofUnion sig.last.slotEnd
  have hsel := abi.sizeofSEL_le
  unfold NSMethodSignature.frameLength at hle
  unfold NSMethodSignature.copyLength
  omega

namespace NSInvocation

variable {self cmd : List UInt8} {frame : Frame sig}

/-- An invocation with a target and a selector only. -/
def withSelector (sig : NSMethodSignature abi) (target sel : List UInt8) : NSInvocation sig :=
  ((invocationWithMethodSignature sig).store 0 target).store 8 sel

theorem setTarget_eq (hself : self.length = 8) :
    (invocationWithMethodSignature sig).setArgumentAtIndex self 0 =
      .ok ((invocationWithMethodSignature sig).store 0 self) := by
  rw [setArgumentAtIndex, setValue_eq sig.infos_one (by rw [sig.self_size, hself]),
    sig.self_offset, sig.self_size, List.take_of_length_le (by omega)]

theorem setSelector_eq (hcmd : cmd.length = abi.sizeofSEL) :
    ((invocationWithMethodSignature sig).store 0 self).setArgumentAtIndex cmd 1 =
      .ok (withSelector sig self cmd) := by
  rw [setArgumentAtIndex, setValue_eq sig.infos_two (by rw [sig.cmd_size, hcmd]),
    sig.cmd_offset, sig.cmd_size, List.take_of_length_le (by omega)]
  rfl

theorem createWithMetaABIFrame_eq (hself : self.length = 8) (hcmd : cmd.length = abi.sizeofSEL) :
    createWithMetaABIFrame sig self cmd frame =
      if frame.isNull then .ok (withSelector sig self cmd)
      else (withSelector sig self cmd).setMetaABIFrame frame := by
  simp only [createWithMetaABIFrame, setTarget_eq hself, setSelector_eq hcmd, bind, Except.bind]
  rfl

/-- The frame is stored behind the selector. -/
theorem storedSelector_withSelector (hcmd : cmd.length = abi.sizeofSEL) {bytes : List UInt8} :
    ((withSelector sig self cmd).store 16 bytes).storedSelector = cmd := by
  have hle := abi.sizeofSEL_le
  unfold storedSelector withSelector
  rw [store_storage, Memory.read_write_of_apart (.inr (by omega)), store_storage,
    Memory.read_write_of_length hcmd]

theorem storedSelector_withSelector_self (hcmd : cmd.length = abi.sizeofSEL) :
    (withSelector sig self cmd).storedSelector = cmd := Memory.read_write_of_length hcmd

/-- An invocation that has everything a direct call passes. -/
structure Captures (inv : NSInvocation sig) (cmd : List UInt8) (frame : Frame sig) : Prop where
  hasImplementation : inv.hasImplementation = false
  storedSelector : inv.storedSelector = cmd
  arguments : sig.args.map (fun a => inv.storage.read a.invocationOffset a.naturalSize) =
    sig.received frame.memory frame.parameter

/-- Without arguments, nothing of the frame is needed. -/
theorem captures_withSelector (hcmd : cmd.length = abi.sizeofSEL) (hargs : sig.args = []) :
    (withSelector sig self cmd).Captures cmd frame where
  hasImplementation := rfl
  storedSelector := storedSelector_withSelector_self hcmd
  arguments := by
    cases frame.parameter <;> simp [NSMethodSignature.received, hargs]

/-- A single pointer argument. -/
theorem captures_of_read {inv : NSInvocation sig} (hparam : sig.paramType = .voidPointer)
    (hblock : ¬ sig.UsesBlock) (himp : inv.hasImplementation = false)
    (hcmd : inv.storedSelector = cmd) (hread : inv.storage.read 16 8 = frame.bytes) :
    inv.Captures cmd frame where
  hasImplementation := himp
  storedSelector := hcmd
  arguments := by
    rw [← sig.received_value hparam, hread]
    simp [Frame.parameter, hblock, hparam, NSMethodSignature.received]

/-- A block of arguments. -/
theorem captures_store (hblock : sig.UsesBlock) (hcmd : cmd.length = abi.sizeofSEL) {n : ℕ}
    (h : ∀ a ∈ sig.args, a.slotEnd ≤ 16 + n) :
    ((withSelector sig self cmd).store 16 (frame.memory.read 0 n)).Captures cmd frame where
  hasImplementation := rfl
  storedSelector := storedSelector_withSelector hcmd
  arguments := by
    rw [store_storage, NSMethodSignature.received_write h, Frame.parameter, if_pos hblock]

/-- `NULL` is what the storage has anyway. -/
theorem read_withSelector_of_isNil (hself : self.length = 8) (hcmd : cmd.length = abi.sizeofSEL)
    {bytes : List UInt8} (hlength : bytes.length = 8) (hnil : isNil bytes = true) :
    (withSelector sig self cmd).storage.read 16 8 = bytes := by
  have hle := abi.sizeofSEL_le
  have hzeros : bytes = List.replicate 8 0 := by
    refine List.eq_replicate_iff.mpr ⟨hlength, fun b hb => ?_⟩
    simpa using List.all_eq_true.mp hnil b hb
  unfold withSelector
  rw [store_storage, Memory.read_write_of_apart (.inl (by omega)), store_storage,
    Memory.read_write_of_apart (.inl (by omega)), hzeros]
  rfl

/-- What is copied out of the frame is what a direct call passes. -/
theorem exists_captures (hself : self.length = 8) (hcmd : cmd.length = abi.sizeofSEL)
    (hlength : sig.paramType = .parameterBlock → sig.copyLength ≤ frame.bytes.length) :
    ∃ inv, createWithMetaABIFrame sig self cmd frame = .ok inv ∧ inv.Captures cmd frame := by
  rw [createWithMetaABIFrame_eq hself hcmd]
  cases hparam : sig.paramType with
  | void =>
    have hset : (withSelector sig self cmd).setMetaABIFrame frame =
        .ok (withSelector sig self cmd) := by
      unfold setMetaABIFrame
      rw [hparam]
      cases sig.returnType <;> rfl
    exact ⟨_, by rw [hset, ite_self], captures_withSelector hcmd (sig.paramType_void.mp hparam)⟩
  | voidPointer =>
    obtain ⟨a, hargs, hsize⟩ := sig.paramType_voidPointer hparam
    have hpointer := sig.argumentsPointer_eq (by simp [hargs])
    by_cases hreturn : sig.returnType = .parameterBlock
    · have hblock : sig.UsesBlock := .inr hreturn
      refine ⟨(withSelector sig self cmd).store 16 (frame.memory.read 0 8), ?_,
        captures_store hblock hcmd fun b hb => ?_⟩
      · simp [Frame.isNull, hblock, setMetaABIFrame, hparam, hreturn, hpointer, bind, Except.bind,
          pure, Except.pure]
      · obtain rfl : b = a := by simpa [hargs] using hb
        have hoffset := sig.args_offset b (by simp [hargs])
        unfold TypeInfo.slotEnd
        omega
    · have hblock : ¬ sig.UsesBlock := by simp [NSMethodSignature.UsesBlock, hparam, hreturn]
      have hbytes := frame.length_pointer hblock
      have hset : (withSelector sig self cmd).setMetaABIFrame frame =
          .ok ((withSelector sig self cmd).store 16 frame.bytes) := by
        unfold setMetaABIFrame
        rw [hparam]
        cases hr : sig.returnType with
        | parameterBlock => exact absurd hr hreturn
        | voidPointer | void => simp [hpointer, bind, Except.bind, pure, Except.pure]
      by_cases hnil : isNil frame.bytes = true
      · exact ⟨_, by simp [Frame.isNull, hblock, hnil], captures_of_read hparam hblock rfl
          (storedSelector_withSelector_self hcmd)
          (read_withSelector_of_isNil hself hcmd hbytes hnil)⟩
      · exact ⟨(withSelector sig self cmd).store 16 frame.bytes,
          by simp [Frame.isNull, hnil, hset], captures_of_read hparam hblock rfl
          (storedSelector_withSelector hcmd) (Memory.read_write_of_length hbytes)⟩
  | parameterBlock =>
    have hblock : sig.UsesBlock := .inl hparam
    have hpointer := sig.argumentsPointer_eq fun hargs => by
      simp [sig.paramType_void.mpr hargs] at hparam
    refine ⟨(withSelector sig self cmd).store 16 (frame.memory.read 0 sig.copyLength), ?_,
      captures_store hblock hcmd fun a ha => sig.slotEnd_le_copyLength ha⟩
    simp [Frame.isNull, hblock, setMetaABIFrame, hparam, hpointer, hlength hparam, bind,
      Except.bind, pure, Except.pure]

/-- A block that is too short is read beyond its end. -/
theorem createWithMetaABIFrame_of_lt (hself : self.length = 8)
    (hcmd : cmd.length = abi.sizeofSEL) (hparam : sig.paramType = .parameterBlock)
    (hlength : ¬ sig.copyLength ≤ frame.bytes.length) :
    createWithMetaABIFrame sig self cmd frame = .error .undefined := by
  have hblock : sig.UsesBlock := .inl hparam
  have hpointer := sig.argumentsPointer_eq fun hargs => by
    simp [sig.paramType_void.mpr hargs] at hparam
  rw [createWithMetaABIFrame_eq hself hcmd]
  simp [Frame.isNull, hblock, setMetaABIFrame, hparam, hpointer, hlength, bind, Except.bind, throw,
    throwThe, MonadExceptOf.throw]

/-- An invocation that captures the frame describes the direct call. -/
theorem Captures.callTo_eq {inv : NSInvocation sig} (h : inv.Captures cmd frame)
    (target : List UInt8) : inv.callTo target = frame.directCall cmd target := by
  rw [callTo, h.storedSelector, h.arguments]
  rfl

end NSInvocation

/-- Calling through `-forward:` is a direct call of the target, if the block of the caller is
as long as the copy, and if the result in the storage does not overlap the return value. -/
theorem forward_eq_direct_iff {self cmd target : List UInt8} (hself : self.length = 8)
    (hcmd : cmd.length = abi.sizeofSEL) (hselector : isNil cmd = false)
    (htarget : isNil target = false) (frame : Frame sig) (callee : Callee sig) :
    forward self cmd frame target callee =
        .ok ([frame.directCall cmd target],
          frame.directReturned (callee.run (frame.directCall cmd target))) ↔
      (sig.paramType = .parameterBlock → sig.copyLength ≤ frame.bytes.length) ∧
      (sig.returnType = .parameterBlock →
        Memory.Apart sig.rval.invocationOffset sig.rval.naturalSize sig.resultOffset
          sig.rval.naturalSize) := by
  by_cases hlength : sig.paramType = .parameterBlock → sig.copyLength ≤ frame.bytes.length
  swap
  · obtain ⟨hparam, hshort⟩ := Classical.not_imp.mp hlength
    rw [forward, NSInvocation.createWithMetaABIFrame_of_lt hself hcmd hparam hshort]
    simp [hlength, bind, Except.bind]
  obtain ⟨inv, hcreate, hcaptures⟩ := NSInvocation.exists_captures hself hcmd hlength
  have hstored : isNil inv.storedSelector = false := by rwa [hcaptures.storedSelector]
  have hcall := hcaptures.callTo_eq target
  simp only [forward, hcreate, bind, Except.bind]
  by_cases hreturn : sig.returnType = .parameterBlock
  · have hparam : inv.parameter = .ok (.block sig.resultOffset) := by
      rw [NSInvocation.parameter, hcaptures.hasImplementation]
      exact NSInvocation.messageParameter_of_block hreturn
    have hblock : (⟨target, inv.storedSelector,
        sig.received inv.storage (.block sig.resultOffset)⟩ : Call) =
        frame.directCall cmd target := by
      rw [NSInvocation.received_resultOffset, ← hcall]
      rfl
    have hresult := callee.length_of_block hreturn (frame.directCall cmd target)
    rw [NSInvocation.invokeWithTarget_of_block hreturn htarget hstored hparam]
    simp only [hblock]
    by_cases hapart : Memory.Apart sig.rval.invocationOffset sig.rval.naturalSize
        sig.resultOffset sig.rval.naturalSize
    · simp only [hapart, if_true, hreturn, NSInvocation.getReturnValue,
        NSInvocation.getValue_eq sig.infos_zero, NSInvocation.store_storage,
        Memory.read_write_of_length hresult, Frame.directReturned]
      simpa [pure, Except.pure] using hlength
    · simp [hapart, hreturn]
  · rw [NSInvocation.invokeWithTarget_eq hreturn htarget hstored, hcall]
    cases hr : sig.returnType with
    | parameterBlock => exact absurd hr hreturn
    | void => simpa [Frame.directReturned, hr, pure, Except.pure] using hlength
    | voidPointer =>
      have hvoid : sig.returnType ≠ .void := by simp [hr]
      have hread := inv.getReturnValue_returned hvoid
        (callee.le_length hvoid (frame.directCall cmd target))
      simpa [Frame.directReturned, hr, hread, pure, Except.pure] using hlength

/-- `- (struct { ... }) foo:(id) argument` -/
def fooSignature (result : Ty) (hpos : 0 < result.size) : NSMethodSignature metaABI64 where
  paramType := .voidPointer
  returnType := .parameterBlock
  rval := ⟨40, result⟩
  self := ⟨0, .retainId⟩
  cmd := ⟨8, selectorType⟩
  args := [⟨16, .retainId⟩]
  self_offset := TypeInfo.target_offset
  self_size := TypeInfo.target_size
  cmd_offset := TypeInfo.selector_offset
  cmd_size := TypeInfo.selector_size
  args_offset := by simp
  args_ordered := by simp; decide
  args_pos := by simp; decide
  rval_offset := Nat.le_refl 40
  rval_end := Nat.le_add_right _ 8
  paramType_void := by simp
  paramType_voidPointer _ := ⟨_, rfl, Nat.le_refl 8⟩
  returnType_voidPointer := by simp
  returnType_block _ := hpos

/-- A parameter block of ones, with the size of a union of five pointers. -/
def onesFrame (result : Ty) (hpos : 0 < result.size) (hsize : result.size ≤ 40) :
    Frame (fooSignature result hpos) where
  bytes := List.replicate 40 1
  length_pointer h := absurd (.inr rfl) h
  length_block _ := by simp
  args_le _ := by simp [fooSignature, TypeInfo.slotEnd]; decide
  rval_le _ := by simpa [fooSignature, TypeInfo.naturalSize] using hsize

/-- A method with a result of twos. -/
def fooTwos (result : Ty) (hpos : 0 < result.size) : Callee (fooSignature result hpos) where
  run _ := List.replicate result.size 2
  length_run _ := by simp [NSMethodSignature.resultLength, fooSignature, TypeInfo.naturalSize]

/-- A target and a selector. -/
def someTarget : List UInt8 := List.replicate 8 3

def someSelector : List UInt8 := List.replicate 4 4

/-- A struct of two numbers is returned through `-forward:`. -/
theorem pair_forwarded :
    forward someTarget someSelector
        (onesFrame (.struct [longType, longType]) (by decide) (by decide)) someTarget
        (fooTwos _ _) =
      .ok ([⟨someTarget, someSelector, [List.replicate 8 1]⟩],
        .block (List.replicate 16 2 ++ List.replicate 24 1)) := by
  refine (forward_eq_direct_iff rfl rfl rfl rfl _ _).mpr ⟨fun h => ?_, fun _ => ?_⟩
  · cases h
  · decide

/-- A struct of four numbers. -/
def quadType : Ty := .struct [longType, longType, longType, longType]

/-- The return value of four numbers overlaps the result that is copied there. -/
theorem quad_not_forwarded :
    forward someTarget someSelector (onesFrame quadType (by decide) (by decide)) someTarget
        (fooTwos _ _) = .error .undefined ∧
    ¬ ∀ (abi : MetaABI) (sig : NSMethodSignature abi) (frame : Frame sig) (callee : Callee sig)
      (self cmd target : List UInt8), self.length = 8 → cmd.length = abi.sizeofSEL →
      isNil cmd = false → isNil target = false →
      forward self cmd frame target callee =
        .ok ([frame.directCall cmd target],
          frame.directReturned (callee.run (frame.directCall cmd target))) := by
  refine ⟨rfl, fun h => ?_⟩
  have hforward := h _ _ (onesFrame quadType (by decide) (by decide)) (fooTwos _ _) someTarget
    someSelector someTarget rfl rfl rfl rfl
  cases hforward

end MulleObjC.Invocation
