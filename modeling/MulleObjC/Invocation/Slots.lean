import MulleObjC.Invocation.Invoke

/-!
# The slots of an invocation

The runtime's layout puts every slot inside the storage, so that reading or changing a
value never throws. Every call type hands the stored arguments to the method.
-/

namespace MulleObjC.Invocation

variable {abi : MetaABI} {sig : NSMethodSignature abi}

namespace NSMethodSignature

/-- A method with parameters has an arginfo for the first one. -/
theorem argumentsPointer_eq (h : sig.args ≠ []) : sig.argumentsPointer = .ok 16 := by
  unfold argumentsPointer
  rw [sig.infos_three]
  cases hargs : sig.args with
  | nil => exact absurd hargs h
  | cons a as =>
    have ha : a.invocationOffset = 16 := sig.args_offset a (by simp [hargs])
    simp [ha]

/-- A pointer argument has the value of the single argument. -/
theorem received_value (h : sig.paramType = .voidPointer) (m : Memory UInt8) :
    sig.received m (.value (m.read 16 8)) =
      sig.args.map fun a => m.read a.invocationOffset a.naturalSize := by
  obtain ⟨a, hargs, hsize⟩ := sig.paramType_voidPointer h
  have ha : a.invocationOffset = 16 := sig.args_offset a (by simp [hargs])
  simp [received, hargs, ha, Memory.take_read, Nat.min_eq_left hsize]

/-- A parameter block in the storage has the arguments. -/
theorem received_block (m : Memory UInt8) :
    sig.received m (.block 16) =
      sig.args.map fun a => m.read a.invocationOffset a.naturalSize := by
  refine List.map_congr_left fun a ha => ?_
  have hge := sig.args_ge ha
  rw [Nat.add_sub_cancel' hge]

/-- The slot for the return value is behind all values that are read back. -/
theorem rval_apart (sig : NSMethodSignature abi) (n : ℕ) (info : TypeInfo)
    (h : info ∈ sig.allArguments) :
    Memory.Apart sig.rval.invocationOffset n info.invocationOffset info.naturalSize :=
  .inr (sig.slotEnd_le_rval h)

end NSMethodSignature

namespace NSInvocation

variable {inv : NSInvocation sig} {i : ℕ} {info : TypeInfo}

theorem pointerAndSizeOfArgumentValue_eq (h : sig.infos[i]? = some info) :
    inv.pointerAndSizeOfArgumentValue i = .ok (info.invocationOffset, info.naturalSize) := by
  have hle := sig.slotEnd_le_invocationSize (List.mem_of_getElem? h)
  simp only [pointerAndSizeOfArgumentValue, h]
  rw [if_pos (hle.trans inv.invocationSize_le)]

theorem getValue_eq (h : sig.infos[i]? = some info) :
    inv.getValue i = .ok (inv.storage.read info.invocationOffset info.naturalSize) := by
  rw [getValue, pointerAndSizeOfArgumentValue_eq h]
  rfl

theorem getValue_of_le (h : sig.infos.length ≤ i) : inv.getValue i = .error (.invalidIndex i) := by
  simp only [getValue, pointerAndSizeOfArgumentValue, List.getElem?_eq_none h]
  rfl

theorem setValue_eq (h : sig.infos[i]? = some info) {value : List UInt8}
    (hlength : info.naturalSize ≤ value.length) :
    inv.setValue i value = .ok (inv.store info.invocationOffset (value.take info.naturalSize)) := by
  rw [setValue, pointerAndSizeOfArgumentValue_eq h]
  simp only [bind, Except.bind, hlength, if_true]
  rfl

/-- Copying a value is defined if it does not overlap its slot. -/
theorem copyValue_eq (h : sig.infos[i]? = some info) {p : ℕ}
    (hapart : Memory.Apart info.invocationOffset info.naturalSize p info.naturalSize) :
    inv.copyValue i p =
      .ok (inv.store info.invocationOffset (inv.storage.read p info.naturalSize)) := by
  rw [copyValue, pointerAndSizeOfArgumentValue_eq h]
  simp only [bind, Except.bind, Memory.memcpy, hapart, if_true]
  rfl

theorem copyValue_of_not_apart (h : sig.infos[i]? = some info) {p : ℕ}
    (hapart : ¬ Memory.Apart info.invocationOffset info.naturalSize p info.naturalSize) :
    inv.copyValue i p = .error .undefined := by
  rw [copyValue, pointerAndSizeOfArgumentValue_eq h]
  simp only [bind, Except.bind, Memory.memcpy, hapart, if_false]
  rfl

/-- Values in front of a changed piece of the storage stay. -/
theorem getArgumentAtIndex_store {p : ℕ} {bytes : List UInt8}
    (h : ∀ info ∈ sig.allArguments,
      Memory.Apart p bytes.length info.invocationOffset info.naturalSize) (i : ℕ) :
    (inv.store p bytes).getArgumentAtIndex i = inv.getArgumentAtIndex i := by
  unfold getArgumentAtIndex
  cases hinfo : sig.infos[i + 1]? with
  | none =>
    rw [getValue_of_le (List.getElem?_eq_none_iff.mp hinfo),
      getValue_of_le (List.getElem?_eq_none_iff.mp hinfo)]
  | some info =>
    have hmem : info ∈ sig.allArguments := List.mem_of_getElem? (i := i) hinfo
    rw [getValue_eq hinfo, getValue_eq hinfo, store_storage,
      Memory.read_write_of_apart (h info hmem)]

/-- The stored target. -/
def storedTarget (inv : NSInvocation sig) : List UInt8 := inv.storage.read 0 8

/-- The stored selector. -/
def storedSelector (inv : NSInvocation sig) : List UInt8 := inv.storage.read 8 abi.sizeofSEL

/-- The call that the contents of the invocation describe, to a target. -/
def callTo (inv : NSInvocation sig) (target : List UInt8) : Call :=
  ⟨target, inv.storedSelector,
    sig.args.map fun a => inv.storage.read a.invocationOffset a.naturalSize⟩

theorem target_eq : inv.target = .ok inv.storedTarget := by
  have h : inv.getValue 1 = _ := getValue_eq sig.infos_one
  rw [sig.self_offset, sig.self_size] at h
  exact h

theorem selector_eq : inv.selector = .ok inv.storedSelector := by
  have h : inv.getValue 2 = _ := getValue_eq sig.infos_two
  rw [sig.cmd_offset, sig.cmd_size] at h
  exact h

/-- A call depends on the values that are read back. -/
theorem callTo_store {p : ℕ} {bytes : List UInt8}
    (h : ∀ info ∈ sig.allArguments,
      Memory.Apart p bytes.length info.invocationOffset info.naturalSize) :
    (inv.store p bytes).callTo = inv.callTo := by
  have hcmd := h sig.cmd sig.cmd_mem
  rw [sig.cmd_offset, sig.cmd_size] at hcmd
  funext target
  unfold callTo storedSelector
  rw [store_storage, Memory.read_write_of_apart hcmd]
  congr 1
  refine List.map_congr_left fun a ha => ?_
  rw [Memory.read_write_of_apart (h a (sig.args_mem ha))]

theorem storedTarget_store {p : ℕ} {bytes : List UInt8}
    (h : ∀ info ∈ sig.allArguments,
      Memory.Apart p bytes.length info.invocationOffset info.naturalSize) :
    (inv.store p bytes).storedTarget = inv.storedTarget := by
  have hself := h sig.self sig.self_mem
  rw [sig.self_offset, sig.self_size] at hself
  exact Memory.read_write_of_apart hself

/-- Without a parameter block for the result, every call type passes the stored arguments. -/
theorem exists_parameter (inv : NSInvocation sig) (h : sig.returnType ≠ .parameterBlock) :
    ∃ param, inv.parameter = .ok param ∧ sig.received inv.storage param =
      sig.args.map fun a => inv.storage.read a.invocationOffset a.naturalSize := by
  unfold parameter implementationParameter messageParameter
  cases hparam : sig.paramType with
  | voidPointer =>
    obtain ⟨a, hargs, -⟩ := sig.paramType_voidPointer hparam
    have hpointer := sig.argumentsPointer_eq (by simp [hargs])
    refine ⟨_, ?_, sig.received_value hparam inv.storage⟩
    cases hreturn : sig.returnType with
    | parameterBlock => exact absurd hreturn h
    | voidPointer | void => simp [hpointer, bind, Except.bind, pure, Except.pure]
  | void =>
    refine ⟨.target, ?_, by simp [NSMethodSignature.received, sig.paramType_void.mp hparam]⟩
    cases hreturn : sig.returnType with
    | parameterBlock => exact absurd hreturn h
    | voidPointer | void => simp [pure, Except.pure]
  | parameterBlock =>
    have hpointer := sig.argumentsPointer_eq fun hargs => by
      simp [sig.paramType_void.mpr hargs] at hparam
    refine ⟨.block 16, ?_, sig.received_block inv.storage⟩
    cases hreturn : sig.returnType with
    | parameterBlock => exact absurd hreturn h
    | voidPointer | void => simp [hpointer, bind, Except.bind, pure, Except.pure]

end NSInvocation

end MulleObjC.Invocation
