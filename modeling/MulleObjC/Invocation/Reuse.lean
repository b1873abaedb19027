import Mathlib.Data.List.Induction
import MulleObjC.Invocation.Slots

/-!
# Invoking again

Invoking an invocation changes the slot of the return value only, unless the method returns
a parameter block. Then the result is written where the arguments begin, or over the target
and the selector if there are no arguments.
-/

namespace MulleObjC.Invocation

variable {abi : MetaABI} {sig : NSMethodSignature abi}

/-- The address that a message passes for a parameter block with the result. -/
def NSMethodSignature.resultOffset (sig : NSMethodSignature abi) : ℕ :=
  if sig.args = [] then 0 else 16

/-- One `-invokeWithTarget:`, or `-invoke` without a target. -/
structure Invoke (sig : NSMethodSignature abi) where
  target : Option (List UInt8)
  callee : Callee sig

namespace NSInvocation

variable {inv inv' : NSInvocation sig}

/-- The target of `-invokeWithTarget:`, or the stored one. -/
def targetOf (inv : NSInvocation sig) (a : Invoke sig) : List UInt8 :=
  a.target.getD inv.storedTarget

/-- Invoke once. -/
def invokeOnce (inv : NSInvocation sig) (a : Invoke sig) :
    Except Failure (List Call × NSInvocation sig) :=
  match a.target with
  | none => inv.invoke a.callee
  | some target => inv.invokeWithTarget target a.callee

/-- Invoke, after other calls. -/
def invokeStep (s : List Call × NSInvocation sig) (a : Invoke sig) :
    Except Failure (List Call × NSInvocation sig) := do
  let (calls, inv) ← s.2.invokeOnce a
  return (s.1 ++ calls, inv)

/-- Invoke again and again. -/
def invokes (inv : NSInvocation sig) (acts : List (Invoke sig)) :
    Except Failure (List Call × NSInvocation sig) :=
  acts.foldlM invokeStep ([], inv)

/-- Nothing happens if the target is `nil`. -/
def live (inv : NSInvocation sig) (acts : List (Invoke sig)) : List (Invoke sig) :=
  acts.filter fun a => !isNil (inv.targetOf a)

/-- Whatever is invoked how often, the method is called with what is stored, the target, the
selector and the arguments stay, and the return value is the one the method produced last. -/
def Reusable (inv : NSInvocation sig) : Prop :=
  isNil inv.storedSelector = false → ∀ acts : List (Invoke sig), ∃ inv',
    inv.invokes acts = .ok ((inv.live acts).map fun a => inv.callTo (inv.targetOf a), inv') ∧
    (∀ i, inv'.getArgumentAtIndex i = inv.getArgumentAtIndex i) ∧
    (sig.returnType ≠ .void → ∀ a ∈ (inv.live acts).getLast?,
      inv'.getReturnValue =
        .ok ((a.callee.run (inv.callTo (inv.targetOf a))).take sig.rval.naturalSize))

/-- The invocation after a method has returned a pointer or nothing. -/
def returned (inv : NSInvocation sig) (result : List UInt8) : NSInvocation sig :=
  match sig.returnType with
  | .void => inv
  | _ => inv.store sig.rval.invocationOffset (result.take sig.rval.naturalSize)

/-- Calls without a parameter block for the result. -/
theorem invokeWithTarget_eq (h : sig.returnType ≠ .parameterBlock) {target : List UInt8}
    (htarget : isNil target = false) (hselector : isNil inv.storedSelector = false)
    (callee : Callee sig) :
    inv.invokeWithTarget target callee =
      .ok ([inv.callTo target], inv.returned (callee.run (inv.callTo target))) := by
  obtain ⟨param, hparam, hreceived⟩ := inv.exists_parameter h
  have hcall : (⟨target, inv.storedSelector, sig.received inv.storage param⟩ : Call) =
      inv.callTo target := by rw [hreceived]; rfl
  simp only [invokeWithTarget, htarget, selector_eq, hselector, hparam, perform, hcall, bind,
    Except.bind]
  cases hreturn : sig.returnType with
  | parameterBlock => exact absurd hreturn h
  | void => simp [returned, hreturn, pure, Except.pure]
  | voidPointer =>
    have hlength := callee.le_length (by simp [hreturn]) (inv.callTo target)
    simp [setValue_eq sig.infos_zero hlength, returned, hreturn, pure, Except.pure]

/-- A return value is stored apart from everything else. -/
theorem returned_spec (inv : NSInvocation sig) (result : List UInt8) :
    (∀ i, (inv.returned result).getArgumentAtIndex i = inv.getArgumentAtIndex i) ∧
      (inv.returned result).callTo = inv.callTo ∧
      (inv.returned result).storedTarget = inv.storedTarget := by
  have hapart := sig.rval_apart (result.take sig.rval.naturalSize).length
  unfold returned
  split
  · exact ⟨fun i => rfl, rfl, rfl⟩
  · exact ⟨getArgumentAtIndex_store hapart, callTo_store hapart, storedTarget_store hapart⟩

/-- The return value is read back. -/
theorem getReturnValue_returned (inv : NSInvocation sig) (hvoid : sig.returnType ≠ .void)
    {result : List UInt8} (hlength : sig.rval.naturalSize ≤ result.length) :
    (inv.returned result).getReturnValue = .ok (result.take sig.rval.naturalSize) := by
  rw [getReturnValue, getValue_eq sig.infos_zero]
  unfold returned
  split
  · next hreturn => exact absurd hreturn hvoid
  · rw [store_storage, Memory.read_write_of_length (by simpa using hlength)]

/-- `-invoke` is for the stored target. -/
theorem invokeOnce_eq (inv : NSInvocation sig) (a : Invoke sig) :
    inv.invokeOnce a = inv.invokeWithTarget (inv.targetOf a) a.callee := by
  unfold invokeOnce targetOf
  cases a.target with
  | none => simp [invoke, target_eq, bind, Except.bind]
  | some target => rfl

/-- One more invocation, of a method without a parameter block for the result. -/
theorem invokeStep_eq (h : sig.returnType ≠ .parameterBlock)
    (hselector : isNil inv.storedSelector = false) (calls : List Call) (a : Invoke sig) :
    invokeStep (calls, inv) a = .ok (
      if isNil (inv.targetOf a) then (calls, inv)
      else (calls ++ [inv.callTo (inv.targetOf a)],
        inv.returned (a.callee.run (inv.callTo (inv.targetOf a))))) := by
  simp only [invokeStep, invokeOnce_eq]
  by_cases hnil : isNil (inv.targetOf a) = true
  · simp [invokeWithTarget, hnil, bind, Except.bind, pure, Except.pure]
  · rw [Bool.not_eq_true] at hnil
    simp [invokeWithTarget_eq h hnil hselector, hnil, bind, Except.bind, pure, Except.pure]

/-- As `Reusable`, with what the next invocation depends on. -/
theorem invokes_spec (h : sig.returnType ≠ .parameterBlock)
    (hselector : isNil inv.storedSelector = false) (acts : List (Invoke sig)) :
    ∃ inv', inv.invokes acts =
        .ok ((inv.live acts).map fun a => inv.callTo (inv.targetOf a), inv') ∧
      (∀ i, inv'.getArgumentAtIndex i = inv.getArgumentAtIndex i) ∧
      inv'.callTo = inv.callTo ∧ inv'.storedTarget = inv.storedTarget ∧
      (sig.returnType ≠ .void → ∀ a ∈ (inv.live acts).getLast?,
        inv'.getReturnValue =
          .ok ((a.callee.run (inv.callTo (inv.targetOf a))).take sig.rval.naturalSize)) := by
  induction acts using List.reverseRecOn with
  | nil => exact ⟨inv, rfl, fun i => rfl, rfl, rfl, by simp [live]⟩
  | append_singleton acts a ih =>
    obtain ⟨inv', hrun, harguments, hcall, htarget, hreturn⟩ := ih
    have hselector' : isNil inv'.storedSelector = false := by
      rw [show inv'.storedSelector = inv.storedSelector from
        congrArg Call.selector (congrFun hcall [])]
      exact hselector
    have htargetOf : inv'.targetOf a = inv.targetOf a := by rw [targetOf, targetOf, htarget]
    have hstep := invokeStep_eq h hselector'
      ((inv.live acts).map fun a => inv.callTo (inv.targetOf a)) a
    rw [htargetOf, hcall] at hstep
    have happend : inv.invokes (acts ++ [a]) = invokeStep
        ((inv.live acts).map fun a => inv.callTo (inv.targetOf a), inv') a := by
      unfold invokes at hrun ⊢
      rw [List.foldlM_append, hrun]
      simp only [List.foldlM_cons, List.foldlM_nil, bind_pure]
      rfl
    rw [happend, hstep]
    by_cases hnil : isNil (inv.targetOf a) = true
    · have hlive : inv.live (acts ++ [a]) = inv.live acts := by simp [live, hnil]
      rw [if_pos hnil, hlive]
      exact ⟨inv', rfl, harguments, hcall, htarget, hreturn⟩
    · have hlive : inv.live (acts ++ [a]) = inv.live acts ++ [a] := by simp [live, hnil]
      obtain ⟨harguments', hcall', htarget'⟩ :=
        returned_spec inv' (a.callee.run (inv.callTo (inv.targetOf a)))
      rw [if_neg hnil, hlive]
      refine ⟨_, by simp, fun i => (harguments' i).trans (harguments i), hcall'.trans hcall,
        htarget'.trans htarget, fun hvoid b hb => ?_⟩
      obtain rfl : a = b := by simpa using hb
      exact getReturnValue_returned _ hvoid (a.callee.le_length hvoid _)

/-- Messages pass the address of the arguments, or of the storage if there are none. -/
theorem messageParameter_of_block (h : sig.returnType = .parameterBlock) :
    inv.messageParameter = .ok (.block sig.resultOffset) := by
  unfold messageParameter NSMethodSignature.resultOffset
  cases hparam : sig.paramType with
  | void => simp [h, sig.paramType_void.mp hparam, pure, Except.pure]
  | voidPointer | parameterBlock =>
    have hargs : sig.args ≠ [] := fun hargs => by
      simp [sig.paramType_void.mpr hargs] at hparam
    simp [h, sig.argumentsPointer_eq hargs, hargs, bind, Except.bind, pure, Except.pure]

/-- Calls with a parameter block for the result. -/
theorem perform_of_block (h : sig.returnType = .parameterBlock) (sel target : List UInt8) (p : ℕ)
    (callee : Callee sig) :
    inv.perform sel target (.block p) callee =
      let call : Call := ⟨target, sel, sig.received inv.storage (.block p)⟩
      if Memory.Apart sig.rval.invocationOffset sig.rval.naturalSize p sig.rval.naturalSize then
        .ok (call, (inv.store p (callee.run call)).store sig.rval.invocationOffset (callee.run call))
      else .error .undefined := by
  have hlength := callee.length_of_block h ⟨target, sel, sig.received inv.storage (.block p)⟩
  simp only [perform, h]
  split
  · next hapart =>
    rw [copyValue_eq sig.infos_zero hapart, store_storage,
      Memory.read_write_of_length hlength]
    rfl
  · next hapart =>
    rw [copyValue_of_not_apart sig.infos_zero hapart]
    rfl

/-- As `perform_of_block`, for all of `-invokeWithTarget:`. -/
theorem invokeWithTarget_of_block (h : sig.returnType = .parameterBlock) {target : List UInt8}
    (htarget : isNil target = false) (hselector : isNil inv.storedSelector = false) {p : ℕ}
    (hparam : inv.parameter = .ok (.block p)) (callee : Callee sig) :
    inv.invokeWithTarget target callee =
      let call : Call := ⟨target, inv.storedSelector, sig.received inv.storage (.block p)⟩
      if Memory.Apart sig.rval.invocationOffset sig.rval.naturalSize p sig.rval.naturalSize then
        .ok ([call],
          (inv.store p (callee.run call)).store sig.rval.invocationOffset (callee.run call))
      else .error .undefined := by
  simp only [invokeWithTarget, htarget, selector_eq, hselector, hparam, perform_of_block h, bind,
    Except.bind, Bool.false_eq_true, if_false]
  split
  · next err heq =>
    split at heq
    · cases heq
    · next hapart => rw [if_neg hapart, ← Except.error.inj heq]
  · next v heq =>
    split at heq
    · next hapart => rw [if_pos hapart, ← Except.ok.inj heq]; rfl
    · cases heq

/-- The parameter block for the result has the arguments, too. -/
theorem received_resultOffset (m : Memory UInt8) :
    sig.received m (.block sig.resultOffset) =
      sig.args.map fun a => m.read a.invocationOffset a.naturalSize := by
  by_cases hargs : sig.args = []
  · simp [NSMethodSignature.received, hargs]
  · rw [NSMethodSignature.resultOffset, if_neg hargs, sig.received_block]

/-- The slot at the address of the result. -/
theorem exists_slot_at (sig : NSMethodSignature abi) :
    ∃ i info, sig.infos[i + 1]? = some info ∧
      info.invocationOffset = sig.resultOffset ∧ 0 < info.naturalSize := by
  unfold NSMethodSignature.resultOffset
  cases hargs : sig.args with
  | nil =>
    have hsize := sig.self_size
    exact ⟨0, sig.self, rfl, by simp [sig.self_offset], by omega⟩
  | cons a as =>
    have hmem : a ∈ sig.args := by simp [hargs]
    exact ⟨2, a, by simp [NSMethodSignature.infos, hargs],
      by simpa using sig.args_offset a (by simp [hargs]), sig.args_pos a hmem⟩

/-- A slot that keeps its value under a result that is written to its address. -/
theorem eq_of_getArgumentAtIndex_eq {i : ℕ} {info : TypeInfo}
    (hinfo : sig.infos[i + 1]? = some info) (hsize : 0 < info.naturalSize)
    (hapart : Memory.Apart sig.rval.invocationOffset sig.rval.naturalSize info.invocationOffset
      sig.rval.naturalSize)
    {result : List UInt8} (hlength : result.length = sig.rval.naturalSize)
    (hpos : 0 < sig.rval.naturalSize)
    (h : ((inv.store info.invocationOffset result).store sig.rval.invocationOffset
      result).getArgumentAtIndex i = inv.getArgumentAtIndex i) :
    result.get ⟨0, hlength ▸ hpos⟩ = inv.storage info.invocationOffset := by
  rw [getArgumentAtIndex, getArgumentAtIndex, getValue_eq hinfo, getValue_eq hinfo] at h
  have hbyte := congrArg (fun bytes => bytes[0]?) (Except.ok.inj h)
  simp only [Memory.getElem?_read hsize, Nat.add_zero, store_storage] at hbyte
  rw [Memory.write_of_lt_or_le (by rcases hapart with h | h <;> omega),
    Memory.write_head (by omega)] at hbyte
  exact Option.some.inj hbyte

/-- An implementation is passed the address of the arguments. There is no arginfo for it if
there are no arguments. -/
theorem implementationParameter_of_block (h : sig.returnType = .parameterBlock) :
    inv.implementationParameter =
      if sig.args = [] then .error .undefined else .ok (.block 16) := by
  have hparam : inv.implementationParameter = do return .block (← sig.argumentsPointer) := by
    unfold implementationParameter
    rw [h]
    cases sig.paramType <;> rfl
  rw [hparam]
  split
  · next hargs =>
    simp [NSMethodSignature.argumentsPointer, sig.infos_three, hargs, bind, Except.bind]
  · next hargs =>
    simp [sig.argumentsPointer_eq hargs, bind, Except.bind, pure, Except.pure]

/-- The signatures with which all invocations are reusable, with or without an
implementation. -/
theorem invoke_reusable_iff (sig : NSMethodSignature abi) (hasImplementation : Bool) :
    (∀ inv : NSInvocation sig, inv.hasImplementation = hasImplementation → inv.Reusable) ↔
      sig.returnType ≠ .parameterBlock := by
  refine ⟨fun h hblock => ?_, fun h inv _ hselector acts => ?_⟩
  · -- all bytes are ones, the result is made of twos
    let inv : NSInvocation sig :=
      ⟨fun _ => 1, sig.invocationSize, Nat.le_refl _, hasImplementation⟩
    let result : List UInt8 := List.replicate sig.rval.naturalSize 2
    let callee : Callee sig := ⟨fun _ => result, fun _ => by
      simp [result, NSMethodSignature.resultLength, hblock]⟩
    have hselector : isNil inv.storedSelector = false := by
      have hpos := abi.sizeofSEL_pos
      simp [isNil, storedSelector, inv, Memory.read]
      omega
    obtain ⟨i, info, hinfo, hoffset, hsize⟩ := exists_slot_at sig
    obtain ⟨inv', hrun, harguments, -⟩ := h inv rfl hselector [⟨none, callee⟩]
    have hsingle : inv.invokes [⟨none, callee⟩] = invokeStep ([], inv) ⟨none, callee⟩ := by
      simp only [invokes, List.foldlM_cons, List.foldlM_nil, bind_pure]
    have hparam : inv.parameter = .ok (.block info.invocationOffset) ∨
        inv.parameter = .error .undefined := by
      rw [hoffset]
      unfold parameter
      split
      · rw [implementationParameter_of_block hblock]
        split
        · exact .inr rfl
        · next hargs => exact .inl (by rw [NSMethodSignature.resultOffset, if_neg hargs])
      · exact .inl (messageParameter_of_block hblock)
    rw [hsingle, invokeStep, invokeOnce_eq] at hrun
    rcases hparam with hparam | hparam
    · rw [invokeWithTarget_of_block hblock rfl hselector hparam] at hrun
      simp only at hrun
      split at hrun
      · next hapart =>
        obtain ⟨-, rfl⟩ := Prod.mk.inj (Except.ok.inj hrun)
        have hlength : (callee.run (inv.callTo inv.storedTarget)).length =
            sig.rval.naturalSize := by simp [callee, result]
        have hbyte := eq_of_getArgumentAtIndex_eq hinfo hsize hapart hlength
          (sig.returnType_block hblock) (harguments i)
        simp [callee, result, inv] at hbyte
      · cases hrun
    · have htarget : isNil (inv.targetOf ⟨none, callee⟩) = false := rfl
      simp only [invokeWithTarget, htarget, selector_eq, hselector, hparam, bind, Except.bind,
        Bool.false_eq_true, if_false] at hrun
      cases hrun
  · obtain ⟨inv', hrun, harguments, -, -, hreturn⟩ := invokes_spec h hselector acts
    exact ⟨inv', hrun, harguments, hreturn⟩

end NSInvocation

/-- `- (struct { long a; long b; }) foo` -/
def structSignature : NSMethodSignature metaABI64 where
  paramType := .void
  returnType := .parameterBlock
  rval := ⟨40, .struct [longType, longType]⟩
  self := ⟨0, .retainId⟩
  cmd := ⟨8, selectorType⟩
  args := []
  self_offset := TypeInfo.target_offset
  self_size := TypeInfo.target_size
  cmd_offset := TypeInfo.selector_offset
  cmd_size := TypeInfo.selector_size
  args_offset := by simp
  args_ordered := by simp
  args_pos := by simp
  rval_offset := by decide
  rval_end := by decide
  paramType_void := by simp
  paramType_voidPointer := by simp
  returnType_voidPointer := by simp
  returnType_block := by decide

/-- All bytes of the invocation are ones. -/
def ones : NSInvocation structSignature := ⟨fun _ => 1, 64, by decide, false⟩
/-- All bytes of the result are twos. -/
def twos : Callee structSignature := ⟨fun _ => List.replicate 16 2, fun _ => rfl⟩

/-- The result of a method without arguments is written over the target. -/
theorem target_overwritten :
    (∃ call inv, ones.invoke twos = .ok ([call], inv) ∧
      ones.target = .ok (List.replicate 8 1) ∧ inv.target = .ok (List.replicate 8 2)) ∧
    ¬ ones.Reusable := by
  refine ⟨⟨_, _, rfl, rfl, rfl⟩, fun h => ?_⟩
  obtain ⟨inv, hrun, harguments, -⟩ := h rfl [⟨none, twos⟩]
  obtain ⟨-, rfl⟩ := Prod.mk.inj (Except.ok.inj hrun)
  have htarget := harguments 0
  cases htarget
end MulleObjC.Invocation
