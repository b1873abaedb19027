import MulleObjC.Library.Machine
import MulleObjC.Invocation.Forward
import MulleObjC.Invocation.Owned

/-!
# The life of an invocation

`-retainArguments` and `-mulleRetainReturnValue` take references to what the slots hold
then. `-dealloc` gives up references to what the slots hold in the end. The references are
the same unless a method writes its result over an owned member of the arguments.
-/

namespace MulleObjC.Invocation

open Machine

variable {abi : MetaABI} {sig : NSMethodSignature abi}

/-- An invocation with its flags. -/
structure Owner (sig : NSMethodSignature abi) where
  invocation : NSInvocation sig
  /-- The copies and duplicates that were made. -/
  copies : ℕ
  /-- `_argumentsRetained` -/
  argumentsRetained : Bool
  /-- `_returnValueRetained` -/
  returnValueRetained : Bool
  isAlive : Bool

/-- What can be done with an invocation. -/
inductive Act (sig : NSMethodSignature abi)
  /-- `-setArgument:atIndex:` -/
  | setArgument (value : List UInt8) (i : ℕ)
  /-- `-getArgument:atIndex:` -/
  | getArgument (i : ℕ)
  /-- `-getReturnValue:` -/
  | getReturnValue
  /-- `-retainArguments` -/
  | retainArguments
  /-- `-invoke` or `-invokeWithTarget:` -/
  | invoke (a : Invoke sig)
  /-- `-mulleRetainReturnValue` -/
  | retainReturnValue
  | dealloc

namespace Owner

variable (copies : Copies) (s : Owner sig)

/-- A fresh invocation. -/
def init (invocation : NSInvocation sig) : Owner sig := ⟨invocation, 0, false, false, true⟩

/-- Go on with an invocation. An exception leaves it as it is. -/
def proceed : Except Failure (NSInvocation sig) → Option (List Event × Owner sig)
  | .ok invocation => some ([], { s with invocation := invocation })
  | .error .undefined => none
  | .error _ => some ([], s)

/-- The storage and the copies as the passes see them. -/
def heap : Heap := ⟨s.invocation.storage, s.copies⟩

/-- The passes change the storage and make copies. -/
def withHeap (h : Heap) : Owner sig :=
  { s with invocation := { s.invocation with storage := h.storage }, copies := h.copies }

/-- `-retainArguments` -/
def retainArguments : List Event × Owner sig :=
  if s.argumentsRetained then ([], s)
  else
    let (es, h) := retainAll copies sig.ownedArguments s.heap
    (es, { s.withHeap h with argumentsRetained := true })

/-- `-mulleRetainReturnValue` -/
def retainReturnValue : List Event × Owner sig :=
  if s.returnValueRetained then ([], s)
  else
    let (es, h) := retainAll copies sig.ownedReturnValue s.heap
    (es, { s.withHeap h with returnValueRetained := true })

/-- `-_releaseArguments` -/
def releaseArguments : List Event :=
  if s.argumentsRetained then releaseAll sig.ownedArguments s.invocation.storage else []

/-- `-_releaseReturnValue`, which is not reached if `-_releaseArguments` throws. -/
def releaseReturnValue : List Event :=
  if s.returnValueRetained && !(s.argumentsRetained && anyThrows sig.allArguments) then
    releaseAll sig.ownedReturnValue s.invocation.storage
  else []

/-- One step. -/
def step : Act sig → Option (List Event × Owner sig)
  | .setArgument value i =>
    if s.isAlive then s.proceed (s.invocation.setArgumentAtIndex value i) else none
  | .getArgument i =>
    if s.isAlive then
      s.proceed ((s.invocation.getArgumentAtIndex i).map fun _ => s.invocation)
    else none
  | .getReturnValue =>
    if s.isAlive then s.proceed (s.invocation.getReturnValue.map fun _ => s.invocation) else none
  | .retainArguments => if s.isAlive then some (s.retainArguments copies) else none
  | .invoke a =>
    if s.isAlive then s.proceed ((s.invocation.invokeOnce a).map Prod.snd) else none
  | .retainReturnValue => if s.isAlive then some (s.retainReturnValue copies) else none
  | .dealloc =>
    if s.isAlive then
      some (s.releaseArguments ++ s.releaseReturnValue, { s with isAlive := false })
    else none

/-- The result of a method does not overlap the return value, nor an owned member of the
arguments, if these are retained. -/
def ResultApart : Prop :=
  ∃ p, s.invocation.parameter = .ok (.block p) ∧
    Memory.Apart sig.rval.invocationOffset sig.rval.naturalSize p sig.rval.naturalSize ∧
    (s.argumentsRetained = true → ∀ m ∈ sig.ownedArguments,
      Memory.Apart p sig.rval.naturalSize m.offset 8)

/-- Arguments are set before they are retained, the return value is retained after the last
invocation. -/
def Ordered (s : Owner sig) : Act sig → Prop
  | .setArgument _ _ => s.argumentsRetained = false
  | .invoke _ => s.returnValueRetained = false
  | _ => True

/-- And no result is written over what is owned. -/
def Undisturbed (s : Owner sig) : Act sig → Prop
  | .invoke a => s.Ordered (.invoke a) ∧ (sig.returnType = .parameterBlock → s.ResultApart)
  | a => s.Ordered a

/-- The references that `-dealloc` will give up. -/
def held (r : Resource) (p : List UInt8) : ℕ :=
  if s.isAlive then
    (if s.argumentsRetained then holding r p sig.ownedArguments s.invocation.storage else 0) +
      if s.returnValueRetained then holding r p sig.ownedReturnValue s.invocation.storage else 0
  else 0

variable {copies s} {s' : Owner sig} {r : Resource} {p : List UInt8}

/-- Invoking changes the return value and the place of the result only. -/
theorem read_invokeOnce {inv inv' : NSInvocation sig} {a : Invoke sig} {calls : List Call}
    {q k : ℕ} (h : inv.invokeOnce a = .ok (calls, inv'))
    (hrval : Memory.Apart sig.rval.invocationOffset sig.rval.naturalSize q k)
    (hblock : sig.returnType = .parameterBlock → ∃ o, inv.parameter = .ok (.block o) ∧
      Memory.Apart o sig.rval.naturalSize q k) :
    inv'.storage.read q k = inv.storage.read q k := by
  rw [NSInvocation.invokeOnce_eq] at h
  by_cases hnil : isNil (inv.targetOf a) = true
  · simp only [NSInvocation.invokeWithTarget, hnil, if_true] at h
    obtain ⟨-, rfl⟩ := Prod.mk.inj (Except.ok.inj h)
    rfl
  rw [Bool.not_eq_true] at hnil
  by_cases hselector : isNil inv.storedSelector = true
  · simp [NSInvocation.invokeWithTarget, hnil, NSInvocation.selector_eq, hselector, bind,
      Except.bind, throw, throwThe, MonadExceptOf.throw] at h
  rw [Bool.not_eq_true] at hselector
  by_cases hreturn : sig.returnType = .parameterBlock
  · obtain ⟨o, hparam, hapart⟩ := hblock hreturn
    rw [NSInvocation.invokeWithTarget_of_block hreturn hnil hselector hparam] at h
    simp only at h
    split at h
    · obtain ⟨-, rfl⟩ := Prod.mk.inj (Except.ok.inj h)
      simp only [NSInvocation.store_storage]
      rw [Memory.read_write_of_apart (by rwa [a.callee.length_of_block hreturn]),
        Memory.read_write_of_apart (by rwa [a.callee.length_of_block hreturn])]
    · cases h
  · rw [NSInvocation.invokeWithTarget_eq hreturn hnil hselector] at h
    obtain ⟨-, rfl⟩ := Prod.mk.inj (Except.ok.inj h)
    unfold NSInvocation.returned
    split
    · rfl
    · exact Memory.read_write_of_apart (hrval.mono (List.length_take_le _ _))

/-- What happens to the references that are held if only the storage changes. -/
theorem held_congr (halive : s'.isAlive = s.isAlive)
    (hargs : s'.argumentsRetained = s.argumentsRetained)
    (hrval : s'.returnValueRetained = s.returnValueRetained)
    (hargsRead : s.argumentsRetained = true → ∀ m ∈ sig.ownedArguments,
      s'.invocation.storage.read m.offset 8 = s.invocation.storage.read m.offset 8)
    (hrvalRead : s.returnValueRetained = true → ∀ m ∈ sig.ownedReturnValue,
      s'.invocation.storage.read m.offset 8 = s.invocation.storage.read m.offset 8) :
    s'.held r p = s.held r p := by
  unfold held
  rw [halive, hargs, hrval]
  congr 2
  · split
    · next h => exact holding_congr (hargsRead h)
    · rfl
  · split
    · next h => exact holding_congr (hrvalRead h)
    · rfl

/-- A function that returns an invocation or throws takes and gives up nothing. -/
theorem proceed_held {result : Except Failure (NSInvocation sig)} {es : List Event}
    (h : s.proceed result = some (es, s'))
    (hargsRead : ∀ inv, result = .ok inv → s.argumentsRetained = true → ∀ m ∈ sig.ownedArguments,
      inv.storage.read m.offset 8 = s.invocation.storage.read m.offset 8)
    (hrvalRead : ∀ inv, result = .ok inv → s.returnValueRetained = true →
      ∀ m ∈ sig.ownedReturnValue,
        inv.storage.read m.offset 8 = s.invocation.storage.read m.offset 8) :
    es = [] ∧ s'.held r p = s.held r p := by
  unfold proceed at h
  split at h
  · next inv =>
    obtain ⟨rfl, rfl⟩ := Prod.mk.inj (Option.some.inj h)
    exact ⟨rfl, held_congr rfl rfl rfl (hargsRead inv rfl) (hrvalRead inv rfl)⟩
  · cases h
  · obtain ⟨rfl, rfl⟩ := Prod.mk.inj (Option.some.inj h)
    exact ⟨rfl, rfl⟩

/-- Reading a value is no change. -/
theorem proceed_map_held {α : Type*} {result : Except Failure α} {es : List Event}
    (h : s.proceed (result.map fun _ => s.invocation) = some (es, s')) :
    es = [] ∧ s'.held r p = s.held r p := by
  have hsame (inv : NSInvocation sig) (hinv : (result.map fun _ => s.invocation) = .ok inv) :
      inv = s.invocation := by
    cases result with
    | error e => cases hinv
    | ok value => exact (Except.ok.inj hinv).symm
  exact proceed_held h (fun inv hinv _ m _ => by rw [hsame inv hinv])
    (fun inv hinv _ m _ => by rw [hsame inv hinv])

/-- Setting an argument keeps the return value. -/
theorem read_setArgumentAtIndex {inv inv' : NSInvocation sig} {value : List UInt8} {i q k : ℕ}
    (h : inv.setArgumentAtIndex value i = .ok inv') (hq : sig.rval.invocationOffset ≤ q) :
    inv'.storage.read q k = inv.storage.read q k := by
  unfold NSInvocation.setArgumentAtIndex at h
  cases hinfo : sig.infos[i + 1]? with
  | none =>
    simp [NSInvocation.setValue, NSInvocation.pointerAndSizeOfArgumentValue, hinfo, bind,
      Except.bind] at h
  | some info =>
    by_cases hlength : info.naturalSize ≤ value.length
    · rw [NSInvocation.setValue_eq hinfo hlength] at h
      obtain rfl := Except.ok.inj h
      have hle := sig.slotEnd_le_rval (List.mem_of_getElem? hinfo)
      have htake := List.length_take_le info.naturalSize value
      unfold TypeInfo.slotEnd at hle
      exact Memory.read_write_of_apart (.inl (by omega))
    · simp [NSInvocation.setValue, NSInvocation.pointerAndSizeOfArgumentValue_eq hinfo, hlength,
        bind, Except.bind, throw, throwThe, MonadExceptOf.throw] at h

/-- The pass of `-retainArguments` takes what is held in the arguments then. -/
theorem retainArguments_held (copies : Copies) (halive : s.isAlive = true) :
    (s.retainArguments copies).1.countP (· = .acquired r p) + s.held r p =
      (s.retainArguments copies).1.countP (· = .released r p) +
        (s.retainArguments copies).2.held r p := by
  unfold retainArguments
  split
  · rfl
  · next hretained =>
    have hrval : holding r p sig.ownedReturnValue
        (retainAll copies sig.ownedArguments s.heap).2.storage =
        holding r p sig.ownedReturnValue s.invocation.storage :=
      holding_congr fun m hm => read_retainAll fun m' hm' =>
        .inl ((sig.ownedArguments_le hm').trans (sig.ownedReturnValue_ge hm))
    simp only [countP_retainAll sig.ownedArguments_ordered, countP_released_retainAll, held,
      withHeap, halive, hretained, hrval, if_true, Bool.false_eq_true, if_false]
    omega

/-- The pass of `-mulleRetainReturnValue` takes what is held in the return value then. -/
theorem retainReturnValue_held (copies : Copies) (halive : s.isAlive = true) :
    (s.retainReturnValue copies).1.countP (· = .acquired r p) + s.held r p =
      (s.retainReturnValue copies).1.countP (· = .released r p) +
        (s.retainReturnValue copies).2.held r p := by
  unfold retainReturnValue
  split
  · rfl
  · next hretained =>
    have hargs : holding r p sig.ownedArguments
        (retainAll copies sig.ownedReturnValue s.heap).2.storage =
        holding r p sig.ownedArguments s.invocation.storage :=
      holding_congr fun m hm => read_retainAll fun m' hm' =>
        .inr ((sig.ownedArguments_le hm).trans (sig.ownedReturnValue_ge hm'))
    simp only [countP_retainAll sig.ownedReturnValue_ordered, countP_released_retainAll, held,
      withHeap, halive, hretained, hargs, if_true, Bool.false_eq_true, if_false]
    omega

/-- The passes of `-dealloc` give up all that is held. -/
theorem release_held (hargs : ∀ a ∈ sig.allArguments, a.type.hasOwnedUnion = false)
    (halive : s.isAlive = true) :
    (s.releaseArguments ++ s.releaseReturnValue).countP (· = .acquired r p) + s.held r p =
      (s.releaseArguments ++ s.releaseReturnValue).countP (· = .released r p) := by
  rw [List.countP_append, List.countP_append]
  unfold releaseArguments releaseReturnValue held
  rw [anyThrows_eq_false hargs, halive]
  cases s.argumentsRetained <;> cases s.returnValueRetained <;>
    simp [countP_releaseAll, countP_acquired_releaseAll]

/-- Without throwing arguments, a step takes and gives up as much as is held more or less. -/
theorem step_held (hargs : ∀ a ∈ sig.allArguments, a.type.hasOwnedUnion = false) {a : Act sig}
    {es : List Event} (hcond : s.Undisturbed a) (h : s.step copies a = some (es, s')) :
    es.countP (· = .acquired r p) + s.held r p =
      es.countP (· = .released r p) + s'.held r p := by
  have halive : s.isAlive = true := by
    by_contra hdead
    cases a <;> simp [step, hdead] at h
  cases a with
  | setArgument value i =>
    simp only [step, halive, if_true] at h
    obtain ⟨rfl, hheld⟩ := proceed_held (r := r) (p := p) h
      (fun inv _ hretained => by rw [hcond] at hretained; cases hretained)
      (fun inv hinv _ m hm => read_setArgumentAtIndex hinv (sig.ownedReturnValue_ge hm))
    simp [hheld]
  | getArgument i =>
    simp only [step, halive, if_true] at h
    obtain ⟨rfl, hheld⟩ := proceed_map_held (r := r) (p := p) h
    simp [hheld]
  | getReturnValue =>
    simp only [step, halive, if_true] at h
    obtain ⟨rfl, hheld⟩ := proceed_map_held (r := r) (p := p) h
    simp [hheld]
  | retainArguments =>
    simp only [step, halive, if_true] at h
    have hheld := retainArguments_held (r := r) (p := p) copies halive
    rwa [Option.some.inj h] at hheld
  | invoke a =>
    simp only [step, halive, if_true] at h
    obtain ⟨hunretained, hblock⟩ := hcond
    obtain ⟨rfl, hheld⟩ := proceed_held (r := r) (p := p) h
      (fun inv hinv hretained m hm => by
        cases hinvoke : s.invocation.invokeOnce a with
        | error e => simp [hinvoke, Except.map] at hinv
        | ok result =>
          rw [hinvoke] at hinv
          obtain rfl := Except.ok.inj hinv
          refine read_invokeOnce hinvoke (.inr (sig.ownedArguments_le hm)) fun hreturn => ?_
          obtain ⟨o, hparam, -, hapart⟩ := hblock hreturn
          exact ⟨o, hparam, hapart hretained m hm⟩)
      (fun inv _ hretained => by rw [hunretained] at hretained; cases hretained)
    simp [hheld]
  | retainReturnValue =>
    simp only [step, halive, if_true] at h
    have hheld := retainReturnValue_held (r := r) (p := p) copies halive
    rwa [Option.some.inj h] at hheld
  | dealloc =>
    simp only [step, halive, if_true] at h
    obtain ⟨rfl, rfl⟩ := Prod.mk.inj (Option.some.inj h)
    rw [release_held hargs halive]
    simp [held]

/-- An undisturbed invocation has a result. -/
theorem invokeOnce_ne_undefined {a : Invoke sig} (hcond : s.Undisturbed (.invoke a)) :
    s.invocation.invokeOnce a ≠ .error .undefined := by
  rw [NSInvocation.invokeOnce_eq]
  by_cases hnil : isNil (s.invocation.targetOf a) = true
  · simp [NSInvocation.invokeWithTarget, hnil]
  rw [Bool.not_eq_true] at hnil
  by_cases hselector : isNil s.invocation.storedSelector = true
  · simp [NSInvocation.invokeWithTarget, hnil, NSInvocation.selector_eq, hselector, bind,
      Except.bind, throw, throwThe, MonadExceptOf.throw]
  rw [Bool.not_eq_true] at hselector
  by_cases hreturn : sig.returnType = .parameterBlock
  · obtain ⟨o, hparam, hapart, -⟩ := hcond.2 hreturn
    rw [NSInvocation.invokeWithTarget_of_block hreturn hnil hselector hparam]
    simp [hapart]
  · rw [NSInvocation.invokeWithTarget_eq hreturn hnil hselector]
    intro h
    cases h

/-- In the life of an invocation nothing is released or freed that was not retained, copied or
duplicated before. In the end all of it is. -/
theorem ownership_balance (hargs : ∀ a ∈ sig.allArguments, a.type.hasOwnedUnion = false)
    {invocation : NSInvocation sig} {es : List Event}
    (hrun : RunWhile (step copies) Undisturbed (init invocation) es s) (r : Resource)
    (p : List UInt8) :
    es.countP (· = .released r p) ≤ es.countP (· = .acquired r p) ∧
      (s.isAlive = false →
        es.countP (· = .acquired r p) = es.countP (· = .released r p)) := by
  have hbalance : es.countP (· = .acquired r p) + (init invocation).held r p =
      es.countP (· = .released r p) + s.held r p :=
    hrun.balance (fun _ => True) (fun _ _ _ => trivial)
      (fun hcond _ hstep => step_held hargs hcond hstep) trivial
  have hinit : (init invocation).held r p = 0 := by simp [held, init]
  rw [hinit] at hbalance
  refine ⟨by omega, fun hdead => ?_⟩
  have hheld : s.held r p = 0 := by simp [held, hdead]
  omega

end Owner

/-- `- (id) foo:(id) argument`, of which the argument is copied. -/
def copySignature : NSMethodSignature metaABI64 where
  paramType := .voidPointer
  returnType := .voidPointer
  rval := ⟨40, .retainId⟩
  self := ⟨0, .retainId⟩
  cmd := ⟨8, selectorType⟩
  args := [⟨16, .copyId⟩]
  self_offset := TypeInfo.target_offset
  self_size := TypeInfo.target_size
  cmd_offset := TypeInfo.selector_offset
  cmd_size := TypeInfo.selector_size
  args_offset := by simp
  args_ordered := by simp; decide
  args_pos := by simp; decide
  rval_offset := by decide
  rval_end := Nat.le_add_right _ 8
  paramType_void := by simp
  paramType_voidPointer _ := ⟨_, rfl, Nat.le_refl 8⟩
  returnType_voidPointer _ := Nat.le_refl 8
  returnType_block := by simp

/-- All copies are the same. -/
def sameCopy : Copies := ⟨fun _ _ => List.replicate 8 9, fun _ _ => rfl⟩

/-- A method that returns a pointer of twos. -/
def copyTwos : Callee copySignature := ⟨fun _ => List.replicate 8 2, fun _ => rfl⟩

/-- The copy of the argument and the return value are released. -/
theorem copy_released :
    ∃ (es : List Event) (s : Owner copySignature),
      RunWhile (Owner.step sameCopy) Owner.Undisturbed
        (Owner.init (.invocationWithMethodSignature _)) es s ∧ s.isAlive = false ∧
      es.countP (· = .acquired .object (List.replicate 8 9)) = 1 ∧
      ∀ r p, es.countP (· = .acquired r p) = es.countP (· = .released r p) := by
  have hrun : ∃ (es : List Event) (s : Owner copySignature),
      RunWhile (Owner.step sameCopy) Owner.Undisturbed
        (Owner.init (.invocationWithMethodSignature _)) es s ∧ s.isAlive = false ∧
      es.countP (· = .acquired .object (List.replicate 8 9)) = 1 := by
    have h₀ : RunWhile (Owner.step sameCopy) Owner.Undisturbed
        (Owner.init (.invocationWithMethodSignature copySignature)) [] _ := .refl _
    have h₁ := h₀.tail (Act.setArgument someTarget 0) rfl rfl
    have h₂ := h₁.tail (Act.setArgument someSelector 1) rfl rfl
    have h₃ := h₂.tail (Act.setArgument (List.replicate 8 1) 2) rfl rfl
    have h₄ := h₃.tail Act.retainArguments trivial rfl
    have h₅ := h₄.tail (Act.invoke ⟨none, copyTwos⟩) ⟨rfl, fun h => nomatch h⟩ rfl
    have h₆ := h₅.tail Act.retainReturnValue trivial rfl
    have h₇ := h₆.tail Act.dealloc trivial rfl
    exact ⟨_, _, h₇, rfl, rfl⟩
  obtain ⟨es, s, hrun, hdead, hcount⟩ := hrun
  have hargs : ∀ a ∈ copySignature.allArguments, a.type.hasOwnedUnion = false := by
    simp [NSMethodSignature.allArguments, copySignature, selectorType, Ty.hasOwnedUnion]
  exact ⟨es, s, hrun, hdead, hcount, fun r p => (Owner.ownership_balance hargs hrun r p).2 hdead⟩

/-- A result of two numbers is released in place of the argument. -/
theorem result_released :
    (∃ (es : List Event) (s : Owner (fooSignature (.struct [longType, longType]) (by decide))),
      RunWhile (Owner.step sameCopy) Owner.Ordered
        (Owner.init (.invocationWithMethodSignature _)) es s ∧ s.isAlive = false ∧
      es.countP (· = .acquired .object (List.replicate 8 1)) = 1 ∧
      es.countP (· = .released .object (List.replicate 8 1)) = 0 ∧
      es.countP (· = .acquired .object (List.replicate 8 2)) = 0 ∧
      es.countP (· = .released .object (List.replicate 8 2)) = 1) ∧
    ¬ ∀ (abi : MetaABI) (sig : NSMethodSignature abi) (copies : Copies) (es : List Event)
      (invocation : NSInvocation sig) (s : Owner sig),
      (∀ a ∈ sig.allArguments, a.type.hasOwnedUnion = false) →
      RunWhile (Owner.step copies) Owner.Ordered (Owner.init invocation) es s →
      s.isAlive = false → ∀ r p,
        es.countP (· = .acquired r p) = es.countP (· = .released r p) := by
  have hrun : ∃ (es : List Event)
      (s : Owner (fooSignature (.struct [longType, longType]) (by decide))),
      RunWhile (Owner.step sameCopy) Owner.Ordered
        (Owner.init (.invocationWithMethodSignature _)) es s ∧ s.isAlive = false ∧
      es.countP (· = .acquired .object (List.replicate 8 1)) = 1 ∧
      es.countP (· = .released .object (List.replicate 8 1)) = 0 ∧
      es.countP (· = .acquired .object (List.replicate 8 2)) = 0 ∧
      es.countP (· = .released .object (List.replicate 8 2)) = 1 := by
    have h₀ : RunWhile (Owner.step sameCopy) Owner.Ordered (Owner.init
        (.invocationWithMethodSignature (fooSignature (.struct [longType, longType]) (by decide))))
        [] _ := .refl _
    have h₁ := h₀.tail (Act.setArgument someTarget 0) rfl rfl
    have h₂ := h₁.tail (Act.setArgument someSelector 1) rfl rfl
    have h₃ := h₂.tail (Act.setArgument (List.replicate 8 1) 2) rfl rfl
    have h₄ := h₃.tail Act.retainArguments trivial rfl
    have h₅ := h₄.tail (Act.invoke ⟨none, fooTwos _ _⟩) rfl rfl
    have h₆ := h₅.tail Act.dealloc trivial rfl
    exact ⟨_, _, h₆, rfl, rfl, rfl, rfl, rfl⟩
  refine ⟨hrun, fun hclaim => ?_⟩
  obtain ⟨es, s, hrun, hdead, hacquired, hreleased, -⟩ := hrun
  have hbalance := hclaim _ _ _ es _ s (by
    simp [NSMethodSignature.allArguments, fooSignature, selectorType, Ty.hasOwnedUnion])
    hrun hdead .object (List.replicate 8 1)
  omega

end MulleObjC.Invocation
