import Mathlib.Data.List.Nodup
import Mathlib.Logic.Function.Basic
import MulleObjC.Invocation.Bounds
import MulleObjC.Library.Machine

/-!
# Reusing invocations

An invocation that is deallocated is put into a fifo, if its class is `NSInvocation` and its
storage has the standard size. A new invocation of this kind is taken from the fifo and
reset. Threads do this at the same time. Reading the fifo and resetting what was read are
steps of their own, as are losing the last reference and writing to the fifo. The fifo gives
out what was written to it, in any order, and can be full or look empty at any time.
-/

namespace MulleObjC.Invocation

variable {Thread Imp : Type*} {abi : MetaABI}

/-- An instance of `NSInvocation` or a subclass, with its header and its extra bytes. -/
structure Instance (Thread Imp : Type*) (abi : MetaABI) where
  isSubclass : Bool
  /-- `_retaincount_1`, which is one less than the number of references. -/
  retainCount1 : ℤ
  threadID : Thread
  /-- `_storage` and `_sentinel`, if they are not `NULL`. -/
  bounds : Option Bounds
  argumentsRetained : Bool
  returnValueRetained : Bool
  implementation : Option Imp
  methodSignature : Option (MethodSignature abi)
  extra : List UInt8

namespace Instance

/-- `NSAllocateObject` -/
def allocateObject (isSubclass : Bool) (t : Thread) (size : ℕ) : Instance Thread Imp abi where
  isSubclass := isSubclass
  retainCount1 := 0
  threadID := t
  bounds := none
  argumentsRetained := false
  returnValueRetained := false
  implementation := none
  methodSignature := none
  extra := List.replicate size 0

variable (inst : Instance Thread Imp abi)

/-- `_NSInvocationSetStorage` -/
def setStorage (extraBytes : ℕ) (sig : MethodSignature abi) (size : ℕ) :
    Instance Thread Imp abi :=
  { inst with
    bounds := some (Invocation.setStorage extraBytes size)
    methodSignature := some sig
    implementation := none }

/-- What `popStandardInvocation` does with an invocation from the fifo. The bytes of the
instance and of a standard storage are set to zero. -/
def makeFresh (t : Thread) : Instance Thread Imp abi where
  isSubclass := inst.isSubclass
  retainCount1 := 0
  threadID := t
  bounds := none
  argumentsRetained := false
  returnValueRetained := false
  implementation := none
  methodSignature := none
  extra := List.replicate (min standardSize inst.extra.length) 0 ++ inst.extra.drop standardSize

/-- `_isStandardInvocation` -/
def isStandardInvocation : Bool :=
  if inst.isSubclass then false
  else
    match inst.bounds with
    | none => decide (0 = standardSize)
    | some b => decide (b.sentinel - b.storage = standardSize)

variable {inst}

/-- The size of the storage is that of the extra bytes, so a standard invocation has as many as
a standard storage. -/
theorem standard_of_isStandardInvocation (h : inst.isStandardInvocation = true)
    (hsized : ∀ b, inst.bounds = some b → b.storage + inst.extra.length = b.sentinel) :
    inst.isSubclass = false ∧ inst.extra.length = standardSize := by
  unfold isStandardInvocation at h
  split at h
  · cases h
  · next hclass =>
    refine ⟨by simpa using hclass, ?_⟩
    split at h
    · exact absurd (of_decide_eq_true h) (by decide)
    · next b hb =>
      have hsize := of_decide_eq_true h
      have := hsized b hb
      omega

end Instance

/-- What methods of an invocation change. -/
structure Usage (Thread Imp : Type*) where
  threadID : Thread
  argumentsRetained : Bool
  returnValueRetained : Bool
  implementation : Option Imp
  extra : List UInt8

/-- Setting values, retaining arguments, invoking, and the like. -/
def Instance.use (inst : Instance Thread Imp abi) (u : Usage Thread Imp) :
    Instance Thread Imp abi :=
  { inst with
    threadID := u.threadID
    argumentsRetained := u.argumentsRetained
    returnValueRetained := u.returnValueRetained
    implementation := u.implementation
    extra := u.extra }

/-- What an address is used for. -/
inductive Status (Thread : Type*)
  | unused
  | live
  /-- A thread has released the last reference. -/
  | deallocating (t : Thread)
  | pooled
  /-- A thread has read it from the fifo. -/
  | taken (t : Thread)
  deriving DecidableEq

/-- All invocations, by their addresses. -/
structure Invocations (Thread Imp : Type*) (abi : MetaABI) where
  object : ℕ → Option (Instance Thread Imp abi)
  status : ℕ → Status Thread
  references : ℕ → ℕ
  /-- `reuseInvocations` -/
  reuseInvocations : List ℕ

/-- What a thread can do. -/
inductive Operation (Thread Imp : Type*) (abi : MetaABI)
  /-- An invocation is allocated and gets its storage. -/
  | create (t : Thread) (creation : Creation) (sig : MethodSignature abi) (a : ℕ)
  /-- An invocation without a storage. -/
  | allocate (t : Thread) (isSubclass : Bool) (extra a : ℕ)
  /-- `_mulle_pointermultififo_read_barrier` -/
  | read (t : Thread) (a : ℕ)
  /-- What was read is reset and gets its storage. -/
  | recreate (t : Thread) (sig : MethodSignature abi) (a : ℕ)
  | use (u : Usage Thread Imp) (a : ℕ)
  | retain (a : ℕ)
  | release (t : Thread) (a : ℕ)
  /-- `_mulle_pointermultififo_write` -/
  | write (t : Thread) (a : ℕ)
  /-- `_MulleObjCInstanceFree` -/
  | free (t : Thread) (a : ℕ)
  /-- `+deinitialize` -/
  | deinitialize (a : ℕ)

/-- The class is a subclass. -/
def Creation.isSubclass : Creation → Bool
  | withMethodSignature isSubclass => isSubclass
  | withFrameAndLength _ => false

namespace Invocations

/-- Nothing is allocated. -/
def initial : Invocations Thread Imp abi := ⟨fun _ => none, fun _ => .unused, fun _ => 0, []⟩

variable (s : Invocations Thread Imp abi)

/-- Change what is at an address. -/
def put (a : ℕ) (inst : Option (Instance Thread Imp abi)) (status : Status Thread)
    (references : ℕ) : Invocations Thread Imp abi :=
  { s with
    object := Function.update s.object a inst
    status := Function.update s.status a status
    references := Function.update s.references a references }

variable [DecidableEq Thread]

/-- One step of a thread. `extraBytes` says where the extra bytes of an address are. -/
def step (extraBytes : ℕ → ℕ) (s : Invocations Thread Imp abi) :
    Operation Thread Imp abi → Option (Invocations Thread Imp abi)
  | .create t creation sig a =>
    match s.object a, creation.size sig with
    | none, some size =>
      some (s.put a (some ((Instance.allocateObject creation.isSubclass t size).setStorage
        (extraBytes a) sig size)) .live 1)
    | _, _ => none
  | .allocate t isSubclass extra a =>
    match s.object a with
    | none => some (s.put a (some (Instance.allocateObject isSubclass t extra)) .live 1)
    | some _ => none
  | .read t a =>
    if a ∈ s.reuseInvocations then
      some { s.put a (s.object a) (.taken t) (s.references a) with
        reuseInvocations := s.reuseInvocations.erase a }
    else none
  | .recreate t sig a =>
    match s.object a, (Creation.withMethodSignature false).size sig with
    | some inst, some size =>
      if s.status a = .taken t ∧ size = standardSize then
        some (s.put a (some ((inst.makeFresh t).setStorage (extraBytes a) sig size)) .live 1)
      else none
    | _, _ => none
  | .use u a =>
    match s.object a, s.status a with
    | some inst, .live | some inst, .deallocating _ =>
      if u.extra.length = inst.extra.length then
        some (s.put a (some (inst.use u)) (s.status a) (s.references a))
      else none
    | _, _ => none
  | .retain a =>
    match s.object a with
    | some inst =>
      if 0 < s.references a then
        some (s.put a (some { inst with retainCount1 := inst.retainCount1 + 1 }) (s.status a)
          (s.references a + 1))
      else none
    | none => none
  | .release t a =>
    match s.object a with
    | some inst =>
      if 0 < s.references a then
        some (s.put a (some { inst with retainCount1 := inst.retainCount1 - 1 })
          (if inst.retainCount1 = 0 then .deallocating t else s.status a) (s.references a - 1))
      else none
    | none => none
  | .write t a =>
    match s.object a with
    | some inst =>
      if s.status a = .deallocating t ∧ inst.isStandardInvocation = true then
        some { s.put a inst .pooled (s.references a) with
          reuseInvocations := a :: s.reuseInvocations }
      else none
    | none => none
  | .free t a =>
    if s.status a = .deallocating t then some (s.put a none .unused (s.references a)) else none
  | Operation.deinitialize a =>
    if a ∈ s.reuseInvocations then
      some { s.put a none .unused (s.references a) with
        reuseInvocations := s.reuseInvocations.erase a }
    else none

/-- What is known of an address that is in the fifo or not. -/
structure SoundAt (inFifo : Prop) (object : Option (Instance Thread Imp abi))
    (status : Status Thread) (references : ℕ) : Prop where
  pooled : status = .pooled ↔ inFifo
  unused : status = .unused ↔ object = none
  standard : ∀ inst, object = some inst → (status = .pooled ∨ ∃ t, status = .taken t) →
    inst.isSubclass = false ∧ inst.extra.length = standardSize
  sized : ∀ inst b, object = some inst → inst.bounds = some b →
    b.storage + inst.extra.length = b.sentinel
  counted : ∀ inst, object = some inst → status = .live → inst.retainCount1 + 1 = references
  unreferenced : status ≠ .live → references = 0

/-- No invocation is in the fifo twice, and all is known of every address. -/
structure Sound : Prop where
  nodup : s.reuseInvocations.Nodup
  at_address : ∀ a,
    SoundAt (a ∈ s.reuseInvocations) (s.object a) (s.status a) (s.references a)

omit [DecidableEq Thread] in
theorem initial_sound : (initial : Invocations Thread Imp abi).Sound where
  nodup := .nil
  at_address a := by constructor <;> simp [initial]

variable {s}

omit [DecidableEq Thread] in
/-- A change of one address. -/
theorem Sound.put (h : s.Sound) {a : ℕ} {inst : Option (Instance Thread Imp abi)}
    {status : Status Thread} {references : ℕ} {fifo : List ℕ} (hnodup : fifo.Nodup)
    (hothers : ∀ b, b ≠ a → (b ∈ fifo ↔ b ∈ s.reuseInvocations))
    (hat : SoundAt (a ∈ fifo) inst status references) :
    Sound { s.put a inst status references with reuseInvocations := fifo } where
  nodup := hnodup
  at_address b := by
    by_cases hb : b = a
    · subst hb
      simpa [Invocations.put] using hat
    · simpa [Invocations.put, hb, hothers b hb] using h.at_address b

omit [DecidableEq Thread] in
/-- As `Sound.put`, of an address that is not in the fifo. -/
theorem Sound.put_of_not_mem (h : s.Sound) {a : ℕ} {inst : Option (Instance Thread Imp abi)}
    {status : Status Thread} {references : ℕ} (ha : a ∉ s.reuseInvocations)
    (hat : SoundAt False inst status references) : (s.put a inst status references).Sound :=
  h.put h.nodup (fun _ _ => Iff.rfl) (by simpa [ha] using hat)

omit [DecidableEq Thread] in
/-- An invocation that is in use. -/
theorem soundAt_live {inst : Instance Thread Imp abi} {references : ℕ}
    (hsized : ∀ b, inst.bounds = some b → b.storage + inst.extra.length = b.sentinel)
    (hcounted : inst.retainCount1 + 1 = references) :
    SoundAt False (some inst) (.live : Status Thread) references where
  pooled := by simp
  unused := by simp
  standard _ _ hreuse := by simp at hreuse
  sized i b hi hb := by
    obtain rfl := Option.some.inj hi
    exact hsized b hb
  counted i hi _ := by
    obtain rfl := Option.some.inj hi
    exact hcounted
  unreferenced hlive := absurd rfl hlive

omit [DecidableEq Thread] in
theorem soundAt_unused :
    SoundAt False (none : Option (Instance Thread Imp abi)) .unused 0 := by
  constructor <;> simp

section Status

variable {inFifo : Prop} {object : Option (Instance Thread Imp abi)}
  {inst inst' : Instance Thread Imp abi} {status : Status Thread} {references : ℕ}

omit [DecidableEq Thread] in
/-- An invocation that was read from the fifo. -/
theorem SoundAt.taken (h : SoundAt inFifo object .pooled references) (t : Thread) :
    SoundAt False object (.taken t) references where
  pooled := by simp
  unused := by simpa using h.unused
  standard inst hinst _ := h.standard inst hinst (.inl rfl)
  sized := h.sized
  counted := by simp
  unreferenced _ := h.unreferenced (by simp)

omit [DecidableEq Thread] in
/-- An invocation that is changed while it is in use. -/
theorem SoundAt.use (h : SoundAt inFifo (some inst) status references)
    (hpooled : status ≠ .pooled) (htaken : ∀ t, status ≠ .taken t) {u : Usage Thread Imp}
    (hlength : u.extra.length = inst.extra.length) :
    SoundAt False (some (inst.use u)) status references where
  pooled := by simpa using hpooled
  unused := by simpa using h.unused
  standard := by
    rintro i - (hstatus | ⟨t, hstatus⟩)
    · exact absurd hstatus hpooled
    · exact absurd hstatus (htaken t)
  sized i b hi hb := by
    obtain rfl := Option.some.inj hi
    have hsized := h.sized inst b rfl hb
    rwa [← hlength] at hsized
  counted i hi hlive := by
    obtain rfl := Option.some.inj hi
    exact h.counted inst rfl hlive
  unreferenced := h.unreferenced

omit [DecidableEq Thread] in
/-- An invocation whose last reference was released. -/
theorem SoundAt.deallocating (h : SoundAt inFifo (some inst) status references)
    (hbounds : inst'.bounds = inst.bounds) (hextra : inst'.extra = inst.extra) (t : Thread) :
    SoundAt False (some inst') (.deallocating t) 0 where
  pooled := by simp
  unused := by simp
  standard _ _ hreuse := by simp at hreuse
  sized i b hi hb := by
    obtain rfl := Option.some.inj hi
    rw [hbounds] at hb
    rw [hextra]
    exact h.sized inst b rfl hb
  counted := by simp
  unreferenced _ := rfl

omit [DecidableEq Thread] in
/-- An invocation that is written to the fifo. -/
theorem SoundAt.written {t : Thread} (h : SoundAt inFifo (some inst) (.deallocating t) references)
    (hstandard : inst.isStandardInvocation = true) :
    SoundAt True (some inst) .pooled references where
  pooled := by simp
  unused := by simp
  standard i hi _ := by
    obtain rfl := Option.some.inj hi
    exact Instance.standard_of_isStandardInvocation hstandard fun b hb => h.sized inst b rfl hb
  sized := h.sized
  counted := by simp
  unreferenced _ := h.unreferenced (by simp)

end Status

omit [DecidableEq Thread] in
/-- What was just allocated is of the size that was asked for. -/
theorem soundAt_created (isSubclass : Bool) (t : Thread) (extraBytes size : ℕ)
    (sig : MethodSignature abi) :
    SoundAt False (some ((Instance.allocateObject isSubclass t size : Instance Thread Imp abi)
      |>.setStorage extraBytes sig size)) .live 1 := by
  refine soundAt_live (fun b hb => ?_) rfl
  obtain rfl := Option.some.inj hb
  simp [Instance.setStorage, Instance.allocateObject, Invocation.setStorage]

/-- Every step keeps the invocations sound. -/
theorem sound_step {extraBytes : ℕ → ℕ} {op : Operation Thread Imp abi}
    {s' : Invocations Thread Imp abi} (hsound : s.Sound) (h : s.step extraBytes op = some s') :
    s'.Sound := by
  have hnot {a : ℕ} (hstatus : s.status a ≠ .pooled) : a ∉ s.reuseInvocations :=
    fun hmem => hstatus ((hsound.at_address a).pooled.mpr hmem)
  have hnone {a : ℕ} (hobject : s.object a = none) : a ∉ s.reuseInvocations := by
    refine hnot ?_
    rw [(hsound.at_address a).unused.mpr hobject]
    simp
  have hlive {a : ℕ} (hreferences : 0 < s.references a) : s.status a = .live := by
    by_contra hstatus
    have := (hsound.at_address a).unreferenced hstatus
    omega
  cases op with
  | create t creation sig a =>
    simp only [step] at h
    split at h
    · next size hobject hsize =>
      obtain rfl := Option.some.inj h
      exact hsound.put_of_not_mem (hnone hobject) (soundAt_created ..)
    · cases h
  | allocate t isSubclass extra a =>
    simp only [step] at h
    split at h
    · next hobject =>
      obtain rfl := Option.some.inj h
      refine hsound.put_of_not_mem (hnone hobject) (soundAt_live (fun b hb => ?_) rfl)
      cases hb
    · cases h
  | read t a =>
    simp only [step] at h
    split at h
    · next hmem =>
      obtain rfl := Option.some.inj h
      have hold := hsound.at_address a
      have hpooled := hold.pooled.mpr hmem
      rw [hpooled] at hold
      refine hsound.put (hsound.nodup.erase a) (fun b hb => List.mem_erase_of_ne hb) ?_
      simpa [hsound.nodup.mem_erase_iff] using hold.taken t
    · cases h
  | recreate t sig a =>
    simp only [step] at h
    split at h
    · next inst size hobject hsize =>
      split at h
      · next htaken =>
        obtain rfl := Option.some.inj h
        have hold := hsound.at_address a
        obtain ⟨-, hlength⟩ := hold.standard inst hobject (.inr ⟨t, htaken.1⟩)
        refine hsound.put_of_not_mem (hnot (by simp [htaken.1])) (soundAt_live (fun b hb => ?_) rfl)
        obtain rfl := Option.some.inj hb
        simp [Instance.setStorage, Instance.makeFresh, Invocation.setStorage, hlength, htaken.2]
      · cases h
    · cases h
  | use u a =>
    have huse {inst : Instance Thread Imp abi} (hobject : s.object a = some inst)
        (hstatus : s.status a ≠ .pooled) (hreuse : ∀ t, s.status a ≠ .taken t)
        (hlength : u.extra.length = inst.extra.length) :
        (s.put a (some (inst.use u)) (s.status a) (s.references a)).Sound := by
      have hold := hsound.at_address a
      rw [hobject] at hold
      exact hsound.put_of_not_mem (hnot hstatus) (hold.use hstatus hreuse hlength)
    simp only [step] at h
    split at h
    · next inst hobject hstatus =>
      split at h
      · next hlength =>
        obtain rfl := Option.some.inj h
        exact huse hobject (by simp [hstatus]) (by simp [hstatus]) hlength
      · cases h
    · next inst t hobject hstatus =>
      split at h
      · next hlength =>
        obtain rfl := Option.some.inj h
        exact huse hobject (by simp [hstatus]) (by simp [hstatus]) hlength
      · cases h
    · cases h
  | retain a =>
    simp only [step] at h
    split at h
    · next inst hobject =>
      split at h
      · next hpos =>
        obtain rfl := Option.some.inj h
        have hold := hsound.at_address a
        rw [hlive hpos]
        refine hsound.put_of_not_mem (hnot (by simp [hlive hpos])) (soundAt_live ?_ ?_)
        · exact fun b hb => hold.sized inst b hobject hb
        · have hcounted := hold.counted inst hobject (hlive hpos)
          push_cast
          omega
      · cases h
    · cases h
  | release t a =>
    simp only [step] at h
    split at h
    · next inst hobject =>
      split at h
      · next hpos =>
        obtain rfl := Option.some.inj h
        have hold := hsound.at_address a
        have hcounted := hold.counted inst hobject (hlive hpos)
        refine hsound.put_of_not_mem (hnot (by simp [hlive hpos])) ?_
        by_cases hlast : inst.retainCount1 = 0
        · have hone : s.references a - 1 = 0 := by omega
          rw [hobject] at hold
          rw [if_pos hlast, hone]
          refine hold.deallocating ?_ ?_ t
          · rfl
          · rfl
        · rw [if_neg hlast, hlive hpos]
          refine soundAt_live (fun b hb => hold.sized inst b hobject hb) ?_
          dsimp only
          omega
      · cases h
    · cases h
  | write t a =>
    simp only [step] at h
    split at h
    · next inst hobject =>
      split at h
      · next hstandard =>
        obtain rfl := Option.some.inj h
        have hold := hsound.at_address a
        have hmem : a ∉ s.reuseInvocations := hnot (by simp [hstandard.1])
        rw [hobject, hstandard.1] at hold
        refine hsound.put (List.nodup_cons.mpr ⟨hmem, hsound.nodup⟩)
          (fun b hb => by simp [hb]) ?_
        simpa using hold.written hstandard.2
      · cases h
    · cases h
  | free t a =>
    simp only [step] at h
    split at h
    · next hstatus =>
      obtain rfl := Option.some.inj h
      have hold := hsound.at_address a
      rw [hold.unreferenced (by simp [hstatus])]
      exact hsound.put_of_not_mem (hnot (by simp [hstatus])) soundAt_unused
    · cases h
  | deinitialize a =>
    simp only [step] at h
    split at h
    · next hmem =>
      obtain rfl := Option.some.inj h
      have hold := hsound.at_address a
      have hpooled := hold.pooled.mpr hmem
      rw [hold.unreferenced (by simp [hpooled])]
      refine hsound.put (hsound.nodup.erase a) (fun b hb => List.mem_erase_of_ne hb) ?_
      simpa [hsound.nodup.mem_erase_iff] using soundAt_unused
    · cases h

/-- A thread works with the invocation, or holds a reference to it. -/
def InUse (s : Invocations Thread Imp abi) (a : ℕ) : Prop :=
  s.status a ≠ .unused ∧ s.status a ≠ .pooled

end Invocations

/-- The address that an operation hands out to a thread. -/
def Operation.handsOut : Operation Thread Imp abi → Option ℕ
  | create _ _ _ a | allocate _ _ _ a | read _ a => some a
  | _ => none

namespace Invocations

variable [DecidableEq Thread] {s : Invocations Thread Imp abi}

/-- In every run. -/
theorem sound_of_run {extraBytes : ℕ → ℕ} {es : List Empty}
    (hrun : Machine.Run (Machine.silent (step extraBytes)) initial es s) : s.Sound :=
  hrun.invariant Sound (fun _ hsound hstep => sound_step hsound (Machine.silent_eq_some.mp hstep))
    initial_sound

/-- What is handed out is not in use, as it is unused or in the fifo. -/
theorem Sound.not_inUse {extraBytes : ℕ → ℕ} {op : Operation Thread Imp abi}
    {s' : Invocations Thread Imp abi} (hsound : s.Sound) (h : s.step extraBytes op = some s')
    {a : ℕ} (ha : op.handsOut = some a) : ¬ s.InUse a := by
  rintro ⟨hunused, hpooled⟩
  cases op with
  | create t creation sig b =>
    obtain rfl := Option.some.inj ha
    simp only [step] at h
    split at h
    · next hobject _ => exact hunused ((hsound.at_address b).unused.mpr hobject)
    · cases h
  | allocate t isSubclass extra b =>
    obtain rfl := Option.some.inj ha
    simp only [step] at h
    split at h
    · next hobject => exact hunused ((hsound.at_address b).unused.mpr hobject)
    · cases h
  | read t b =>
    obtain rfl := Option.some.inj ha
    simp only [step] at h
    split at h
    · next hmem => exact hpooled ((hsound.at_address b).pooled.mpr hmem)
    · cases h
  | recreate | use | retain | release | write | free | deinitialize => cases ha

/-- In every run, the fifo has invocations of the class `NSInvocation` with a standard size and
without a reference, and each of them once. No invocation is handed out while it is in use. One
that was taken from the fifo is what is created by an allocation. -/
theorem reuse_of_run {extraBytes : ℕ → ℕ} {es : List Empty}
    (hrun : Machine.Run (Machine.silent (step extraBytes)) initial es s) :
    (∀ a ∈ s.reuseInvocations, ∃ inst, s.object a = some inst ∧ inst.isSubclass = false ∧
      standardSize ≤ inst.extra.length ∧ s.references a = 0) ∧
    s.reuseInvocations.Nodup ∧
    (∀ op s', s.step extraBytes op = some s' → ∀ a, op.handsOut = some a → ¬ s.InUse a) ∧
    ∀ t sig a s', s.step extraBytes (.recreate t sig a) = some s' →
      s'.object a = some ((Instance.allocateObject false t standardSize).setStorage
        (extraBytes a) sig standardSize) ∧ s'.references a = 1 := by
  have hsound := sound_of_run hrun
  refine ⟨fun a hmem => ?_, hsound.nodup, fun op s' hstep a ha => hsound.not_inUse hstep ha, ?_⟩
  · have hat := hsound.at_address a
    have hpooled := hat.pooled.mpr hmem
    obtain ⟨inst, hobject⟩ : ∃ inst, s.object a = some inst := by
      refine Option.ne_none_iff_exists'.mp fun hnone => ?_
      rw [← hat.unused, hpooled] at hnone
      cases hnone
    obtain ⟨hclass, hlength⟩ := hat.standard inst hobject (.inl hpooled)
    exact ⟨inst, hobject, hclass, hlength.ge, hat.unreferenced (by simp [hpooled])⟩
  · intro t sig a s' hstep
    simp only [step] at hstep
    split at hstep
    · next inst size hobject hsize =>
      split at hstep
      · next htaken =>
        obtain rfl := Option.some.inj hstep
        obtain ⟨hclass, hlength⟩ := (hsound.at_address a).standard inst hobject
          (.inr ⟨t, htaken.1⟩)
        simp [put, Instance.setStorage, Instance.makeFresh, Instance.allocateObject, hclass,
          hlength, htaken.2]
      · cases hstep
    · cases hstep

end Invocations

/-- What a thread does to an invocation before it is put into the fifo. -/
def usedOnce : Usage Bool ℕ := ⟨false, true, true, some 9999, List.replicate 128 7⟩

set_option maxRecDepth 4000 in
/-- A thread uses an invocation with an implementation. Another one gets it from the fifo. -/
theorem implementation_not_reused :
    ∃ (s s' : Invocations Bool ℕ metaABI64) (es : List Empty),
      Machine.Run (Machine.silent (Invocations.step fun _ => 0)) Invocations.initial es s ∧
        s.step (fun _ => 0) (.recreate true fooMethodSignature 0) = some s' ∧
        (∀ inst, s.object 0 = some inst → inst.implementation = some 9999) ∧
        s'.object 0 = some ((Instance.allocateObject false true standardSize).setStorage 0
          fooMethodSignature standardSize) := by
  have hrun : ∃ (s s' : Invocations Bool ℕ metaABI64) (es : List Empty),
      Machine.Run (Machine.silent (Invocations.step fun _ => 0)) Invocations.initial es s ∧
        s.step (fun _ => 0) (.recreate true fooMethodSignature 0) = some s' ∧
        ∀ inst, s.object 0 = some inst → inst.implementation = some 9999 := by
    have hexec := Machine.run_of_exec (Machine.silent (Invocations.step fun _ => 0))
      (Invocations.initial : Invocations Bool ℕ metaABI64)
      [.create false (.withMethodSignature false) fooMethodSignature 0, .use usedOnce 0,
        .release false 0, .write false 0, .read true 0] rfl
    refine ⟨_, _, _, hexec, rfl, ?_⟩
    rintro inst hinst
    obtain rfl := Option.some.inj hinst
    rfl
  obtain ⟨s, s', es, hrun, hstep, himplementation⟩ := hrun
  obtain ⟨-, -, -, hfresh⟩ := Invocations.reuse_of_run hrun
  exact ⟨s, s', es, hrun, hstep, himplementation, (hfresh true _ 0 s' hstep).1⟩

end MulleObjC.Invocation
