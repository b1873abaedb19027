import MulleObjC.Invocation.Forward

/-!
# The bounds of the storage

The storage of an invocation begins at the first aligned address of its extra bytes. Its size
is what the signature asks for, the standard size, or what a frame of a given length needs.
The slots and the copy of a frame lie inside. The storage itself ends behind the extra bytes
if it does not begin with them, and a frame can be shorter than what is copied out of it.
-/

namespace MulleObjC.Invocation

/-- `NSMethodSignature`, of a method that can be variadic. Its arginfos are those of the named
parameters. -/
structure MethodSignature (abi : MetaABI) extends NSMethodSignature abi where
  isVariadic : Bool
  /-- The offsets and sizes of arginfos have 32 bits. -/
  invocationSize_lt : toNSMethodSignature.invocationSize < 2 ^ 32

/-- `NSInvocationStandardSize` -/
def standardSize : ℕ := 128

/-- What `_NSMethodSignatureSetMetaABIFrame` reads from a frame, and what it writes to the
storage. -/
structure FrameCopy where
  read : ℕ
  offset : ℕ
  written : ℕ
  deriving DecidableEq, Repr

namespace MethodSignature

variable {abi : MetaABI} (sig : MethodSignature abi)

/-- `-mulleInvocationSize` -/
def mulleInvocationSize : ℕ := if sig.isVariadic then 0 else sig.invocationSize % 2 ^ 32

theorem mulleInvocationSize_eq (h : sig.isVariadic = false) :
    sig.mulleInvocationSize = sig.invocationSize := by
  rw [mulleInvocationSize, h]
  exact Nat.mod_eq_of_lt sig.invocationSize_lt

/-- `-numberOfArguments` -/
def numberOfArguments : ℕ := sig.infos.length - 1

/-- `_NSMethodSignatureSetMetaABIFrame` -/
def setMetaABIFrame (frameLength : ℕ) : FrameCopy :=
  match sig.infos[3]? with
  | none => ⟨0, 0, 0⟩
  | some info =>
    match sig.paramType, sig.returnType with
    -- the frame is the pointer argument
    | .voidPointer, .voidPointer | .voidPointer, .void => ⟨0, info.invocationOffset, 8⟩
    | .voidPointer, .parameterBlock => ⟨8, info.invocationOffset, 8⟩
    | .void, _ => ⟨0, 0, 0⟩
    | .parameterBlock, _ =>
      let size := if frameLength = 0 then sig.copyLength else frameLength
      ⟨size, info.invocationOffset, size⟩

/-- The length of a frame that the signature knows, without target and selector. -/
def blockLength : ℕ := sig.frameLength - 16

/-- A frame of the length, or of one that the signature knows, is as long as the copy. -/
structure FrameFits (frameLength : ℕ) : Prop where
  block : frameLength = 0 → sig.paramType = .parameterBlock →
    sig.copyLength ≤ abi.sizeofUnion sig.blockLength
  pointer : sig.paramType = .voidPointer → sig.returnType = .parameterBlock →
    8 ≤ if frameLength = 0 then abi.sizeofUnion sig.blockLength else frameLength

end MethodSignature

/-- How an invocation is created. -/
inductive Creation
  /-- `+invocationWithMethodSignature:` of `NSInvocation` or of a subclass. -/
  | withMethodSignature (isSubclass : Bool)
  /-- `NSInvocationCreateWithMetaABIFrameAndLength` -/
  | withFrameAndLength (frameLength : ℕ)
  deriving DecidableEq, Repr

namespace Creation

variable {abi : MetaABI} (sig : MethodSignature abi)

/-- The number of extra bytes, which is also the distance of `_sentinel` to `_storage`. -/
def size : Creation → Option ℕ
  | withMethodSignature isSubclass =>
    if sig.mulleInvocationSize = 0 then none
    else if sig.mulleInvocationSize ≤ standardSize ∧ isSubclass = false then some standardSize
    else some sig.mulleInvocationSize
  | withFrameAndLength frameLength =>
    match sig.infos[3]? with
    | none => none
    | some info =>
      if frameLength = 0 ∨ sig.numberOfArguments < 3 then none
      else
        let needed := info.invocationOffset + frameLength + 8
        some (if sig.mulleInvocationSize < needed then needed else sig.mulleInvocationSize)

/-- A frame is copied with this length. A length of `0` is for methods that are not variadic. -/
def Copies (frameLength : ℕ) : Creation → Prop
  | withMethodSignature _ => frameLength = 0
  | withFrameAndLength n => frameLength = n ∨ frameLength = 0 ∧ sig.isVariadic = false

end Creation

/-- The storage that is set for extra bytes at an address. -/
structure Bounds where
  storage : ℕ
  sentinel : ℕ
  deriving DecidableEq, Repr

/-- `_NSInvocationSetStorage` -/
def setStorage (extraBytes size : ℕ) : Bounds :=
  ⟨alignUp extraBytes 8, alignUp extraBytes 8 + size⟩

/-- What is kept inside of what, for a storage in as many extra bytes. -/
structure InBounds {abi : MetaABI} (sig : MethodSignature abi) (creation : Creation)
    (extraBytes size : ℕ) : Prop where
  storage : extraBytes ≤ (setStorage extraBytes size).storage ∧
    (setStorage extraBytes size).sentinel ≤ extraBytes + size
  slots : sig.mulleInvocationSize ≠ 0 → ∀ info ∈ sig.infos, info.slotEnd ≤ size
  written : ∀ n, creation.Copies sig n →
    (sig.setMetaABIFrame n).offset + (sig.setMetaABIFrame n).written ≤ size
  read : ∀ n, creation.Copies sig n → (sig.setMetaABIFrame n).read ≤
    if n = 0 then abi.sizeofUnion sig.blockLength else n

variable {abi : MetaABI} {sig : MethodSignature abi} {creation : Creation} {size : ℕ}

/-- The storage begins with the extra bytes if they are aligned, and only then it ends with
them. -/
theorem setStorage_within_iff (extraBytes size : ℕ) :
    extraBytes ≤ (setStorage extraBytes size).storage ∧
      (setStorage extraBytes size).sentinel ≤ extraBytes + size ↔ 8 ∣ extraBytes := by
  unfold setStorage
  constructor
  · rintro ⟨hle, hend⟩
    have heq : alignUp extraBytes 8 = extraBytes := by
      dsimp only at hle hend
      omega
    rw [← heq]
    exact alignUp.dvd
  · intro hdvd
    rw [alignUp.eq_self (by omega) hdvd]
    exact ⟨Nat.le_refl _, Nat.le_refl _⟩

/-- Whatever the size comes from, it is enough for the slots that the signature knows. -/
theorem Creation.mulleInvocationSize_le (hsize : creation.size sig = some size) :
    sig.mulleInvocationSize ≤ size := by
  cases creation with
  | withMethodSignature isSubclass =>
    simp only [Creation.size] at hsize
    split at hsize
    · cases hsize
    · split at hsize
      · next hle =>
        obtain rfl := Option.some.inj hsize
        exact hle.1
      · exact (Option.some.inj hsize).le
  | withFrameAndLength n =>
    simp only [Creation.size] at hsize
    split at hsize
    · cases hsize
    · split at hsize
      · cases hsize
      · obtain rfl := Option.some.inj hsize
        split <;> omega

/-- The arginfo of the first parameter. -/
theorem NSMethodSignature.offset_of_infos_three {sig : NSMethodSignature abi} {info : TypeInfo}
    (h : sig.infos[3]? = some info) :
    info ∈ sig.args ∧ info.invocationOffset = 16 ∧ 0 < info.naturalSize := by
  rw [sig.infos_three] at h
  have hmem := List.mem_of_mem_head? (Option.mem_def.mpr h)
  exact ⟨hmem, sig.args_offset info (Option.mem_def.mpr h), sig.args_pos info hmem⟩

/-- A frame of a given length has room behind the selector, and some more. -/
theorem Creation.needed_le {n : ℕ} (hsize : (withFrameAndLength n).size sig = some size) :
    n ≠ 0 ∧ 16 + n + 8 ≤ size := by
  simp only [Creation.size] at hsize
  split at hsize
  · cases hsize
  · next info hinfo =>
    obtain ⟨-, hoffset, -⟩ := NSMethodSignature.offset_of_infos_three hinfo
    split at hsize
    · cases hsize
    · next hnot =>
      obtain rfl := Option.some.inj hsize
      refine ⟨fun hzero => hnot (.inl hzero), ?_⟩
      split <;> omega

/-- There is room for a pointer behind the selector, and for the copy that the signature
knows. -/
theorem Creation.room (hsize : creation.size sig = some size) {info : TypeInfo}
    (hinfo : sig.infos[3]? = some info) :
    16 + 8 ≤ size ∧ (sig.isVariadic = false → 16 + sig.copyLength ≤ size) := by
  obtain ⟨hmem, hoffset, hpos⟩ := NSMethodSignature.offset_of_infos_three hinfo
  have hend := sig.slotEnd_le (sig.args_mem hmem)
  have hunion := abi.le_sizeofUnion sig.frameLength
  have hle := mulleInvocationSize_le hsize
  have hknown (h : sig.isVariadic = false) :
      abi.sizeofUnion sig.frameLength + sig.rval.naturalSize + 8 ≤ size := by
    rw [sig.mulleInvocationSize_eq h] at hle
    exact hle
  unfold TypeInfo.slotEnd at hend
  refine ⟨?_, fun h => ?_⟩
  · cases hvariadic : sig.isVariadic with
    | false =>
      have := hknown hvariadic
      omega
    | true =>
      cases creation with
      | withMethodSignature isSubclass =>
        simp [Creation.size, MethodSignature.mulleInvocationSize, hvariadic] at hsize
      | withFrameAndLength n =>
        obtain ⟨hn, hneeded⟩ := needed_le hsize
        omega
  · have := hknown h
    have hcopy : sig.copyLength = abi.sizeofUnion sig.frameLength - (8 + abi.sizeofSEL) := rfl
    omega

/-- A frame is copied to the storage. -/
theorem written_le (hsize : creation.size sig = some size) {n : ℕ}
    (hcopies : creation.Copies sig n) :
    (sig.setMetaABIFrame n).offset + (sig.setMetaABIFrame n).written ≤ size := by
  unfold MethodSignature.setMetaABIFrame
  split
  · exact Nat.zero_le _
  · next info hinfo =>
    obtain ⟨hpointer, hcopy⟩ := Creation.room hsize hinfo
    have hoffset := (NSMethodSignature.offset_of_infos_three hinfo).2.1
    have hblock : 16 + (if n = 0 then sig.copyLength else n) ≤ size := by
      cases creation with
      | withMethodSignature isSubclass =>
        obtain rfl : n = 0 := hcopies
        refine hcopy ?_
        cases hvariadic : sig.isVariadic with
        | false => rfl
        | true => simp [Creation.size, MethodSignature.mulleInvocationSize, hvariadic] at hsize
      | withFrameAndLength k =>
        obtain ⟨hk, hneeded⟩ := Creation.needed_le hsize
        rcases hcopies with rfl | ⟨rfl, hvariadic⟩
        · rw [if_neg hk]
          omega
        · exact hcopy hvariadic
    rw [hoffset]
    split
    · exact hpointer
    · exact hpointer
    · exact hpointer
    · exact Nat.zero_le _
    · exact hblock

/-- Where it does not write, setting a frame leaves the storage alone. -/
theorem NSInvocation.storage_of_setMetaABIFrame
    {inv inv' : NSInvocation sig.toNSMethodSignature} {frame : Frame sig.toNSMethodSignature}
    (h : inv.setMetaABIFrame frame = .ok inv') {i : ℕ}
    (hi : i < (sig.setMetaABIFrame 0).offset ∨
      (sig.setMetaABIFrame 0).offset + (sig.setMetaABIFrame 0).written ≤ i) :
    inv'.storage i = inv.storage i := by
  have hinfo : sig.paramType ≠ .void → ∃ a, sig.infos[3]? = some a ∧
      sig.argumentsPointer = .ok a.invocationOffset := by
    intro hparam
    have hargs : sig.args ≠ [] := fun hnil => hparam (sig.paramType_void.mpr hnil)
    obtain ⟨a, as, hcons⟩ := List.exists_cons_of_ne_nil hargs
    have ha : sig.infos[3]? = some a := by rw [sig.infos_three, hcons]; rfl
    exact ⟨a, ha, by rw [NSMethodSignature.argumentsPointer, ha]⟩
  unfold MethodSignature.setMetaABIFrame at hi
  unfold NSInvocation.setMetaABIFrame at h
  cases hparam : sig.paramType with
  | void =>
    rw [hparam] at h
    obtain rfl : inv = inv' := by
      cases hr : sig.returnType <;> simpa [hr, pure, Except.pure] using h
    rfl
  | voidPointer =>
    obtain ⟨a, ha, hpointer⟩ := hinfo (by simp [hparam])
    have hbytes := frame.length_pointer
    have hlength : sig.returnType ≠ .parameterBlock → frame.bytes.length = 8 :=
      fun hreturn => hbytes (by simp [NSMethodSignature.UsesBlock, hparam, hreturn])
    rw [hparam] at h hi
    rw [ha] at hi
    rw [hpointer] at h
    cases hreturn : sig.returnType with
    | voidPointer | void =>
      rw [hreturn] at h hi
      obtain rfl := Except.ok.inj h
      refine Memory.write_of_lt_or_le ?_
      rw [hlength (by simp [hreturn])]
      exact hi
    | parameterBlock =>
      rw [hreturn] at h hi
      obtain rfl := Except.ok.inj h
      refine Memory.write_of_lt_or_le ?_
      rw [Memory.length_read]
      exact hi
  | parameterBlock =>
    obtain ⟨a, ha, hpointer⟩ := hinfo (by simp [hparam])
    rw [hparam] at h hi
    rw [ha] at hi
    rw [hpointer] at h
    simp only [bind, Except.bind] at h
    split at h
    · obtain rfl := Except.ok.inj h
      refine Memory.write_of_lt_or_le ?_
      rw [Memory.length_read]
      exact hi
    · cases h

/-- A frame is as long as the copy. -/
theorem MethodSignature.read_le_iff (sig : MethodSignature abi) (n : ℕ) :
    ((sig.setMetaABIFrame n).read ≤
      if n = 0 then abi.sizeofUnion sig.blockLength else n) ↔ sig.FrameFits n := by
  unfold setMetaABIFrame
  cases hparam : sig.paramType with
  | void =>
    have hnone : sig.infos[3]? = none := by
      rw [sig.infos_three, sig.paramType_void.mp hparam]
      rfl
    rw [hnone]
    exact ⟨fun _ => ⟨by simp [hparam], by simp [hparam]⟩, fun _ => Nat.zero_le _⟩
  | voidPointer =>
    obtain ⟨a, hargs, -⟩ := sig.paramType_voidPointer hparam
    have hinfo : sig.infos[3]? = some a := by rw [sig.infos_three, hargs]; rfl
    rw [hinfo]
    cases hreturn : sig.returnType with
    | voidPointer | void =>
      exact ⟨fun _ => ⟨by simp [hparam], by simp [hreturn]⟩, fun _ => Nat.zero_le _⟩
    | parameterBlock =>
      exact ⟨fun hread => ⟨by simp [hparam], fun _ _ => hread⟩, fun h => h.pointer hparam hreturn⟩
  | parameterBlock =>
    have hargs : sig.args ≠ [] := fun hnil => by simp [sig.paramType_void.mpr hnil] at hparam
    obtain ⟨a, as, hcons⟩ := List.exists_cons_of_ne_nil hargs
    have hinfo : sig.infos[3]? = some a := by rw [sig.infos_three, hcons]; rfl
    rw [hinfo]
    dsimp only
    by_cases hn : n = 0
    · rw [if_pos hn, if_pos hn]
      exact ⟨fun hread => ⟨fun _ _ => hread, by simp [hparam]⟩, fun h => h.block hn hparam⟩
    · rw [if_neg hn, if_neg hn]
      exact ⟨fun _ => ⟨fun hzero => absurd hzero hn, by simp [hparam]⟩, fun _ => Nat.le_refl _⟩

/-- The slots, the copy of a frame and the storage are inside of what they belong to, if and
only if the extra bytes are aligned and the frame is not shorter than the copy. -/
theorem inBounds_iff (hsize : creation.size sig = some size) (extraBytes : ℕ) :
    InBounds sig creation extraBytes size ↔
      8 ∣ extraBytes ∧ ∀ n, creation.Copies sig n → sig.FrameFits n := by
  have hslots (h : sig.mulleInvocationSize ≠ 0) : ∀ info ∈ sig.infos, info.slotEnd ≤ size := by
    have hvariadic : sig.isVariadic = false := by
      cases hv : sig.isVariadic with
      | false => rfl
      | true => simp [MethodSignature.mulleInvocationSize, hv] at h
    have hle := Creation.mulleInvocationSize_le hsize
    rw [sig.mulleInvocationSize_eq hvariadic] at hle
    exact fun info hinfo => (sig.slotEnd_le_invocationSize hinfo).trans hle
  constructor
  · intro h
    exact ⟨(setStorage_within_iff extraBytes size).mp h.storage,
      fun n hcopies => (sig.read_le_iff n).mp (h.read n hcopies)⟩
  · rintro ⟨hdvd, hfits⟩
    exact ⟨(setStorage_within_iff extraBytes size).mpr hdvd, hslots, fun n => written_le hsize,
      fun n hcopies => (sig.read_le_iff n).mpr (hfits n hcopies)⟩

/-- `- (struct { long a; long b; }) foo:(id) argument` -/
def fooMethodSignature : MethodSignature metaABI64 where
  toNSMethodSignature := fooSignature (.struct [longType, longType]) (by decide)
  isVariadic := false
  invocationSize_lt := by decide

/-- The standard size is enough for the method, and its frame for the pointer argument. -/
theorem foo_inBounds : InBounds fooMethodSignature (.withMethodSignature false) 64 128 := by
  refine (inBounds_iff rfl 64).mpr ⟨by decide, ?_⟩
  rintro n rfl
  exact ⟨fun _ hparam => (by cases hparam), fun _ _ => by decide⟩

/-- `- (void) foo:(long) a b:(long) b c:(long) c d:(long) d e:(long) e` -/
def fiveLongs : MethodSignature metaABI64 where
  paramType := .parameterBlock
  returnType := .void
  rval := ⟨80, .scalar ⟨0, 0, Scalar.void_aligned⟩⟩
  self := ⟨0, .retainId⟩
  cmd := ⟨8, selectorType⟩
  args := [⟨16, longType⟩, ⟨24, longType⟩, ⟨32, longType⟩, ⟨40, longType⟩, ⟨48, longType⟩]
  self_offset := TypeInfo.target_offset
  self_size := TypeInfo.target_size
  cmd_offset := TypeInfo.selector_offset
  cmd_size := TypeInfo.selector_size
  args_offset := by simp
  args_ordered := by simp [TypeInfo.slotEnd, TypeInfo.naturalSize, selectorType, longType, Ty.size]
  args_pos := by simp [TypeInfo.naturalSize, longType, Ty.size]
  rval_offset := by decide
  rval_end := by decide
  paramType_void := by simp
  paramType_voidPointer := by simp
  returnType_voidPointer := by simp
  returnType_block := by simp
  isVariadic := false
  invocationSize_lt := by decide

/-- Five numbers have 40 bytes, and 68 are copied. In extra bytes that are not aligned, the
storage ends behind them. -/
theorem fiveLongs_not_inBounds :
    (Creation.withMethodSignature false).size fiveLongs = some 128 ∧
      fiveLongs.blockLength = 40 ∧ metaABI64.sizeofUnion 40 = 40 ∧
      (fiveLongs.setMetaABIFrame 0).read = 68 ∧ (setStorage 4 128).sentinel = 4 + 128 + 4 ∧
      ¬ InBounds fiveLongs (.withMethodSignature false) 64 128 ∧
      ¬ InBounds fooMethodSignature (.withMethodSignature false) 4 128 := by
  refine ⟨by decide, by decide, by decide, by decide, by decide, fun h => ?_, fun h => ?_⟩
  · exact absurd (h.read 0 rfl) (by decide)
  · exact absurd h.storage (by decide)

end MulleObjC.Invocation
