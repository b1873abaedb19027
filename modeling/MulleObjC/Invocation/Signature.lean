import MulleObjC.Invocation.Types

/-!
# Method signatures

A signature says how a method gets its parameters and returns its result, and where an
invocation keeps them. The offsets are the runtime's. It lays out the target, the
selector and the arguments one behind the other, and the return value behind all of them.
-/

namespace MulleObjC.Invocation

/-- What the MetaABI of the runtime fixes. -/
structure MetaABI where
  /-- `mulle_metaabi_sizeof_union` -/
  sizeofUnion : ℕ → ℕ
  le_sizeofUnion : ∀ n, n ≤ sizeofUnion n
  /-- `sizeof( SEL)` -/
  sizeofSEL : ℕ
  sizeofSEL_pos : 0 < sizeofSEL
  sizeofSEL_le : sizeofSEL ≤ 8

/-- Unions have the size of a multiple of five pointers. -/
def metaABI64 : MetaABI where
  sizeofUnion n := (n + 39) / 40 * 40
  le_sizeofUnion n := by omega
  sizeofSEL := 4
  sizeofSEL_pos := by decide
  sizeofSEL_le := by decide

/-- `MulleObjCMetaABIType` -/
inductive MetaABIType
  | voidPointer
  | void
  | parameterBlock
  deriving DecidableEq, Repr

/-- The type of a selector. -/
def selectorType : Ty := .scalar ⟨4, 2, Nat.dvd_refl 4⟩

/-- The type of a `long`. -/
def longType : Ty := .scalar ⟨8, 3, Nat.dvd_refl 8⟩

/-- `MulleObjCMethodSignatureTypeInfo` -/
structure TypeInfo where
  invocationOffset : ℕ
  type : Ty

namespace TypeInfo

/-- The size of the slot. -/
def naturalSize (info : TypeInfo) : ℕ := info.type.size

/-- The end of the slot. -/
def slotEnd (info : TypeInfo) : ℕ := info.invocationOffset + info.naturalSize

/-! Where the runtime lays out the target and the selector. -/

theorem target_offset : (⟨0, .retainId⟩ : TypeInfo).invocationOffset = 0 := rfl

theorem target_size : (⟨0, .retainId⟩ : TypeInfo).naturalSize = 8 := rfl

theorem selector_offset : (⟨8, selectorType⟩ : TypeInfo).invocationOffset = 8 := rfl

theorem selector_size :
    (⟨8, selectorType⟩ : TypeInfo).naturalSize = metaABI64.sizeofSEL := rfl

end TypeInfo

/-- `NSMethodSignature`, of a method that is not variadic. -/
structure NSMethodSignature (abi : MetaABI) where
  paramType : MetaABIType
  returnType : MetaABIType
  rval : TypeInfo
  self : TypeInfo
  cmd : TypeInfo
  args : List TypeInfo
  self_offset : self.invocationOffset = 0
  self_size : self.naturalSize = 8
  cmd_offset : cmd.invocationOffset = 8
  cmd_size : cmd.naturalSize = abi.sizeofSEL
  /-- The parameter block begins behind two pointers. -/
  args_offset : ∀ a ∈ args.head?, a.invocationOffset = 16
  args_ordered : (cmd :: args).Pairwise fun a b => a.slotEnd ≤ b.invocationOffset
  args_pos : ∀ a ∈ args, 0 < a.naturalSize
  rval_offset :
    abi.sizeofUnion ((cmd :: args).getLast (List.cons_ne_nil _ _)).slotEnd ≤ rval.invocationOffset
  rval_end : rval.slotEnd ≤
    abi.sizeofUnion ((cmd :: args).getLast (List.cons_ne_nil _ _)).slotEnd + rval.naturalSize + 8
  paramType_void : paramType = .void ↔ args = []
  paramType_voidPointer : paramType = .voidPointer → ∃ a, args = [a] ∧ a.naturalSize ≤ 8
  returnType_voidPointer : returnType = .voidPointer → rval.naturalSize ≤ 8
  returnType_block : returnType = .parameterBlock → 0 < rval.naturalSize

namespace NSMethodSignature

variable {abi : MetaABI} (sig : NSMethodSignature abi)

/-- `_infos` -/
def infos : List TypeInfo := sig.rval :: sig.self :: sig.cmd :: sig.args

@[simp] theorem infos_zero : sig.infos[0]? = some sig.rval := rfl

@[simp] theorem infos_one : sig.infos[1]? = some sig.self := rfl

@[simp] theorem infos_two : sig.infos[2]? = some sig.cmd := rfl

/-- The target, the selector and the arguments. -/
def allArguments : List TypeInfo := sig.self :: sig.cmd :: sig.args

theorem self_mem : sig.self ∈ sig.allArguments := by simp [allArguments]

theorem cmd_mem : sig.cmd ∈ sig.allArguments := by simp [allArguments]

theorem args_mem {a : TypeInfo} (ha : a ∈ sig.args) : a ∈ sig.allArguments := by
  simp [allArguments, ha]

/-- The last of the `_infos`. -/
def last : TypeInfo := (sig.cmd :: sig.args).getLast (List.cons_ne_nil _ _)

/-- `-frameLength` -/
def frameLength : ℕ := sig.last.slotEnd

/-- `-mulleInvocationSize`, with the size of the aligned union, of the return value and
`alignof( double)`. -/
def invocationSize : ℕ := abi.sizeofUnion sig.frameLength + sig.rval.naturalSize + 8

/-- The arguments lie behind the selector. -/
theorem args_ge {a : TypeInfo} (ha : a ∈ sig.args) : 16 ≤ a.invocationOffset := by
  have hordered := (List.pairwise_cons.mp sig.args_ordered).2
  cases hargs : sig.args with
  | nil => simp [hargs] at ha
  | cons b bs =>
    have hb : b.invocationOffset = 16 := sig.args_offset b (by simp [hargs])
    rw [hargs] at ha hordered
    rcases List.mem_cons.mp ha with rfl | hmem
    · omega
    · have h := (List.pairwise_cons.mp hordered).1 a hmem
      unfold TypeInfo.slotEnd at h
      omega

/-- Every slot but the one for the return value ends before the last one does. -/
theorem slotEnd_le {a : TypeInfo} (ha : a ∈ sig.allArguments) :
    a.slotEnd ≤ sig.frameLength := by
  have hlast {b : TypeInfo} (hb : b ∈ sig.cmd :: sig.args) : b.slotEnd ≤ sig.frameLength := by
    have hsplit := List.dropLast_append_getLast (List.cons_ne_nil sig.cmd sig.args)
    rw [← hsplit] at hb
    have hordered := sig.args_ordered
    rw [← hsplit] at hordered
    rcases List.mem_append.mp hb with hb | hb
    · have hle := (List.pairwise_append.mp hordered).2.2 b hb _ List.mem_cons_self
      unfold frameLength TypeInfo.slotEnd last at *
      omega
    · rw [List.mem_singleton.mp hb]
      exact Nat.le_refl _
  rcases List.mem_cons.mp ha with rfl | hmem
  · have hcmd := hlast List.mem_cons_self
    have := sig.self_offset
    have := sig.self_size
    have := sig.cmd_offset
    unfold TypeInfo.slotEnd at *
    omega
  · exact hlast hmem

/-- The slot for the return value lies behind all others. -/
theorem slotEnd_le_rval {a : TypeInfo} (ha : a ∈ sig.allArguments) :
    a.slotEnd ≤ sig.rval.invocationOffset :=
  (sig.slotEnd_le ha).trans ((abi.le_sizeofUnion _).trans sig.rval_offset)

/-- Every slot lies inside of the invocation. -/
theorem slotEnd_le_invocationSize {info : TypeInfo} (h : info ∈ sig.infos) :
    info.slotEnd ≤ sig.invocationSize := by
  rcases List.mem_cons.mp h with rfl | hmem
  · exact sig.rval_end
  · have hle := sig.slotEnd_le hmem
    have hunion := abi.le_sizeofUnion sig.frameLength
    unfold invocationSize
    omega

/-- The target, the selector and the arguments lie behind each other. -/
theorem allArguments_ordered :
    sig.allArguments.Pairwise fun a b => a.slotEnd ≤ b.invocationOffset := by
  refine List.pairwise_cons.mpr ⟨fun a ha => ?_, sig.args_ordered⟩
  have hself : sig.self.slotEnd = 8 := by
    unfold TypeInfo.slotEnd
    rw [sig.self_offset, sig.self_size]
  rw [hself]
  rcases List.mem_cons.mp ha with rfl | hmem
  · exact sig.cmd_offset.ge
  · have hge := sig.args_ge hmem
    omega

/-- The slots share no bytes. -/
theorem infos_apart : sig.infos.Pairwise fun a b =>
    a.slotEnd ≤ b.invocationOffset ∨ b.slotEnd ≤ a.invocationOffset :=
  List.pairwise_cons.mpr ⟨fun _ hb => .inr (sig.slotEnd_le_rval hb),
    sig.allArguments_ordered.imp .inl⟩

/-- Without parameters there is no arginfo for one. -/
theorem infos_three : sig.infos[3]? = sig.args.head? := by
  cases hargs : sig.args with
  | nil => simp [infos, hargs]
  | cons a as => simp [infos, hargs]

end NSMethodSignature

end MulleObjC.Invocation
