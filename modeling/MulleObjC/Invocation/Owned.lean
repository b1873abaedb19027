import MulleObjC.Invocation.Walk
import MulleObjC.Invocation.Slots

/-!
# Owned members

Which slots of an invocation own what they hold, and the passes over them that take and
give up references. A pass over the members derives what to do from their contents. As
members do not overlap, the references that a pass takes are those that the members hold
afterwards.
-/

namespace MulleObjC.Invocation

/-- What is owned. -/
inductive Resource
  | object
  | string
  deriving DecidableEq, Repr

/-- What is owned by a member. -/
def Owned.resource : Owned → Resource
  | retainId | copyId => .object
  | charPtr => .string

/-- References that are taken and given up. -/
inductive Event
  /-- `retain`, `copy` or a duplicate of a string. -/
  | acquired (r : Resource) (p : List UInt8)
  /-- `release` or `mulle_allocator_free`. -/
  | released (r : Resource) (p : List UInt8)
  deriving DecidableEq, Repr

/-- The members of an argument that `-retainArguments` and `-_releaseArguments` work on. -/
def TypeInfo.ownedMembers (info : TypeInfo) : Walk :=
  match info.type with
  | .array _ _ | .struct _ | .union _ =>
    if info.type.hasRetainable then info.type.walk 0 else ⟨[], some 0⟩
  | .retainId => ⟨[⟨.retainId, 0⟩], some 8⟩
  | .copyId => ⟨[⟨.copyId, 0⟩], some 8⟩
  | .charPtr => ⟨[⟨.charPtr, 0⟩], some 8⟩
  | .scalar _ | .cls | .assignId => ⟨[], some 0⟩

/-- Where they are in the storage. -/
def TypeInfo.slotMembers (info : TypeInfo) : List Member :=
  info.ownedMembers.members.map fun m => ⟨m.kind, info.invocationOffset + m.offset⟩

/-- The members of some arguments, up to the one that throws. -/
def ownedMembersOf : List TypeInfo → List Member
  | [] => []
  | info :: infos =>
    info.slotMembers ++ if info.ownedMembers.offset.isSome then ownedMembersOf infos else []

/-- Some of the arguments throws. -/
def anyThrows (infos : List TypeInfo) : Bool :=
  infos.any fun info => info.ownedMembers.offset.isNone

/-- The results of copies and duplicates, by how many there were before. -/
structure Copies where
  copy : ℕ → List UInt8 → List UInt8
  length_copy : ∀ n p, (copy n p).length = 8

/-- The storage, and how many copies were made. -/
structure Heap where
  storage : Memory UInt8
  copies : ℕ

variable (copies : Copies)

/-- `retain`, `copy` or duplicate what a member holds. -/
def Member.retain (m : Member) (h : Heap) : Event × Heap :=
  let p := h.storage.read m.offset 8
  match m.kind with
  | .retainId => (.acquired .object p, h)
  | .copyId | .charPtr =>
    let dup := copies.copy h.copies p
    (.acquired m.kind.resource dup, ⟨h.storage.write m.offset dup, h.copies + 1⟩)

/-- `release` or free what a member holds. -/
def Member.release (m : Member) (storage : Memory UInt8) : Event :=
  .released m.kind.resource (storage.read m.offset 8)

/-- A pass that takes references. -/
def retainAll : List Member → Heap → List Event × Heap
  | [], h => ([], h)
  | m :: ms, h =>
    let (e, h) := m.retain copies h
    let (es, h) := retainAll ms h
    (e :: es, h)

/-- A pass that gives up references. -/
def releaseAll (ms : List Member) (storage : Memory UInt8) : List Event :=
  ms.map fun m => m.release storage

/-- The number of members that hold a reference. -/
def holding (r : Resource) (p : List UInt8) (ms : List Member) (storage : Memory UInt8) : ℕ :=
  ms.countP fun m => m.kind.resource = r ∧ storage.read m.offset 8 = p

section Passes

variable {copies} {ms : List Member} {storage storage' : Memory UInt8} {r : Resource}
  {p : List UInt8}

theorem Member.retain_event (copies : Copies) (m : Member) (h : Heap) : (m.retain copies h).1 =
    .acquired m.kind.resource ((m.retain copies h).2.storage.read m.offset 8) := by
  unfold Member.retain
  cases hkind : m.kind with
  | retainId => rfl
  | copyId | charPtr => simp [Memory.read_write_of_length (copies.length_copy _ _)]

/-- Taking a reference changes the member only. -/
theorem Member.read_retain {m : Member} {h : Heap} {q k : ℕ}
    (hapart : Memory.Apart m.offset 8 q k) :
    (m.retain copies h).2.storage.read q k = h.storage.read q k := by
  unfold Member.retain
  cases m.kind with
  | retainId => rfl
  | copyId | charPtr =>
    exact Memory.read_write_of_apart (by rwa [copies.length_copy])

/-- A pass changes its members only. -/
theorem read_retainAll {h : Heap} {q k : ℕ}
    (hapart : ∀ m ∈ ms, Memory.Apart m.offset 8 q k) :
    (retainAll copies ms h).2.storage.read q k = h.storage.read q k := by
  induction ms generalizing h with
  | nil => rfl
  | cons m ms ih =>
    obtain ⟨hm, hms⟩ := List.forall_mem_cons.mp hapart
    exact (ih hms).trans (Member.read_retain hm)

/-- The references that a pass takes are those that its members hold then. -/
theorem countP_retainAll (hordered : ms.Pairwise fun m m' => m.offset + 8 ≤ m'.offset)
    (h : Heap) :
    (retainAll copies ms h).1.countP (· = .acquired r p) =
      holding r p ms (retainAll copies ms h).2.storage := by
  induction ms generalizing h with
  | nil => rfl
  | cons m ms ih =>
    obtain ⟨hm, hms⟩ := List.pairwise_cons.mp hordered
    have hstays : (retainAll copies ms (m.retain copies h).2).2.storage.read m.offset 8 =
        (m.retain copies h).2.storage.read m.offset 8 :=
      read_retainAll fun m' hm' => .inr (hm m' hm')
    have hevent := m.retain_event copies h
    have htail := ih hms (m.retain copies h).2
    simp only [holding] at htail ⊢
    simp only [retainAll, List.countP_cons, htail, hevent, hstays, Event.acquired.injEq,
      decide_eq_true_eq]

theorem countP_released_retainAll (h : Heap) :
    (retainAll copies ms h).1.countP (· = .released r p) = 0 := by
  induction ms generalizing h with
  | nil => rfl
  | cons m ms ih =>
    simp [retainAll, m.retain_event, ih]

theorem countP_releaseAll :
    (releaseAll ms storage).countP (· = .released r p) = holding r p ms storage := by
  unfold releaseAll holding
  rw [List.countP_map]
  refine List.countP_congr fun m _ => ?_
  simp [Member.release]

theorem countP_acquired_releaseAll :
    (releaseAll ms storage).countP (· = .acquired r p) = 0 := by
  simp [releaseAll, Member.release, List.countP_map]

/-- Members that keep their contents keep their references. -/
theorem holding_congr
    (h : ∀ m ∈ ms, storage'.read m.offset 8 = storage.read m.offset 8) :
    holding r p ms storage' = holding r p ms storage := by
  refine List.countP_congr fun m hm => ?_
  rw [h m hm]

end Passes

namespace TypeInfo

/-- Arguments are walked, except for those that own nothing. -/
theorem ownedMembers_eq (info : TypeInfo) :
    info.ownedMembers = info.type.walk 0 ∨ info.ownedMembers = ⟨[], some 0⟩ := by
  unfold ownedMembers
  cases info.type with
  | array _ _ | struct _ | union _ =>
    dsimp only
    split
    · exact .inl rfl
    · exact .inr rfl
  | retainId | copyId | charPtr => exact .inl rfl
  | scalar _ | cls | assignId => exact .inr rfl

/-- All owned members of an argument lie in its slot and do not overlap. -/
theorem ownedMembers_fits (info : TypeInfo) : info.ownedMembers.Fits 0 info.naturalSize := by
  rcases info.ownedMembers_eq with hwalk | hnone
  · have hfits := info.type.walk_fits 0
    rw [alignUp.eq_self info.type.alignment_pos (Nat.dvd_zero _), Nat.zero_add] at hfits
    rw [hwalk]
    exact hfits
  · rw [hnone]
    exact Walk.fits_nil (Nat.zero_le _)

/-- Without a union of retainable types, nothing is thrown. -/
theorem ownedMembers_isSome {info : TypeInfo} (h : info.type.hasOwnedUnion = false) :
    info.ownedMembers.offset.isSome = true := by
  rcases info.ownedMembers_eq with hwalk | hnone
  · obtain ⟨o, ho⟩ := info.type.walk_offset h 0
    rw [hwalk, ho]
    rfl
  · rw [hnone]
    rfl

theorem slotMembers_within {info : TypeInfo} {m : Member} (hm : m ∈ info.slotMembers) :
    info.invocationOffset ≤ m.offset ∧ m.offset + 8 ≤ info.slotEnd := by
  obtain ⟨m', hm', rfl⟩ := List.mem_map.mp hm
  have hwithin := (info.ownedMembers_fits.within m' hm').2
  unfold slotEnd
  exact ⟨Nat.le_add_right _ _, by dsimp only; omega⟩

theorem slotMembers_ordered (info : TypeInfo) :
    info.slotMembers.Pairwise fun m m' => m.offset + 8 ≤ m'.offset := by
  refine List.pairwise_map.mpr (info.ownedMembers_fits.ordered.imp fun h => ?_)
  dsimp only
  omega

end TypeInfo

/-- A member of some arguments lies in the slot of one of them. -/
theorem exists_slot_of_mem {infos : List TypeInfo} {m : Member} (hm : m ∈ ownedMembersOf infos) :
    ∃ info ∈ infos, info.invocationOffset ≤ m.offset ∧ m.offset + 8 ≤ info.slotEnd := by
  induction infos with
  | nil => cases hm
  | cons info infos ih =>
    rcases List.mem_append.mp hm with hm | hm
    · exact ⟨info, List.mem_cons_self, TypeInfo.slotMembers_within hm⟩
    · split at hm
      · obtain ⟨info', hmem, hslot⟩ := ih hm
        exact ⟨info', List.mem_cons_of_mem _ hmem, hslot⟩
      · cases hm

/-- The members of arguments that are laid out one behind the other do not overlap. -/
theorem ownedMembersOf_ordered {infos : List TypeInfo}
    (h : infos.Pairwise fun a b => a.slotEnd ≤ b.invocationOffset) :
    (ownedMembersOf infos).Pairwise fun m m' => m.offset + 8 ≤ m'.offset := by
  induction infos with
  | nil => exact .nil
  | cons info infos ih =>
    obtain ⟨hfirst, hrest⟩ := List.pairwise_cons.mp h
    unfold ownedMembersOf
    split
    · refine List.pairwise_append.mpr ⟨info.slotMembers_ordered, ih hrest, fun m hm m' hm' => ?_⟩
      obtain ⟨info', hmem, hle, -⟩ := exists_slot_of_mem hm'
      exact ((TypeInfo.slotMembers_within hm).2.trans (hfirst info' hmem)).trans hle
    · rw [List.append_nil]
      exact info.slotMembers_ordered

theorem anyThrows_eq_false {infos : List TypeInfo}
    (h : ∀ info ∈ infos, info.type.hasOwnedUnion = false) : anyThrows infos = false := by
  refine List.any_eq_false.mpr fun info hinfo => ?_
  have hsome := TypeInfo.ownedMembers_isSome (h info hinfo)
  simp [Option.isSome_iff_ne_none.mp hsome]

namespace NSMethodSignature

variable {abi : MetaABI} (sig : NSMethodSignature abi)

/-- The members that `-retainArguments` takes references for. -/
def ownedArguments : List Member := ownedMembersOf sig.allArguments

/-- The members that `-mulleRetainReturnValue` takes references for. -/
def ownedReturnValue : List Member := ownedMembersOf [sig.rval]

theorem ownedArguments_ordered :
    sig.ownedArguments.Pairwise fun m m' => m.offset + 8 ≤ m'.offset :=
  ownedMembersOf_ordered sig.allArguments_ordered

theorem ownedReturnValue_ordered :
    sig.ownedReturnValue.Pairwise fun m m' => m.offset + 8 ≤ m'.offset :=
  ownedMembersOf_ordered (List.pairwise_singleton _ _)

/-- The members of the arguments lie in front of the slot for the return value. -/
theorem ownedArguments_le {m : Member} (hm : m ∈ sig.ownedArguments) :
    m.offset + 8 ≤ sig.rval.invocationOffset := by
  obtain ⟨info, hinfo, -, hle⟩ := exists_slot_of_mem hm
  exact hle.trans (sig.slotEnd_le_rval hinfo)

theorem ownedReturnValue_ge {m : Member} (hm : m ∈ sig.ownedReturnValue) :
    sig.rval.invocationOffset ≤ m.offset := by
  obtain ⟨info, hinfo, hle, -⟩ := exists_slot_of_mem hm
  rwa [List.mem_singleton.mp hinfo] at hle

end NSMethodSignature

end MulleObjC.Invocation
