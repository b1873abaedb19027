import Mathlib.Data.List.Pairwise
import Mathlib.Data.Option.Basic
import Mathlib.Logic.Function.Basic
import MulleObjC.Library.Blocks
import MulleObjC.Library.Machine

/-!
# Instance variables by their ids

`_MulleObjCObjectSetIvar` and `_MulleObjCObjectGetIvar` copy bytes to and from an instance, at the
offset that the runtime finds for an id. What instances are for is to be records: each instance
variable is what it was set to, and nobody else is concerned.
-/

namespace MulleObjC.Ivar

open Memory Machine

/-- A `struct _mulle_objc_ivar`, with what its signature says. -/
structure RawIvar where
  ivarid : BitVec 32
  /-- `-1` is a hashed offset. -/
  offset : ℤ
  size : ℕ
  align : ℕ
  deriving DecidableEq, Repr

/-- The place in an instance, if there is one. -/
def RawIvar.block (i : RawIvar) (self : ℕ) : Block := ⟨self + i.offset.toNat, i.size⟩

/-- The instance variables of a class and of its superclasses, in the order in which the runtime
searches them. The compiler has placed them next to each other. -/
structure Layout where
  ivars : List RawIvar
  instanceSize : ℕ
  offset_nonneg : ∀ i ∈ ivars, i.offset ≠ -1 → 0 ≤ i.offset
  offset_le : ∀ i ∈ ivars, i.offset ≠ -1 → i.offset.toNat + i.size ≤ instanceSize
  apart : ivars.Pairwise fun i j => i.offset ≠ -1 → j.offset ≠ -1 →
    Memory.Apart i.offset.toNat i.size j.offset.toNat j.size

namespace Layout

/-- `_mulle_objc_infraclass_search_ivar` -/
def searchIvar (l : Layout) (ivarid : BitVec 32) : Option RawIvar :=
  l.ivars.find? (·.ivarid = ivarid)

/-- `get_ivar_offset`, with its assertions. -/
def getIvarOffset (l : Layout) (ivarid : BitVec 32) (buf size : ℕ) : Option ℤ :=
  match l.searchIvar ivarid with
  | none => some (-2)
  | some ivar => if ivar.size = size ∧ buf &&& (ivar.align - 1) = 0 then some ivar.offset else none

end Layout

/-- An instance. -/
structure Instance where
  self : ℕ
  layout : Layout

def Instance.block (o : Instance) : Block := ⟨o.self, o.layout.instanceSize⟩

/-- `_MulleObjCObjectSetIvar` -/
def setIvar (m : Memory UInt8) (o : Instance) (ivarid : BitVec 32) (buf size : ℕ) :
    Option (ℤ × Memory UInt8) :=
  (o.layout.getIvarOffset ivarid buf size).bind fun offset =>
    match offset with
    | -2 => some (-1, m)
    -- "hashed offset not yet implemented"
    | -1 => some (-1, m)
    | _ => (m.memcpy (o.self + offset.toNat) buf size).map (0, ·)

/-- `_MulleObjCObjectGetIvar` -/
def getIvar (m : Memory UInt8) (o : Instance) (ivarid : BitVec 32) (buf size : ℕ) :
    Option (ℤ × Memory UInt8) :=
  (o.layout.getIvarOffset ivarid buf size).bind fun offset =>
    match offset with
    | -2 => some (-1, m)
    | -1 => some (-1, m)
    | _ => (m.memcpy buf (o.self + offset.toNat) size).map (0, ·)

/-- The memory and the instances in it. -/
structure Heap where
  memory : Memory UInt8
  instances : List Instance

/-- What is done. -/
inductive HeapAct
  /-- A new instance, filled with zeros. -/
  | alloc (o : Instance)
  | dealloc (self : ℕ)
  | setIvar (self : ℕ) (ivarid : BitVec 32) (buf size : ℕ)
  | getIvar (self : ℕ) (ivarid : BitVec 32) (buf size : ℕ)
  /-- A write by anybody else. -/
  | write (q : ℕ) (cells : List UInt8)

/-- What a caller sees. -/
inductive HeapEvent
  /-- The bytes of the buffer were set. -/
  | set (self : ℕ) (ivarid : BitVec 32) (bytes : List UInt8)
  /-- These bytes are in the buffer now. -/
  | got (self : ℕ) (ivarid : BitVec 32) (bytes : List UInt8)
  | failed (self : ℕ) (ivarid : BitVec 32) (rval : ℤ)
  deriving DecidableEq, Repr

namespace Heap

/-- The instance with this address. -/
def object (s : Heap) (self : ℕ) : Option Instance := s.instances.find? (·.self = self)

/-- No instance is in the block. -/
def Clear (s : Heap) (b : Block) : Prop := ∀ o ∈ s.instances, o.block.Apart b

instance (s : Heap) (b : Block) : Decidable (s.Clear b) :=
  inferInstanceAs (Decidable (∀ o ∈ s.instances, _))

/-- A step. `none` is undefined. -/
def step (s : Heap) : HeapAct → Option (List HeapEvent × Heap)
  | .alloc o =>
    some ([], ⟨s.memory.write o.self (List.replicate o.layout.instanceSize 0), o :: s.instances⟩)
  | .dealloc self => some ([], { s with instances := s.instances.filter (·.self ≠ self) })
  | .setIvar self ivarid buf size =>
    (s.object self).bind fun o => (Ivar.setIvar s.memory o ivarid buf size).map fun r =>
      ([if r.1 = 0 then .set self ivarid (s.memory.read buf size) else .failed self ivarid r.1],
        { s with memory := r.2 })
  | .getIvar self ivarid buf size =>
    (s.object self).bind fun o => (Ivar.getIvar s.memory o ivarid buf size).map fun r =>
      ([if r.1 = 0 then .got self ivarid (r.2.read buf size) else .failed self ivarid r.1],
        { s with memory := r.2 })
  | .write q cells => some ([], { s with memory := s.memory.write q cells })

/-- What the caller promises: the buffer is aligned, as large as the instance variable, and no
part of it, or, if it is filled, of no instance. The allocator gives memory that nobody uses. -/
def Legal (s : Heap) : HeapAct → Prop
  | .alloc o => s.object o.self = none ∧ s.Clear o.block
  | .dealloc _ => True
  | .setIvar self ivarid buf size =>
    ∃ o ∈ s.object self, ∀ i ∈ o.layout.searchIvar ivarid,
      i.size = size ∧ buf &&& (i.align - 1) = 0 ∧
        (i.offset ≠ -1 → (i.block self).Apart ⟨buf, size⟩)
  | .getIvar self ivarid buf size =>
    (∃ o ∈ s.object self, ∀ i ∈ o.layout.searchIvar ivarid,
      i.size = size ∧ buf &&& (i.align - 1) = 0) ∧ s.Clear ⟨buf, size⟩
  | .write q cells => s.Clear ⟨q, cells.length⟩

instance (s : Heap) (a : HeapAct) : Decidable (s.Legal a) := by
  cases a with
  | alloc | dealloc | setIvar | getIvar | write =>
    unfold Legal
    infer_instance

end Heap

/-- The records: of each instance its class, and its instance variables by their ids. -/
abbrev Records := ℕ → Option (Layout × (BitVec 32 → List UInt8))

/-- What is done with them. -/
inductive RecordAct
  | alloc (self : ℕ) (layout : Layout)
  | dealloc (self : ℕ)
  | set (self : ℕ) (ivarid : BitVec 32) (bytes : List UInt8)
  | get (self : ℕ) (ivarid : BitVec 32)

namespace Records

/-- The zeros of a new instance. -/
def zeros (l : Layout) (ivarid : BitVec 32) : List UInt8 :=
  ((l.searchIvar ivarid).map fun i => List.replicate i.size 0).getD []

/-- An instance variable that the runtime finds, and that has a place. -/
def placed (l : Layout) (ivarid : BitVec 32) : Bool :=
  (l.searchIvar ivarid).any (·.offset ≠ -1)

/-- A step. Only what is placed is set, and only that. -/
def step (records : Records) : RecordAct → Option (List HeapEvent × Records)
  | .alloc self layout =>
    if (records self).isSome then none
    else some ([], Function.update records self (some (layout, zeros layout)))
  | .dealloc self => some ([], Function.update records self none)
  | .set self ivarid bytes =>
    (records self).map fun r =>
      if placed r.1 ivarid then
        ([.set self ivarid bytes],
          Function.update records self (some (r.1, Function.update r.2 ivarid bytes)))
      else ([.failed self ivarid (-1)], records)
  | .get self ivarid =>
    (records self).map fun r =>
      (if placed r.1 ivarid then [.got self ivarid (r.2 ivarid)]
        else [.failed self ivarid (-1)], records)

end Records

variable {l : Layout} {o o' : Instance} {i j : RawIvar} {s s' : Heap} {records : Records}
  {m m' : Memory UInt8} {ivarid : BitVec 32} {buf size p q : ℕ} {b : Block}

namespace Layout

theorem mem_of_searchIvar (h : l.searchIvar ivarid = some i) : i ∈ l.ivars ∧ i.ivarid = ivarid :=
  ⟨List.mem_of_find?_eq_some h, by simpa using List.find?_some h⟩

/-- Instance variables with different ids share no byte. -/
theorem block_apart {ivarid' : BitVec 32} (hi : l.searchIvar ivarid = some i)
    (hj : l.searchIvar ivarid' = some j) (hne : ivarid ≠ ivarid') (hplaced : i.offset ≠ -1)
    (hplaced' : j.offset ≠ -1) : (i.block p).Apart (j.block p) := by
  obtain ⟨hmem, hid⟩ := mem_of_searchIvar hi
  obtain ⟨hmem', hid'⟩ := mem_of_searchIvar hj
  have hdiffer : i ≠ j := by
    rintro rfl
    exact hne (hid.symm.trans hid')
  have : Std.Symm fun i j : RawIvar => i.offset ≠ -1 → j.offset ≠ -1 →
      Memory.Apart i.offset.toNat i.size j.offset.toNat j.size :=
    ⟨fun i j h hj hi => (h hi hj).symm⟩
  have happart := l.apart.forall hmem hmem' hdiffer hplaced hplaced'
  rcases happart with h | h
  · exact .inl (by simp only [RawIvar.block]; omega)
  · exact .inr (by simp only [RawIvar.block]; omega)

end Layout

/-- What is next to an instance is next to its instance variables. -/
theorem Instance.block_apart (h : o.block.Apart b) (hi : o.layout.searchIvar ivarid = some i)
    (hplaced : i.offset ≠ -1) : (i.block o.self).Apart b := by
  have hle := o.layout.offset_le i (Layout.mem_of_searchIvar hi).1 hplaced
  rcases h with h | h
  · exact .inl (by simp only [Instance.block, RawIvar.block] at h ⊢; omega)
  · exact .inr (by simp only [Instance.block, RawIvar.block] at h ⊢; omega)

/-- The two ways of `get_ivar_offset`. -/
theorem getIvarOffset_of_placed (hi : l.searchIvar ivarid = some i) (hplaced : i.offset ≠ -1)
    (hsize : i.size = size) (halign : buf &&& (i.align - 1) = 0) :
    ∃ n : ℕ, i.offset = n ∧ l.getIvarOffset ivarid buf size = some (n : ℤ) := by
  have hnonneg := l.offset_nonneg i (Layout.mem_of_searchIvar hi).1 hplaced
  obtain ⟨n, hn⟩ := Int.eq_ofNat_of_zero_le hnonneg
  refine ⟨n, hn, ?_⟩
  rw [Layout.getIvarOffset, hi]
  simp only
  rw [if_pos ⟨hsize, halign⟩, hn]

theorem getIvarOffset_of_not_placed (hplaced : Records.placed l ivarid = false)
    (hbuf : ∀ i ∈ l.searchIvar ivarid, i.size = size ∧ buf &&& (i.align - 1) = 0) :
    l.getIvarOffset ivarid buf size = some (-2) ∨ l.getIvarOffset ivarid buf size = some (-1) := by
  cases hi : l.searchIvar ivarid with
  | none =>
    refine .inl ?_
    rw [Layout.getIvarOffset, hi]
  | some i =>
    refine .inr ?_
    have hoffset : i.offset = -1 := by simpa [Records.placed, hi] using hplaced
    rw [Layout.getIvarOffset, hi]
    simp only
    rw [if_pos (hbuf i hi), hoffset]

theorem exists_of_placed (h : Records.placed l ivarid = true) :
    ∃ i, l.searchIvar ivarid = some i ∧ i.offset ≠ -1 := by
  simpa [Records.placed, Option.any_eq_true] using h

/-- An instance variable is set, and nothing else. -/
theorem setIvar_of_placed (hi : o.layout.searchIvar ivarid = some i) (hplaced : i.offset ≠ -1)
    (hsize : i.size = size) (halign : buf &&& (i.align - 1) = 0)
    (happart : (i.block o.self).Apart ⟨buf, size⟩) :
    setIvar m o ivarid buf size = some (0, m.write (i.block o.self).start (m.read buf size)) := by
  obtain ⟨n, hn, hoffset⟩ := getIvarOffset_of_placed hi hplaced hsize halign
  have hblock : i.block o.self = ⟨o.self + n, size⟩ := by
    rw [RawIvar.block, hn, hsize]
    rfl
  rw [hblock] at happart
  have happart : Memory.Apart (o.self + n) size buf size := happart
  rw [setIvar, hoffset, Option.bind_some, hblock]
  change (m.memcpy (o.self + n) buf size).map (0, ·) = _
  rw [memcpy, if_pos happart]
  rfl

theorem setIvar_of_not_placed (hplaced : Records.placed o.layout ivarid = false)
    (hbuf : ∀ i ∈ o.layout.searchIvar ivarid, i.size = size ∧ buf &&& (i.align - 1) = 0) :
    setIvar m o ivarid buf size = some (-1, m) := by
  rcases getIvarOffset_of_not_placed hplaced hbuf with h | h
  · rw [setIvar, h]
    rfl
  · rw [setIvar, h]
    rfl

/-- The buffer is filled, and nothing else. -/
theorem getIvar_of_placed (hi : o.layout.searchIvar ivarid = some i) (hplaced : i.offset ≠ -1)
    (hsize : i.size = size) (halign : buf &&& (i.align - 1) = 0)
    (happart : (i.block o.self).Apart ⟨buf, size⟩) :
    getIvar m o ivarid buf size = some (0, m.write buf (m.contents (i.block o.self))) := by
  obtain ⟨n, hn, hoffset⟩ := getIvarOffset_of_placed hi hplaced hsize halign
  have hblock : i.block o.self = ⟨o.self + n, size⟩ := by
    rw [RawIvar.block, hn, hsize]
    rfl
  rw [hblock] at happart
  have happart : Memory.Apart buf size (o.self + n) size := happart.symm
  rw [getIvar, hoffset, Option.bind_some, hblock]
  change (m.memcpy buf (o.self + n) size).map (0, ·) = _
  rw [memcpy, if_pos happart]
  rfl

theorem getIvar_of_not_placed (hplaced : Records.placed o.layout ivarid = false)
    (hbuf : ∀ i ∈ o.layout.searchIvar ivarid, i.size = size ∧ buf &&& (i.align - 1) = 0) :
    getIvar m o ivarid buf size = some (-1, m) := by
  rcases getIvarOffset_of_not_placed hplaced hbuf with h | h
  · rw [getIvar, h]
    rfl
  · rw [getIvar, h]
    rfl

theorem mem_of_object (h : s.object p = some o) : o ∈ s.instances ∧ o.self = p :=
  ⟨List.mem_of_find?_eq_some h, by simpa using List.find?_some h⟩

/-- An instance has the instance variables of the record. -/
structure Instance.Holds (m : Memory UInt8) (o : Instance)
    (r : Layout × (BitVec 32 → List UInt8)) : Prop where
  layout_eq : o.layout = r.1
  contents_eq : ∀ ivarid i, o.layout.searchIvar ivarid = some i → i.offset ≠ -1 →
    m.contents (i.block o.self) = r.2 ivarid

/-- Other memory may change. -/
theorem Instance.Holds.write {r : Layout × (BitVec 32 → List UInt8)} (h : o.Holds m r)
    {cells : List UInt8} (happart : o.block.Apart ⟨q, cells.length⟩) :
    o.Holds (m.write q cells) r := by
  refine ⟨h.layout_eq, fun ivarid i hi hplaced => ?_⟩
  rw [← h.contents_eq ivarid i hi hplaced]
  exact contents_write_of_apart (a := ⟨q, cells.length⟩)
    (Instance.block_apart happart hi hplaced).symm rfl

/-- The instances in the memory are the records. -/
structure Represents (s : Heap) (records : Records) : Prop where
  apart : s.instances.Pairwise fun a b => a.block.Apart b.block
  holds : ∀ p, Option.Rel (fun o r => Instance.Holds s.memory o r) (s.object p) (records p)

namespace Represents

theorem some (h : Represents s records) (ho : s.object p = .some o) :
    ∃ r, records p = .some r ∧ o.Holds s.memory r := by
  have hp := h.holds p
  rw [ho] at hp
  cases hr : records p with
  | none =>
    rw [hr] at hp
    cases hp
  | some r =>
    rw [hr] at hp
    cases hp with
    | some hholds => exact ⟨r, rfl, hholds⟩

theorem none (h : Represents s records) (ho : s.object p = .none) : records p = .none := by
  have hp := h.holds p
  rw [ho] at hp
  cases hr : records p with
  | none => rfl
  | some r =>
    rw [hr] at hp
    cases hp

/-- One instance is written, and the others are not. -/
theorem update (h : Represents s records) (ho : s.object p = .some o)
    {r : Layout × (BitVec 32 → List UInt8)} (hr : o.Holds m' r)
    (hothers : ∀ o' ∈ s.instances, o'.self ≠ p → ∀ r, o'.Holds s.memory r → o'.Holds m' r) :
    Represents { s with memory := m' } (Function.update records p (.some r)) := by
  refine ⟨h.apart, fun q => ?_⟩
  change Option.Rel _ (s.object q) _
  by_cases hq : q = p
  · rw [hq, ho, Function.update_self]
    exact .some hr
  · rw [Function.update_of_ne hq]
    cases ho' : s.object q with
    | none =>
      rw [h.none ho']
      exact .none
    | some o' =>
      obtain ⟨r', hr', hholds⟩ := h.some ho'
      obtain ⟨hmem, rfl⟩ := mem_of_object ho'
      rw [hr']
      exact .some (hothers o' hmem hq r' hholds)

theorem write (h : Represents s records) {cells : List UInt8}
    (hclear : s.Clear ⟨q, cells.length⟩) :
    Represents { s with memory := s.memory.write q cells } records := by
  refine ⟨h.apart, fun p => ?_⟩
  change Option.Rel _ (s.object p) (records p)
  cases ho : s.object p with
  | none =>
    rw [h.none ho]
    exact .none
  | some o =>
    obtain ⟨r, hr, hholds⟩ := h.some ho
    rw [hr]
    exact .some (hholds.write (hclear o (mem_of_object ho).1))

/-- A new instance is a record of zeros. -/
theorem alloc (h : Represents s records) (hclear : s.Clear o.block) :
    Represents ⟨s.memory.write o.self (List.replicate o.layout.instanceSize 0), o :: s.instances⟩
      (Function.update records o.self (.some (o.layout, Records.zeros o.layout))) := by
  have hwrite : Represents
      { s with memory := s.memory.write o.self (List.replicate o.layout.instanceSize 0) }
      records := h.write (by rw [List.length_replicate]; exact hclear)
  refine ⟨List.pairwise_cons.mpr ⟨fun a ha => (hclear a ha).symm, h.apart⟩, fun p => ?_⟩
  by_cases hp : o.self = p
  · have hobject : Heap.object
        ⟨s.memory.write o.self (List.replicate o.layout.instanceSize 0), o :: s.instances⟩ p =
        .some o := List.find?_cons_of_pos (by simpa using hp)
    rw [hobject, hp, Function.update_self]
    refine .some ⟨rfl, fun ivarid i hi hplaced => ?_⟩
    have hle := o.layout.offset_le i (Layout.mem_of_searchIvar hi).1 hplaced
    have hzeros (n : ℕ) : List.replicate n (0 : UInt8) = Memory.read (fun _ => 0) 0 n := by
      simp [Memory.read]
    change Memory.read _ (o.self + i.offset.toNat) i.size = _
    rw [← hp, hzeros, Memory.read_write_read hle]
    simp [Records.zeros, hi, Memory.read]
  · have hobject : Heap.object
        ⟨s.memory.write o.self (List.replicate o.layout.instanceSize 0), o :: s.instances⟩ p =
        s.object p := List.find?_cons_of_neg (by simpa using hp)
    rw [hobject, Function.update_of_ne (Ne.symm hp)]
    exact hwrite.holds p

/-- An instance variable is set: the others of the instance stay, and so do other instances. -/
theorem set (h : Represents s records) (ho : s.object p = .some o)
    {r : Layout × (BitVec 32 → List UInt8)} (hholds : o.Holds s.memory r)
    (hi : o.layout.searchIvar ivarid = .some i) (hplaced : i.offset ≠ -1) {bytes : List UInt8}
    (hbytes : bytes.length = i.size) :
    Represents { s with memory := s.memory.write (i.block o.self).start bytes }
      (Function.update records p (.some (r.1, Function.update r.2 ivarid bytes))) := by
  obtain ⟨hmem, hself⟩ := mem_of_object ho
  refine h.update ho ⟨hholds.layout_eq, fun ivarid' j hj hplaced' => ?_⟩
    fun o' hmem' hne r' hholds' => ?_
  · change _ = Function.update r.2 ivarid bytes ivarid'
    by_cases hid : ivarid' = ivarid
    · subst hid
      obtain rfl : i = j := Option.some.inj (hi.symm.trans hj)
      rw [Function.update_self]
      exact contents_write_self hbytes
    · rw [Function.update_of_ne hid, ← hholds.contents_eq ivarid' j hj hplaced']
      exact contents_write_of_apart
        (Layout.block_apart hi hj (Ne.symm hid) hplaced hplaced') hbytes
  · have : Std.Symm fun a b : Instance => a.block.Apart b.block := ⟨fun a b hab => hab.symm⟩
    have hdiffer : o ≠ o' := fun heq => hne (heq ▸ hself)
    have happart := h.apart.forall hmem hmem' hdiffer
    refine hholds'.write ?_
    rw [hbytes]
    exact (Instance.block_apart happart hi hplaced).symm

theorem dealloc (h : Represents s records) :
    Represents { s with instances := s.instances.filter (·.self ≠ q) }
      (Function.update records q .none) := by
  refine ⟨h.apart.filter _, fun p => ?_⟩
  have hobject : Heap.object { s with instances := s.instances.filter (·.self ≠ q) } p =
      if p = q then .none else s.object p := Memory.find?_filter_ne
  rw [hobject]
  by_cases hp : p = q
  · rw [if_pos hp, hp, Function.update_self]
    exact .none
  · rw [if_neg hp, Function.update_of_ne hp]
    exact h.holds p

end Represents

/-- A step is one of the records, with the same report. Only writes of others are none. -/
def Shows (records : Records) (es : List HeapEvent) (s' : Heap) : Prop :=
  (es = [] ∧ Represents s' records) ∨
    ∃ a records', records.step a = some (es, records') ∧ Represents s' records'

theorem step_setIvar (h : Represents s records) (hlegal : s.Legal (.setIvar p ivarid buf size)) :
    ∃ es s', s.step (.setIvar p ivarid buf size) = some (es, s') ∧ Shows records es s' := by
  obtain ⟨o, ho, hbuf⟩ := hlegal
  obtain ⟨r, hr, hholds⟩ := h.some ho
  obtain ⟨hmem, hself⟩ := mem_of_object ho
  cases hplaced : Records.placed o.layout ivarid with
  | true =>
    obtain ⟨i, hi, hoffset⟩ := exists_of_placed hplaced
    obtain ⟨hsize, halign, happart⟩ := hbuf i hi
    have hset := setIvar_of_placed (m := s.memory) hi hoffset hsize halign
      (hself ▸ happart hoffset)
    have hbytes : (s.memory.read buf size).length = i.size := length_read.trans hsize.symm
    refine ⟨[.set p ivarid (s.memory.read buf size)], _, ?_,
      .inr ⟨.set p ivarid (s.memory.read buf size), _, ?_, h.set ho hholds hi hoffset hbytes⟩⟩
    · rw [Heap.step, ho, Option.bind_some, hset]
      rfl
    · rw [Records.step, hr, Option.map_some, ← hholds.layout_eq, if_pos hplaced]
  | false =>
    have hset := setIvar_of_not_placed (m := s.memory) hplaced
      fun i hi => ⟨(hbuf i hi).1, (hbuf i hi).2.1⟩
    refine ⟨[.failed p ivarid (-1)], s, ?_, .inr ⟨.set p ivarid [], records, ?_, h⟩⟩
    · rw [Heap.step, ho, Option.bind_some, hset]
      rfl
    · rw [Records.step, hr, Option.map_some, ← hholds.layout_eq, if_neg (by simp [hplaced])]

theorem step_getIvar (h : Represents s records) (hlegal : s.Legal (.getIvar p ivarid buf size)) :
    ∃ es s', s.step (.getIvar p ivarid buf size) = some (es, s') ∧ Shows records es s' := by
  obtain ⟨⟨o, ho, hbuf⟩, hclear⟩ := hlegal
  obtain ⟨r, hr, hholds⟩ := h.some ho
  obtain ⟨hmem, hself⟩ := mem_of_object ho
  cases hplaced : Records.placed o.layout ivarid with
  | true =>
    obtain ⟨i, hi, hoffset⟩ := exists_of_placed hplaced
    obtain ⟨hsize, halign⟩ := hbuf i hi
    have hget := getIvar_of_placed (m := s.memory) hi hoffset hsize halign
      (Instance.block_apart (hclear o hmem) hi hoffset)
    have hlength : (s.memory.contents (i.block o.self)).length = size :=
      length_contents.trans hsize
    refine ⟨[.got p ivarid (r.2 ivarid)], _, ?_,
      .inr ⟨.get p ivarid, records, ?_, h.write (hlength.symm ▸ hclear)⟩⟩
    · rw [Heap.step, ho, Option.bind_some, hget, Option.map_some, if_pos rfl,
        read_write_of_length hlength, hholds.contents_eq ivarid i hi hoffset]
    · rw [Records.step, hr, Option.map_some, ← hholds.layout_eq, if_pos hplaced]
  | false =>
    have hget := getIvar_of_not_placed (m := s.memory) hplaced hbuf
    refine ⟨[.failed p ivarid (-1)], s, ?_, .inr ⟨.get p ivarid, records, ?_, h⟩⟩
    · rw [Heap.step, ho, Option.bind_some, hget]
      rfl
    · rw [Records.step, hr, Option.map_some, ← hholds.layout_eq, if_neg (by simp [hplaced])]

/-- A legal step is defined, and the records do the same. -/
theorem step_legal (h : Represents s records) {a : HeapAct} (hlegal : s.Legal a) :
    ∃ es s', s.step a = some (es, s') ∧ Shows records es s' := by
  cases a with
  | alloc o =>
    obtain ⟨hfree, hclear⟩ := hlegal
    refine ⟨[], _, rfl, .inr ⟨.alloc o.self o.layout, _, ?_, h.alloc hclear⟩⟩
    rw [Records.step, h.none hfree]
    rfl
  | dealloc p => exact ⟨[], _, rfl, .inr ⟨.dealloc p, _, rfl, h.dealloc⟩⟩
  | setIvar p ivarid buf size => exact step_setIvar h hlegal
  | getIvar p ivarid buf size => exact step_getIvar h hlegal
  | write q cells => exact ⟨[], _, rfl, .inl ⟨rfl, h.write hlegal⟩⟩

/-- Every run is a run of the records with the same reports, and no legal step that follows is
undefined. -/
theorem records_of_run {es : List HeapEvent}
    (hrun : RunWhile Heap.step Heap.Legal ⟨m, []⟩ es s) :
    (∃ records, Run Records.step (fun _ => none) es records ∧ Represents s records) ∧
      ∀ a, s.Legal a → ∃ fs s', s.step a = some (fs, s') := by
  have hinit : Represents ⟨m, []⟩ fun _ => none := ⟨.nil, fun _ => .none⟩
  obtain ⟨records, hrecords, h⟩ := hrun.simulation Represents (fun hlegal h hstep => by
    obtain ⟨es', s'', hstep', hshows⟩ := step_legal h hlegal
    obtain ⟨rfl, rfl⟩ := Prod.mk.inj (Option.some.inj (hstep.symm.trans hstep'))
    exact hshows) hinit
  refine ⟨⟨records, hrecords, h⟩, fun a hlegal => ?_⟩
  obtain ⟨fs, s', hstep, -⟩ := step_legal h hlegal
  exact ⟨fs, s', hstep⟩

/-- An `int`, an instance variable with a hashed offset, and a `short`. -/
def intAndShort : Layout where
  ivars := [⟨1, 0, 4, 4⟩, ⟨2, -1, 8, 8⟩, ⟨3, 4, 2, 2⟩]
  instanceSize := 8
  offset_nonneg := by decide
  offset_le := by decide
  apart := by decide

theorem records_of_run_intAndShort : ∃ (es : List HeapEvent) (s : Heap),
    es = [.set 100 1 [1, 2, 3, 4], .got 100 1 [1, 2, 3, 4], .failed 100 2 (-1), .got 100 3 [0, 0]] ∧
    (∃ records, Run Records.step (fun _ => none) es records ∧ Represents s records) ∧
      ∀ a, s.Legal a → ∃ fs s', s.step a = some (fs, s') := by
  have h : (execWhile Heap.step Heap.Legal ⟨fun _ => 7, []⟩
      [.alloc ⟨100, intAndShort⟩, .write 200 [1, 2, 3, 4], .setIvar 100 1 200 4,
        .write 200 [5, 6], .getIvar 100 1 300 4, .getIvar 100 2 304 8,
        .getIvar 100 3 304 2]).map Prod.fst =
      some [.set 100 1 [1, 2, 3, 4], .got 100 1 [1, 2, 3, 4], .failed 100 2 (-1),
        .got 100 3 [0, 0]] := by
    decide +kernel
  obtain ⟨⟨es, s⟩, hexec, hes⟩ := Option.map_eq_some_iff.mp h
  exact ⟨es, s, hes, records_of_run (runWhile_of_execWhile _ hexec)⟩

end MulleObjC.Ivar
