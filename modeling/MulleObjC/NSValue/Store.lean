import Mathlib.Data.Option.Basic
import Mathlib.Logic.Function.Basic
import MulleObjC.NSValue.Calls

/-!
# Values are immutable

What the values are for: a store of immutable values, each a type with bytes of its size.
Every run of calls on the memory is a run of calls on the store that shows the same, and
no call is ever undefined, as long as the callers write to memory that is no value's.
-/

namespace MulleObjC.NSValue

/-- A type, and bytes of its size. -/
structure Value (rt : Runtime) where
  type : List UInt8
  bytes : List UInt8
  zero_notMem : 0 ∉ type
  size_eq : rt.size type = some bytes.length
  bytes_ne_nil : bytes ≠ []
  deriving DecidableEq

/-- The values, by their addresses. -/
abbrev Store (rt : Runtime) := ℕ → Option (Value rt)

namespace Store

/-- What is done with the store. -/
inductive Act (rt : Runtime)
  | new (v : Value rt) (p : ℕ)
  /-- Without bytes, or without a type. -/
  | newWithNull (bytes : Bool)
  | objCType (p : ℕ)
  | getValue (p : ℕ) (null : Bool)
  | getValueSize (p : ℕ) (null : Bool) (size : ℕ)
  | hash (p : ℕ)
  | isEqual (p other : ℕ)
  | dealloc (p : ℕ)

/-- The hash takes the last 64 bytes. -/
def hashOf {rt : Runtime} (v : Value rt) : BitVec 64 :=
  rt.dataHash (v.bytes.drop (v.bytes.length - 64))

/-- A call. -/
def step {rt : Runtime} (store : Store rt) : Act rt → Option (List Event × Store rt)
  | .new v p =>
    if (store p).isSome then none
    else some ([.new p], Function.update store p (some v))
  | .newWithNull bytes =>
    some ([.raised ⟨if bytes then "empty bytes" else "empty type", []⟩], store)
  | .objCType p => (store p).map fun v => ([.type p v.type], store)
  | .getValue p null =>
    (store p).map fun v =>
      (if null then [.raised ⟨"empty bytes", []⟩] else [.value p v.bytes], store)
  | .getValueSize p null size =>
    (store p).map fun v =>
      (if null ∧ size ≠ 0 then [.raised ⟨"empty bytes", []⟩]
        else if size ≠ v.bytes.length then
          [.raised ⟨"size should be %ld bytes on this platform", [v.bytes.length]⟩]
        else [.value p v.bytes], store)
  | .hash p => (store p).map fun v => ([.hash p (hashOf v)], store)
  | .isEqual p other =>
    (store p).map fun v => ([.equal p other (decide (store other = some v))], store)
  | .dealloc p => (store p).map fun _ => ([], Function.update store p none)

end Store

variable {rt : Runtime} {m m' : Memory UInt8} {o o' : Object} {v v' : Value rt} {s s' : State}
  {store : Store rt} {p q n : ℕ}

/-- The memory of an object holds a value: the bytes, the type and its terminator. -/
structure Object.Holds (m : Memory UInt8) (o : Object) (v : Value rt) : Prop where
  bytes_ne : o.bytes ≠ 0
  size_eq : o.size = v.bytes.length
  extra_eq : o.extra = v.bytes.length + (v.type.length + 1)
  contents_eq : m.contents o.block = v.bytes ++ (v.type ++ [0])

namespace Object.Holds

theorem typeSize_eq (h : o.Holds m v) : o.typeSize = v.type.length + 1 := by
  rw [typeSize, h.extra_eq, h.size_eq]
  omega

theorem type_lt (h : o.Holds m v) : v.type.length < o.typeSize := by
  rw [h.typeSize_eq]
  exact Nat.lt_succ_self _

theorem congr (h : o.Holds m v) (hcontents : m'.contents o.block = m.contents o.block) :
    o.Holds m' v :=
  ⟨h.bytes_ne, h.size_eq, h.extra_eq, hcontents.trans h.contents_eq⟩

/-- The two parts of the extra memory. -/
theorem reads (h : o.Holds m v) :
    m.read o.bytes o.size = v.bytes ∧ m.read o.objCType o.typeSize = v.type ++ [0] := by
  have hsplit : m.read o.bytes o.size ++ m.read (o.bytes + o.size) o.typeSize =
      v.bytes ++ (v.type ++ [0]) := by
    rw [← Memory.read_add, h.typeSize_eq, h.size_eq, ← h.extra_eq]
    exact h.contents_eq
  exact List.append_inj hsplit (Memory.length_read.trans h.size_eq)

theorem stringAt (h : o.Holds m v) : Memory.StringAt 0 m o.objCType v.type := by
  refine ⟨v.zero_notMem, ?_⟩
  rw [← h.typeSize_eq]
  exact h.reads.2

theorem strlen_eq (h : o.Holds m v) :
    Memory.strlen 0 m o.objCType o.typeSize = some v.type.length :=
  h.stringAt.strlen_eq h.type_lt

theorem read_type (h : o.Holds m v) : m.read o.objCType v.type.length = v.type := by
  have hread := h.stringAt.read_eq
  rw [Memory.read_add] at hread
  exact (List.append_inj hread (by simp)).1

theorem objCType_eq (h : o.Holds m v) : NSValue.objCType m o = some v.type := by
  rw [NSValue.objCType, h.strlen_eq, Option.map_some, h.read_type]

/-- The size that is found for the type is the number of bytes. -/
theorem getSize_eq (h : o.Holds m v) :
    getSize rt m o.objCType o.typeSize = some v.bytes.length := by
  rw [getSize, h.strlen_eq, Option.bind_some, h.read_type, v.size_eq]

theorem size_pos (h : o.Holds m v) : 0 < o.size := by
  rw [h.size_eq]
  exact List.length_pos_of_ne_nil v.bytes_ne_nil

/-- The hash is taken from the end of the bytes. -/
theorem hash_eq (h : o.Holds m v) : hash rt m o = Store.hashOf v := by
  have hrange : m.read (o.bytes + (getHashBytesRange o.size).1) (getHashBytesRange o.size).2 =
      v.bytes.drop (v.bytes.length - 64) := by
    rw [← h.reads.1, Memory.length_read]
    unfold getHashBytesRange
    split
    · next hlong =>
      have hsum : o.size = (o.size - 64) + 64 := by omega
      have hsplit := Memory.read_add (m := m) (p := o.bytes) (n := o.size - 64) (k := 64)
      rw [← hsum] at hsplit
      rw [hsplit, List.drop_left' (by simp)]
    · next hshort =>
      rw [show o.size - 64 = 0 by omega, List.drop_zero, Nat.add_zero]
  rw [hash, bytesPartialHash, bytesHashRange, if_neg h.bytes_ne, hrange, Store.hashOf]

/-- Values are equal if their types and their bytes are. No buffer overflows. -/
theorem isEqualToValue_eq (h : o.Holds m v) (h' : o'.Holds m v') :
    isEqualToValue rt m o o' = some (decide (v' = v)) := by
  have hsame := h.stringAt.streq_eq h'.stringAt h.type_lt h'.type_lt
  rw [isEqualToValue, hsame, Option.bind_some]
  by_cases htype : v.type = v'.type
  · have hlength : v.bytes.length = v'.bytes.length :=
      Option.some.inj (v.size_eq.symm.trans (htype ▸ v'.size_eq))
    have hsize : ¬ (o.size ≠ v.bytes.length ∨ o'.size ≠ v.bytes.length) := by
      rw [h.size_eq, h'.size_eq]
      omega
    have hread : m.read o.bytes v.bytes.length = v.bytes := by
      rw [← h.size_eq]
      exact h.reads.1
    have hread' : m.read o'.bytes v.bytes.length = v'.bytes := by
      rw [hlength, ← h'.size_eq]
      exact h'.reads.1
    have hiff : v.bytes = v'.bytes ↔ v' = v := by
      cases v
      cases v'
      simp only [Value.mk.injEq]
      simp only at htype
      rw [htype]
      exact ⟨fun h => ⟨rfl, h.symm⟩, fun h => h.2.symm⟩
    rw [decide_eq_true htype, if_neg (by decide), h.getSize_eq, Option.bind_some, h'.getSize_eq,
      Option.bind_some, if_neg (not_not_intro hlength), if_neg hsize, hread, hread']
    simp only [hiff]
  · have hne : v' ≠ v := fun heq => htype (heq ▸ rfl)
    rw [decide_eq_false htype, if_pos rfl, decide_eq_false hne]

/-- The value is in the buffer, and nothing else has changed. -/
theorem getValue_eq (h : o.Holds m v) (hp : p ≠ 0) (happart : o.block.Apart ⟨p, o.size⟩) :
    getValue m o p = some (.ok (m.write p v.bytes)) := by
  have hdst : Memory.Apart p o.size o.bytes o.size := by
    have hle : o.size ≤ o.extra := by
      rw [h.size_eq, h.extra_eq]
      omega
    exact (Memory.Apart.mono happart hle).symm
  rw [getValue, if_neg hp, Memory.memcpy, if_pos hdst, h.reads.1]
  rfl

/-- The buffer is written if the sizes agree. -/
theorem getValueSize_eq (h : o.Holds m v) (hp : p = 0 ∨ n ≠ o.size ∨ o.block.Apart ⟨p, n⟩) :
    getValueSize m o p n = some
      (if p = 0 ∧ n ≠ 0 then .error ⟨"empty bytes", []⟩
      else if n ≠ v.bytes.length then
        .error ⟨"size should be %ld bytes on this platform", [v.bytes.length]⟩
      else .ok (m.write p v.bytes)) := by
  rw [getValueSize, h.size_eq]
  by_cases hnull : p = 0 ∧ n ≠ 0
  · rw [if_pos hnull, if_pos hnull]
  · rw [if_neg hnull, if_neg hnull]
    by_cases hn : n ≠ v.bytes.length
    · rw [if_pos hn, if_pos hn]
    · have hsize : n = o.size := (not_not.mp hn).trans h.size_eq.symm
      have hpos := h.size_pos
      have hp' : p ≠ 0 := fun hzero => hnull ⟨hzero, by omega⟩
      have happart : o.block.Apart ⟨p, o.size⟩ := by
        rcases hp with hp | hp | hp
        · exact absurd hp hp'
        · exact absurd hsize hp
        · exact hsize ▸ hp
      have hget := h.getValue_eq hp' happart
      rw [getValue, if_neg hp', h.size_eq] at hget
      rw [if_neg hn, if_neg hn, hget]

/-- The inherited method does the same, and names missing bytes in another way. -/
theorem superGetValueSize_eq (h : o.Holds m v) :
    superGetValueSize rt m o p n =
      if p = 0 ∧ n ≠ 0 then some (.error ⟨"NULL bytes", []⟩) else getValueSize m o p n := by
  rw [superGetValueSize, getValueSize]
  by_cases hnull : p = 0 ∧ n ≠ 0
  · rw [if_pos hnull, if_pos hnull]
  · rw [if_neg hnull, if_neg hnull, if_neg hnull, h.getSize_eq, Option.bind_some, h.size_eq]
    by_cases hn : n ≠ v.bytes.length
    · rw [if_pos hn, if_pos (Ne.symm hn)]
    · have hpos := h.size_pos
      have hp : p ≠ 0 := fun hzero => hnull ⟨hzero, by rw [h.size_eq] at hpos; omega⟩
      rw [if_neg hn, if_neg (fun h => hn (Ne.symm h)), getValue, if_neg hp, h.size_eq]

end Object.Holds

/-- The bytes and the type are copied, one behind the other. -/
theorem fillObject_eq {t : List UInt8} (htype : Memory.StringAt 0 m q t)
    (hextra : o.extra = o.size + (t.length + 1)) (hbytes : o.block.Apart ⟨p, o.size⟩)
    (hq : o.block.Apart ⟨q, o.typeSize⟩) :
    fillObject m p q o = some (m.write o.bytes (m.read p o.size ++ (t ++ [0]))) := by
  have htypeSize : o.typeSize = t.length + 1 := by
    rw [Object.typeSize, hextra]
    omega
  have hle : o.size ≤ o.block.length := by
    change o.size ≤ o.extra
    omega
  have hzeros : (List.replicate o.extra (0 : UInt8)).length = o.extra := List.length_replicate
  have hsrc : (m.write o.bytes (List.replicate o.extra 0)).read p o.size = m.read p o.size :=
    Memory.read_write_of_apart (hzeros.symm ▸ hbytes)
  have happart : Memory.Apart o.bytes o.size p o.size := Memory.Apart.mono hbytes hle
  have happart' : Memory.Apart o.objCType o.typeSize q o.typeSize := by
    rcases hq with h | h
    · simp only [Object.block] at h
      exact .inl (by rw [Object.objCType]; omega)
    · simp only [Object.block] at h
      exact .inr (by rw [Object.objCType]; omega)
  rw [fillObject, Memory.memcpy, if_pos happart, Option.bind_some, Memory.memcpy, if_pos happart',
    hsrc]
  have hlength : (m.read p o.size).length = o.size := Memory.length_read
  have hread : ((m.write o.bytes (List.replicate o.extra 0)).write o.bytes
      (m.read p o.size)).read q o.typeSize = t ++ [0] := by
    rw [Memory.read_write_of_apart, Memory.read_write_of_apart, htypeSize, htype.read_eq]
    · exact hzeros.symm ▸ hq
    · exact hlength.symm ▸ Memory.Apart.mono hq hle
  have hpos : o.objCType = o.bytes + (m.read p o.size).length := by rw [hlength]; rfl
  rw [hread, hpos, Memory.write_append, Memory.write_write]
  rw [hzeros, hextra, List.length_append, hlength, List.length_append, List.length_singleton]

theorem mem_of_object (h : s.object p = some o) : o ∈ s.objects ∧ o.bytes = p :=
  ⟨List.mem_of_find?_eq_some h, by simpa using List.find?_some h⟩

/-- The objects in the memory are the values in the store. -/
structure Represents (s : State) (store : Store rt) : Prop where
  apart : s.objects.Pairwise fun a b => a.block.Apart b.block
  holds : ∀ p, Option.Rel (fun o v => Object.Holds s.memory o v) (s.object p) (store p)

namespace Represents

theorem some (h : Represents s store) (ho : s.object p = .some o) :
    ∃ v, store p = .some v ∧ o.Holds s.memory v := by
  have hp := h.holds p
  rw [ho] at hp
  cases hstore : store p with
  | none =>
    rw [hstore] at hp
    cases hp
  | some v =>
    rw [hstore] at hp
    cases hp with
    | some hv => exact ⟨v, rfl, hv⟩

theorem none (h : Represents s store) (ho : s.object p = .none) : store p = .none := by
  have hp := h.holds p
  rw [ho] at hp
  cases hstore : store p with
  | none => rfl
  | some v =>
    rw [hstore] at hp
    cases hp

/-- Other memory may be written. -/
theorem write (h : Represents s store) {cells : List UInt8}
    (hclear : s.Clear ⟨q, cells.length⟩) :
    Represents { s with memory := s.memory.write q cells } store := by
  refine ⟨h.apart, fun p => ?_⟩
  change Option.Rel _ (s.object p) (store p)
  cases ho : s.object p with
  | none =>
    rw [h.none ho]
    exact .none
  | some o =>
    obtain ⟨v, hv, hholds⟩ := h.some ho
    rw [hv]
    refine .some (hholds.congr ?_)
    exact Memory.contents_write_of_apart (hclear o (mem_of_object ho).1).symm rfl

/-- A new object is next to all others. -/
theorem new (h : Represents s store) (hclear : s.Clear o.block) (hne : o.bytes ≠ 0)
    (hsize : o.size = v.bytes.length)
    (hextra : o.extra = v.bytes.length + (v.type.length + 1)) :
    store o.bytes = .none ∧
      Represents ⟨s.memory.write o.bytes (v.bytes ++ (v.type ++ [0])), o :: s.objects⟩
        (Function.update store o.bytes (.some v)) := by
  have hlength : (v.bytes ++ (v.type ++ [0])).length = o.extra := by
    rw [hextra, List.length_append, List.length_append, List.length_singleton]
  have hfree : s.object o.bytes = .none := by
    cases ho : s.object o.bytes with
    | none => rfl
    | some o' =>
      obtain ⟨hmem, hbytes⟩ := mem_of_object ho
      obtain ⟨v', -, hholds⟩ := h.some ho
      have happart := hclear o' hmem
      have hextra' := hholds.extra_eq
      rcases happart with hle | hle
      · simp only [Object.block] at hle
        omega
      · simp only [Object.block] at hle
        omega
  refine ⟨h.none hfree, ⟨?_, fun p => ?_⟩⟩
  · exact List.pairwise_cons.mpr ⟨fun a ha => (hclear a ha).symm, h.apart⟩
  · have hwrite : Represents
        { s with memory := s.memory.write o.bytes (v.bytes ++ (v.type ++ [0])) } store :=
      h.write (hlength.symm ▸ hclear)
    by_cases hp : o.bytes = p
    · have hobject : State.object ⟨s.memory.write o.bytes (v.bytes ++ (v.type ++ [0])),
          o :: s.objects⟩ p = .some o := List.find?_cons_of_pos (by simpa using hp)
      rw [hobject, hp, Function.update_self]
      refine .some ⟨hne, hsize, hextra, ?_⟩
      rw [← hp]
      exact Memory.contents_write_self (b := o.block) hlength
    · have hobject : State.object ⟨s.memory.write o.bytes (v.bytes ++ (v.type ++ [0])),
          o :: s.objects⟩ p = s.object p := List.find?_cons_of_neg (by simpa using hp)
      rw [hobject, Function.update_of_ne (Ne.symm hp)]
      exact hwrite.holds p

theorem dealloc (h : Represents s store) :
    Represents { s with objects := s.objects.filter (·.bytes ≠ q) }
      (Function.update store q .none) := by
  refine ⟨h.apart.filter _, fun p => ?_⟩
  have hobject : State.object { s with objects := s.objects.filter (·.bytes ≠ q) } p =
      if p = q then .none else s.object p := Memory.find?_filter_ne
  rw [hobject]
  by_cases hp : p = q
  · rw [if_pos hp, hp, Function.update_self]
    exact .none
  · rw [if_neg hp, Function.update_of_ne hp]
    exact h.holds p

end Represents

/-- The extra memory has room for the bytes and the type. -/
theorem of_allocateObject (h : allocateObject rt m q n p = some o) :
    ∃ t, Memory.StringAt 0 m q t ∧ rt.size t = some o.size ∧ o.size ≠ 0 ∧ o.bytes = p ∧
      o.extra = o.size + (t.length + 1) := by
  obtain ⟨size, hsize, h⟩ := Option.bind_eq_some_iff.mp h
  split at h
  · cases h
  · next hne =>
    obtain ⟨k, hk, rfl⟩ := Option.map_eq_some_iff.mp h
    obtain ⟨k', hk', hsize⟩ := Option.bind_eq_some_iff.mp hsize
    obtain rfl : k = k' := Option.some.inj (hk.symm.trans hk')
    refine ⟨m.read q k, (Memory.stringAt_of_strlen hk).1, hsize, hne, rfl, ?_⟩
    rw [Memory.length_read]

/-- A call is a call of the store, with the same results. Only writes of others are none. -/
def Shows (store : Store rt) (es : List Event) (s' : State) : Prop :=
  (es = [] ∧ Represents s' store) ∨
    ∃ a store', store.step a = some (es, store') ∧ Represents s' store'

/-- The new value has the bytes and the type that it is given. -/
theorem mulleNewWithBytes_eq {bytes type : ℕ} (h : Represents s store) (hbytes : bytes ≠ 0)
    (htype : type ≠ 0) (ho : allocateObject rt s.memory type n p = some o)
    (halloc : s.Allocates bytes type o) :
    ∃ (v : Value rt) (s' : State), v.bytes = s.memory.read bytes o.size ∧
      Memory.StringAt 0 s.memory type v.type ∧ s'.objects = o :: s.objects ∧
      mulleNewWithBytes rt s bytes type n p = some (.ok s') ∧
      store.step (.new v p) = some ([.new p], Function.update store p (some v)) ∧
      Represents s' (Function.update store p (some v)) := by
  obtain ⟨t, ht, hsize, hne, hp, hextra⟩ := of_allocateObject ho
  let v : Value rt := ⟨t, s.memory.read bytes o.size, ht.notMem, by
    rw [Memory.length_read]
    exact hsize, List.ne_nil_of_length_pos (by rw [Memory.length_read]; omega)⟩
  have hlength : v.bytes.length = o.size := Memory.length_read
  have hfill := fillObject_eq (p := bytes) ht hextra halloc.apart_bytes halloc.apart_type
  obtain ⟨hfree, hnew⟩ := h.new (v := v) halloc.clear halloc.bytes_ne hlength.symm
    (hlength.symm ▸ hextra)
  rw [hp] at hfree hnew
  refine ⟨v, _, rfl, ht, rfl, ?_, ?_, hnew⟩
  · rw [mulleNewWithBytes, if_neg hbytes, if_neg htype, ho, Option.bind_some, hfill, hp]
    rfl
  · rw [Store.step, hfree, if_neg (by simp)]

theorem step_new {bytes type : ℕ} (h : Represents s store)
    (hlegal : s.Legal rt (.mulleNewWithBytes bytes type n p)) :
    ∃ es s', s.step rt (.mulleNewWithBytes bytes type n p) = some (es, s') ∧
      Shows store es s' := by
  by_cases hbytes : bytes = 0
  · refine ⟨[.raised ⟨"empty bytes", []⟩], s, ?_, .inr ⟨.newWithNull true, store, rfl, h⟩⟩
    rw [State.step, mulleNewWithBytes, if_pos hbytes]
    rfl
  by_cases htype : type = 0
  · refine ⟨[.raised ⟨"empty type", []⟩], s, ?_, .inr ⟨.newWithNull false, store, rfl, h⟩⟩
    rw [State.step, mulleNewWithBytes, if_neg hbytes, if_pos htype]
    rfl
  obtain ⟨o, ho, halloc⟩ := (hlegal.resolve_left hbytes).resolve_left htype
  obtain ⟨v, s', -, -, -, hnew, hstore, h'⟩ := mulleNewWithBytes_eq h hbytes htype ho halloc
  refine ⟨[.new p], s', ?_, .inr ⟨.new v p, _, hstore, h'⟩⟩
  rw [State.step, hnew]
  rfl

theorem step_getValue (h : Represents s store) {bytes : ℕ}
    (hlegal : s.Legal rt (.getValue p bytes)) :
    ∃ es s', s.step rt (.getValue p bytes) = some (es, s') ∧ Shows store es s' := by
  obtain ⟨o, ho, hclear⟩ := hlegal
  obtain ⟨v, hv, hholds⟩ := h.some ho
  obtain ⟨hmem, hp⟩ := mem_of_object ho
  by_cases hbytes : bytes = 0
  · refine ⟨[.raised ⟨"empty bytes", []⟩], s, ?_, .inr ⟨.getValue p true, store, ?_, h⟩⟩
    · rw [State.step, ho, Option.bind_some, getValue, if_pos hbytes]
      rfl
    · rw [Store.step, hv]
      rfl
  · have hclear := hclear.resolve_left hbytes
    have hget := hholds.getValue_eq hbytes (hclear o hmem)
    have hread := Memory.read_write_of_length (m := s.memory) (p := bytes) hholds.size_eq.symm
    refine ⟨[.value p v.bytes], { s with memory := s.memory.write bytes v.bytes }, ?_,
      .inr ⟨.getValue p false, store, ?_, h.write (hholds.size_eq ▸ hclear)⟩⟩
    · rw [State.step, ho, Option.bind_some, hget, Option.map_some, State.got, hread, hp]
    · rw [Store.step, hv]
      rfl

theorem step_getValueSize (h : Represents s store) {bytes : ℕ}
    (hlegal : s.Legal rt (.getValueSize p bytes n)) :
    ∃ es s', s.step rt (.getValueSize p bytes n) = some (es, s') ∧ Shows store es s' := by
  obtain ⟨o, ho, hclear⟩ := hlegal
  obtain ⟨v, hv, hholds⟩ := h.some ho
  obtain ⟨hmem, hp⟩ := mem_of_object ho
  have hget := hholds.getValueSize_eq (hclear.imp_right (Or.imp_right fun h => h o hmem))
  have hstore : store.step (.getValueSize p (decide (bytes = 0)) n) = some
      (if bytes = 0 ∧ n ≠ 0 then [.raised ⟨"empty bytes", []⟩]
        else if n ≠ v.bytes.length then
          [.raised ⟨"size should be %ld bytes on this platform", [v.bytes.length]⟩]
        else [.value p v.bytes], store) := by
    rw [Store.step, hv]
    simp only [decide_eq_true_eq]
    rfl
  rw [State.step, ho, Option.bind_some, hget, Option.map_some]
  by_cases hnull : bytes = 0 ∧ n ≠ 0
  · rw [if_pos hnull] at hstore ⊢
    exact ⟨_, s, rfl, .inr ⟨_, store, hstore, h⟩⟩
  · rw [if_neg hnull] at hstore ⊢
    by_cases hn : n ≠ v.bytes.length
    · rw [if_pos hn] at hstore ⊢
      exact ⟨_, s, rfl, .inr ⟨_, store, hstore, h⟩⟩
    · rw [if_neg hn] at hstore ⊢
      have hn := not_not.mp hn
      have hpos := hholds.size_pos
      have hsize := hholds.size_eq
      have hbytes : bytes ≠ 0 := fun hzero => hnull ⟨hzero, by omega⟩
      have hclear := (hclear.resolve_left hbytes).resolve_left (by omega)
      have hread := Memory.read_write_of_length (m := s.memory) (p := bytes) hsize.symm
      refine ⟨[.value p v.bytes], { s with memory := s.memory.write bytes v.bytes }, ?_,
        .inr ⟨_, store, hstore, h.write (hn ▸ hclear)⟩⟩
      rw [State.got, hread, hp]

/-- The answer of `-isEqual:` is whether the other one is the same value. -/
theorem isEqual_eq (h : Represents s store) (ho : s.object p = some o) (hv : store p = some v) :
    isEqual rt s o q = some (decide (store q = some v)) := by
  obtain ⟨v', hv', hholds⟩ := h.some ho
  obtain rfl : v = v' := Option.some.inj (hv.symm.trans hv')
  rw [isEqual, (mem_of_object ho).2]
  by_cases hq : p = q
  · rw [if_pos hq, ← hq, hv, decide_eq_true rfl]
  · rw [if_neg hq]
    cases ho' : s.object q with
    | none =>
      rw [h.none ho', decide_eq_false (by simp)]
    | some o' =>
      obtain ⟨v', hv', hholds'⟩ := h.some ho'
      simp only
      rw [hholds.isEqualToValue_eq hholds', hv']
      simp only [Option.some.injEq]

/-- A legal call is defined, and the store does the same. -/
theorem step_legal (h : Represents s store) {a : Act} (hlegal : s.Legal rt a) :
    ∃ es s', s.step rt a = some (es, s') ∧ Shows store es s' := by
  cases a with
  | mulleNewWithBytes bytes type n p => exact step_new h hlegal
  | getValue p bytes => exact step_getValue h hlegal
  | getValueSize p bytes n => exact step_getValueSize h hlegal
  | write q cells => exact ⟨[], _, rfl, .inl ⟨rfl, h.write hlegal⟩⟩
  | objCType p =>
    obtain ⟨o, ho⟩ := Option.isSome_iff_exists.mp hlegal
    obtain ⟨v, hv, hholds⟩ := h.some ho
    refine ⟨[.type p v.type], s, ?_, .inr ⟨.objCType p, store, ?_, h⟩⟩
    · rw [State.step, ho, Option.bind_some, hholds.objCType_eq]
      rfl
    · rw [Store.step, hv]
      rfl
  | hash p =>
    obtain ⟨o, ho⟩ := Option.isSome_iff_exists.mp hlegal
    obtain ⟨v, hv, hholds⟩ := h.some ho
    refine ⟨[.hash p (Store.hashOf v)], s, ?_, .inr ⟨.hash p, store, ?_, h⟩⟩
    · rw [State.step, ho, Option.map_some, hholds.hash_eq]
    · rw [Store.step, hv]
      rfl
  | isEqual p q =>
    obtain ⟨o, ho⟩ := Option.isSome_iff_exists.mp hlegal
    obtain ⟨v, hv, -⟩ := h.some ho
    refine ⟨[.equal p q (decide (store q = some v))], s, ?_,
      .inr ⟨.isEqual p q, store, ?_, h⟩⟩
    · rw [State.step, ho, Option.bind_some, isEqual_eq h ho hv]
      rfl
    · rw [Store.step, hv]
      rfl
  | dealloc p =>
    obtain ⟨o, ho⟩ := Option.isSome_iff_exists.mp hlegal
    obtain ⟨v, hv, -⟩ := h.some ho
    refine ⟨[], _, ?_, .inr ⟨.dealloc p, Function.update store p none, ?_, h.dealloc⟩⟩
    · rw [State.step, ho, Option.map_some, (mem_of_object ho).2]
    · rw [Store.step, hv]
      rfl

/-- A memory without values is an empty store. -/
theorem represents_init : Represents (State.init m) (fun _ => none : Store rt) :=
  ⟨List.Pairwise.nil, fun _ => .none⟩

theorem represents_of_run {es : List Event}
    (hrun : Machine.RunWhile (State.step rt) (State.Legal rt) (State.init m) es s) :
    ∃ store : Store rt, Machine.Run Store.step (fun _ => none) es store ∧
      Represents s store := by
  refine hrun.simulation Represents (fun hlegal h hstep => ?_) represents_init
  obtain ⟨es', s'', hstep', hshows⟩ := step_legal h hlegal
  obtain ⟨rfl, rfl⟩ := Prod.mk.inj (Option.some.inj (hstep.symm.trans hstep'))
  exact hshows

/-- Every run of legal calls is a run of calls on a store of immutable values that shows the
same, and no legal call that follows is undefined. -/
theorem immutable_of_run {es : List Event}
    (hrun : Machine.RunWhile (State.step rt) (State.Legal rt) (State.init m) es s) :
    (∃ store : Store rt, Machine.Run Store.step (fun _ => none) es store ∧
      Represents s store) ∧
      ∀ a, s.Legal rt a → ∃ fs s', s.step rt a = some (fs, s') := by
  obtain ⟨store, hstore, h⟩ := represents_of_run hrun
  refine ⟨⟨store, hstore, h⟩, fun a hlegal => ?_⟩
  obtain ⟨fs, s', hstep, -⟩ := step_legal h hlegal
  exact ⟨fs, s', hstep⟩

/-- What containers rely on. -/
structure Laws (rt : Runtime) (s : State) : Prop where
  /-- Two values always compare. -/
  total : ∀ {p o}, s.object p = some o → ∀ q, ∃ b, isEqual rt s o q = some b
  symm : ∀ {p q o o'}, s.object p = some o → s.object q = some o' →
    isEqual rt s o q = isEqual rt s o' p
  trans : ∀ {p q r o o'}, s.object p = some o → s.object q = some o' →
    isEqual rt s o q = some true → isEqual rt s o' r = some true → isEqual rt s o r = some true
  /-- The hash is compatible. -/
  hash_eq : ∀ {p q o o'}, s.object p = some o → s.object q = some o' →
    isEqual rt s o q = some true → hash rt s.memory o = hash rt s.memory o'
  /-- Equal are those with the same type and the same bytes. -/
  isEqual_iff : ∀ {p q o o'}, s.object p = some o → s.object q = some o' →
    (isEqual rt s o q = some true ↔ objCType s.memory o = objCType s.memory o' ∧
      s.memory.contents ⟨o.bytes, o.size⟩ = s.memory.contents ⟨o'.bytes, o'.size⟩)
  /-- The method that is overridden does the same, but for the text about missing bytes. -/
  inherited : ∀ {p o}, s.object p = some o → ∀ bytes n, ¬ (bytes = 0 ∧ n ≠ 0) →
    superGetValueSize rt s.memory o bytes n = getValueSize s.memory o bytes n
  /-- A value that is made of the bytes and the type of another one is equal to it. -/
  copy : ∀ {p q o o'}, s.object p = some o →
    allocateObject rt s.memory o.objCType o.typeSize q = some o' →
    s.Allocates o.bytes o.objCType o' →
    ∃ s', mulleNewWithBytes rt s o.bytes o.objCType o.typeSize q = some (.ok s') ∧
      isEqual rt s' o q = some true

theorem Represents.isEqual_true_iff (h : Represents s store) (ho : s.object p = .some o)
    (ho' : s.object q = .some o') :
    isEqual rt s o q = .some true ↔ store p = store q := by
  obtain ⟨v, hv, -⟩ := h.some ho
  obtain ⟨v', hv', -⟩ := h.some ho'
  rw [isEqual_eq h ho hv, hv, hv', Option.some.injEq, decide_eq_true_iff]
  exact eq_comm

theorem Represents.isEqual_iff (h : Represents s store) (ho : s.object p = .some o)
    (ho' : s.object q = .some o') :
    isEqual rt s o q = .some true ↔ objCType s.memory o = objCType s.memory o' ∧
      s.memory.contents ⟨o.bytes, o.size⟩ = s.memory.contents ⟨o'.bytes, o'.size⟩ := by
  obtain ⟨v, hv, hholds⟩ := h.some ho
  obtain ⟨v', hv', hholds'⟩ := h.some ho'
  have hcontents : s.memory.contents ⟨o.bytes, o.size⟩ = v.bytes := hholds.reads.1
  have hcontents' : s.memory.contents ⟨o'.bytes, o'.size⟩ = v'.bytes := hholds'.reads.1
  rw [h.isEqual_true_iff ho ho', hv, hv', hholds.objCType_eq, hholds'.objCType_eq, hcontents,
    hcontents', Option.some.injEq, Option.some.injEq]
  cases v
  cases v'
  simp only [Value.mk.injEq]

theorem Represents.copy (h : Represents s store) (ho : s.object p = .some o)
    (ho' : allocateObject rt s.memory o.objCType o.typeSize q = .some o')
    (halloc : s.Allocates o.bytes o.objCType o') :
    ∃ s', mulleNewWithBytes rt s o.bytes o.objCType o.typeSize q = .some (.ok s') ∧
      isEqual rt s' o q = .some true := by
  obtain ⟨v, hv, hholds⟩ := h.some ho
  have htype : o.objCType ≠ 0 := by
    have := hholds.bytes_ne
    rw [Object.objCType]
    omega
  obtain ⟨v', s', hbytes, hstring, hobjects, hnew, hstore, h'⟩ :=
    mulleNewWithBytes_eq h hholds.bytes_ne htype ho' halloc
  obtain ⟨t, ht, hsize, -, hq, -⟩ := of_allocateObject ho'
  have htypes : v'.type = v.type := hstring.unique hholds.stringAt
  have hsizes : o'.size = o.size := by
    rw [ht.unique hholds.stringAt, v.size_eq, ← hholds.size_eq] at hsize
    exact (Option.some.inj hsize).symm
  have hvalues : v' = v := by
    have hbytes : v'.bytes = v.bytes := by rw [hbytes, hsizes, hholds.reads.1]
    cases v
    cases v'
    simp only [Value.mk.injEq]
    exact ⟨htypes, hbytes⟩
  refine ⟨s', hnew, ?_⟩
  have hne : p ≠ q := by
    rintro rfl
    rw [Store.step, hv] at hstore
    simp at hstore
  have hobject : s'.object p = .some o := by
    rw [State.object, hobjects, List.find?_cons_of_neg]
    · exact ho
    · simpa using fun hp => hne (hp.symm.trans hq)
  have hobject' : s'.object q = .some o' := by
    rw [State.object, hobjects, List.find?_cons_of_pos]
    simpa using hq
  rw [h'.isEqual_true_iff hobject hobject', Function.update_self, Function.update_of_ne hne, hv,
    hvalues]

/-- Whenever values are compared, they are as containers want them. -/
theorem laws_of_run {es : List Event}
    (hrun : Machine.RunWhile (State.step rt) (State.Legal rt) (State.init m) es s) :
    Laws rt s := by
  obtain ⟨store, -, h⟩ := represents_of_run hrun
  refine ⟨?_, ?_, ?_, ?_, h.isEqual_iff, ?_, h.copy⟩
  · intro p o ho q
    obtain ⟨v, hv, -⟩ := h.some ho
    exact ⟨_, isEqual_eq h ho hv⟩
  · intro p q o o' ho ho'
    obtain ⟨v, hv, -⟩ := h.some ho
    obtain ⟨v', hv', -⟩ := h.some ho'
    rw [isEqual_eq h ho hv, isEqual_eq h ho' hv', hv, hv']
    exact congrArg some (decide_eq_decide.mpr eq_comm)
  · intro p q r o o' ho ho' hpq hqr
    obtain ⟨v, hv, -⟩ := h.some ho
    obtain ⟨v', hv', -⟩ := h.some ho'
    have heq := (h.isEqual_true_iff ho ho').mp hpq
    obtain rfl : v = v' := Option.some.inj (hv.symm.trans (heq.trans hv'))
    rw [isEqual_eq h ho' hv'] at hqr
    rw [isEqual_eq h ho hv]
    exact hqr
  · intro p q o o' ho ho' hpq
    obtain ⟨v, hv, hholds⟩ := h.some ho
    obtain ⟨v', hv', hholds'⟩ := h.some ho'
    have heq := (h.isEqual_true_iff ho ho').mp hpq
    obtain rfl : v = v' := Option.some.inj (hv.symm.trans (heq.trans hv'))
    rw [hholds.hash_eq, hholds'.hash_eq]
  · intro p o ho bytes n hnull
    obtain ⟨v, -, hholds⟩ := h.some ho
    rw [hholds.superGetValueSize_eq, if_neg hnull]

/-- `int` and pointers, and a hash of the FNV-1a kind. -/
def runtime64 : Runtime where
  size t := if t = [105] then some 4 else if t = [94, 118] then some 8 else none
  dataHash := List.foldl (fun h c => (h ^^^ c.toBitVec.setWidth 64) * 0x100000001b3)
    0xcbf29ce484222325

/-- An `int` at 100, and its type. -/
def buffers : Memory UInt8 := (Memory.write (fun _ => 0) 100 [7, 1, 0, 0]).write 110 [105, 0]

/-- The `int` is wrapped, and wrapped again from the first value. Its variable is overwritten. -/
def wraps : List Act :=
  [.mulleNewWithBytes 100 110 2 200, .mulleNewWithBytes 200 204 2 300, .write 100 [8],
    .isEqual 200 300, .getValueSize 300 120 4, .getValueSize 300 120 8, .dealloc 200,
    .isEqual 300 0]

theorem exists_wraps : ∃ s, Machine.RunWhile (State.step runtime64) (State.Legal runtime64)
    (State.init buffers)
    [.new 200, .new 300, .equal 200 300 true, .value 300 [7, 1, 0, 0],
      .raised ⟨"size should be %ld bytes on this platform", [4]⟩, .equal 300 0 false] s := by
  have h : (Machine.execWhile (State.step runtime64) (State.Legal runtime64)
      (State.init buffers) wraps).map Prod.fst =
      some [.new 200, .new 300, .equal 200 300 true, .value 300 [7, 1, 0, 0],
        .raised ⟨"size should be %ld bytes on this platform", [4]⟩, .equal 300 0 false] := by
    decide +kernel
  obtain ⟨⟨es, s⟩, hexec, rfl⟩ := Option.map_eq_some_iff.mp h
  exact ⟨s, Machine.runWhile_of_execWhile wraps hexec⟩

theorem immutable_of_run_wraps : ∃ s, (∃ store : Store runtime64, Machine.Run Store.step
    (fun _ => none) [.new 200, .new 300, .equal 200 300 true, .value 300 [7, 1, 0, 0],
      .raised ⟨"size should be %ld bytes on this platform", [4]⟩, .equal 300 0 false] store ∧
      Represents s store) ∧
      ∀ a, s.Legal runtime64 a → ∃ fs s', s.step runtime64 a = some (fs, s') := by
  obtain ⟨s, hrun⟩ := exists_wraps
  exact ⟨s, immutable_of_run hrun⟩

theorem laws_of_run_wraps : ∃ s, Machine.RunWhile (State.step runtime64) (State.Legal runtime64)
    (State.init buffers) [.new 200, .new 300, .equal 200 300 true, .value 300 [7, 1, 0, 0],
      .raised ⟨"size should be %ld bytes on this platform", [4]⟩, .equal 300 0 false] s ∧
      Laws runtime64 s := by
  obtain ⟨s, hrun⟩ := exists_wraps
  exact ⟨s, hrun, laws_of_run hrun⟩

end MulleObjC.NSValue
