import MulleObjC.Invocation.Forward
import MulleObjC.Library.Alignment

/-!
# Variable arguments

A caller stores the arguments of a new invocation in a list, each one promoted and at the
alignment of its promoted type. The arguments are taken from the list at a cursor, which
goes on by natural sizes and alignments, and converted back to their natural types. The
cursor keeps up with the list unless the promotion of an argument moves the next one.
-/

namespace MulleObjC.Invocation

/-- How the value of a type is promoted. -/
inductive Promotion
  | none
  /-- `char` and `short` -/
  | int
  /-- `float` -/
  | double
  deriving DecidableEq, Repr

/-- The bytes of a `float` that is not a number. -/
def isNaN (v : List UInt8) : Bool :=
  match v with
  | [a, b, c, d] => d % 128 == 127 && 128 ≤ c && !(a == 0 && b == 0 && c == 128)
  | _ => false

/-- `NSMethodSignature`, with the promotions of the types of its arguments. -/
structure VarargSignature (abi : MetaABI) extends NSMethodSignature abi where
  promotion : TypeInfo → Promotion
  promotion_int : ∀ a ∈ args, promotion a = .int → a.naturalSize < 4 ∧ a.type.alignment ∣ 4
  promotion_double : ∀ a ∈ args, promotion a = .double →
    a.naturalSize = 4 ∧ a.type.alignment = 4

/-- What the platform and the runtime do to promoted values. Numbers begin with their lowest
byte. -/
structure Conversions where
  /-- The byte that fills an `int` behind the value of a type. -/
  fill : TypeInfo → List UInt8 → UInt8
  toDouble : List UInt8 → List UInt8
  /-- `_mulle_methodsignature_arginfo_demote_value_to_natural`, to a size -/
  demote : Promotion → ℕ → List UInt8 → List UInt8
  length_toDouble : ∀ v, v.length = 4 → (toDouble v).length = 8
  toDouble_zero : toDouble [0, 0, 0, 0] = [0, 0, 0, 0, 0, 0, 0, 0]
  toDouble_one : toDouble [0, 0, 128, 63] = [0, 0, 0, 0, 0, 0, 240, 63]
  /-- An `int` is truncated, and what was not promoted is copied. -/
  demote_eq_take : ∀ p n bytes, p ≠ .double → demote p n bytes = bytes.take n
  length_demote : ∀ bytes, bytes.length = 8 → (demote .double 4 bytes).length = 4
  demote_toDouble : ∀ v, v.length = 4 → isNaN v = false → demote .double 4 (toDouble v) = v

variable {abi : MetaABI} (conv : Conversions) (sig : VarargSignature abi)

namespace VarargSignature

/-- The size of a value in the list. -/
def promotedSize (a : TypeInfo) : ℕ :=
  match sig.promotion a with
  | .none => a.naturalSize
  | .int => 4
  | .double => 8

/-- The alignment of a value in the list. -/
def promotedAlignment (a : TypeInfo) : ℕ :=
  match sig.promotion a with
  | .none => a.type.alignment
  | .int => 4
  | .double => 8

/-- The bytes of a value in the list. -/
def promote (a : TypeInfo) (v : List UInt8) : List UInt8 :=
  match sig.promotion a with
  | .none => v
  | .int => v ++ List.replicate (4 - v.length) (conv.fill a v)
  | .double => conv.toDouble v

/-- The value at an address of the list, converted back to its natural type. -/
def demoteAt (list : Memory UInt8) (a : TypeInfo) (src : ℕ) : List UInt8 :=
  conv.demote (sig.promotion a) a.naturalSize (list.read src (sig.promotedSize a))

/-- What becomes of a value that is promoted and converted back. -/
def passed (a : TypeInfo) (v : List UInt8) : List UInt8 :=
  conv.demote (sig.promotion a) a.naturalSize (sig.promote conv a v)

/-- The list has the values, promoted, behind others. -/
def Stores (list : Memory UInt8) : List TypeInfo → List (List UInt8) → ℕ → Prop
  | a :: as, v :: vs, e =>
    v.length = a.naturalSize ∧
      list.read (alignUp e (sig.promotedAlignment a)) (sig.promotedSize a) =
        sig.promote conv a v ∧
      Stores list as vs (alignUp e (sig.promotedAlignment a) + sig.promotedSize a)
  | [], [], _ => True
  | _, _, _ => False

/-- Each value is where the natural end of the value in front of it leads to. -/
def InStep : List TypeInfo → ℕ → ℕ → Prop
  | [], _, _ => True
  | a :: as, e, c =>
    alignUp c a.type.alignment = alignUp e (sig.promotedAlignment a) ∧
      InStep as (alignUp e (sig.promotedAlignment a) + sig.promotedSize a)
        (alignUp e (sig.promotedAlignment a) + a.naturalSize)

instance decidableInStep (as : List TypeInfo) (e c : ℕ) : Decidable (sig.InStep as e c) :=
  match as with
  | [] => isTrue trivial
  | _ :: as => @instDecidableAnd _ _ _ (decidableInStep as _ _)

/-- The values that are taken from the list, from a cursor on. -/
def demotedValues (list : Memory UInt8) : List TypeInfo → ℕ → List (List UInt8)
  | [], _ => []
  | a :: as, c =>
    sig.demoteAt conv list a (alignUp c a.type.alignment) ::
      demotedValues list as (alignUp c a.type.alignment + a.naturalSize)

end VarargSignature

namespace NSInvocation

/-- `NSMethodSignatureCopyDemotedValuesToNatural`, from an index and a cursor on. -/
def copyDemotedValuesToNatural (list : Memory UInt8) :
    List TypeInfo → ℕ → ℕ → NSInvocation sig.toNSMethodSignature →
      Except Failure (NSInvocation sig.toNSMethodSignature)
  | [], _, _, inv => .ok inv
  | a :: as, i, c, inv =>
    if a.slotEnd ≤ inv.size then
      -- `_mulle_vararg_aligned_struct`, of the natural size and alignment
      let src := alignUp c a.type.alignment
      copyDemotedValuesToNatural list as (i + 1) (src + a.naturalSize)
        (inv.store a.invocationOffset (sig.demoteAt conv list a src))
    else .error (.invalidIndex i)

/-- `NSInvocationCreateV`, of a list at an address. -/
def createV (target sel : List UInt8) (list : Memory UInt8) (arguments : ℕ) :
    Except Failure (NSInvocation sig.toNSMethodSignature) := do
  let inv ← (invocationWithMethodSignature sig.toNSMethodSignature).setArgumentAtIndex target 0
  let inv ← inv.setArgumentAtIndex sel 1
  copyDemotedValuesToNatural conv sig list sig.args 2 arguments inv

end NSInvocation

/-- A new invocation has the target, the selector and the values that were passed in a list at
an address. -/
def VarargSignature.Delivers (arguments : ℕ) : Prop :=
  ∀ target sel vs list, target.length = 8 → sel.length = abi.sizeofSEL →
    sig.Stores conv list sig.args vs arguments →
    ∃ inv, NSInvocation.createV conv sig target sel list arguments = .ok inv ∧
      inv.target = .ok target ∧ inv.selector = .ok sel ∧
      ∀ i a v, sig.args[i]? = some a → vs[i]? = some v →
        inv.getArgumentAtIndex (i + 2) = .ok (sig.passed conv a v)

namespace VarargSignature

variable {conv sig} {a : TypeInfo} {as : List TypeInfo} {vs : List (List UInt8)}
  {v bytes : List UInt8} {list m : Memory UInt8} {c e : ℕ}

theorem naturalSize_le_promotedSize (ha : a ∈ sig.args) :
    a.naturalSize ≤ sig.promotedSize a := by
  unfold promotedSize
  split
  · exact Nat.le_refl _
  · next hint =>
    have hsize := (sig.promotion_int a ha hint).1
    omega
  · next hdouble =>
    have hsize := (sig.promotion_double a ha hdouble).1
    omega

theorem alignment_dvd_promotedAlignment (ha : a ∈ sig.args) :
    a.type.alignment ∣ sig.promotedAlignment a := by
  unfold promotedAlignment
  split
  · exact Nat.dvd_refl _
  · next hint => exact (sig.promotion_int a ha hint).2
  · next hdouble =>
    rw [(sig.promotion_double a ha hdouble).2]
    decide

theorem promotedAlignment_pos (sig : VarargSignature abi) (a : TypeInfo) :
    0 < sig.promotedAlignment a := by
  unfold promotedAlignment
  split
  · exact a.type.alignment_pos
  · decide
  · decide

/-- The cursor never overtakes the list. -/
theorem alignUp_le_alignUp (ha : a ∈ sig.args) (h : c ≤ e) :
    alignUp c a.type.alignment ≤ alignUp e (sig.promotedAlignment a) :=
  (alignUp.mono a.type.alignment_pos h).trans
    (alignUp.le_alignUp a.type.alignment_pos (sig.promotedAlignment_pos a)
      (alignment_dvd_promotedAlignment ha))

theorem length_promote (conv : Conversions) (ha : a ∈ sig.args) (hv : v.length = a.naturalSize) :
    (sig.promote conv a v).length = sig.promotedSize a := by
  unfold promote promotedSize
  split
  · exact hv
  · next hint =>
    have hsize := (sig.promotion_int a ha hint).1
    rw [List.length_append, List.length_replicate]
    omega
  · next hdouble =>
    refine conv.length_toDouble v ?_
    rw [hv, (sig.promotion_double a ha hdouble).1]

theorem length_demoteAt (conv : Conversions) (list : Memory UInt8) (ha : a ∈ sig.args) (src : ℕ) :
    (sig.demoteAt conv list a src).length = a.naturalSize := by
  have hle := naturalSize_le_promotedSize ha
  unfold demoteAt
  by_cases hdouble : sig.promotion a = .double
  · have hsize := (sig.promotion_double a ha hdouble).1
    rw [hdouble, hsize]
    refine conv.length_demote _ ?_
    simp [promotedSize, hdouble]
  · rw [conv.demote_eq_take _ _ _ hdouble, List.length_take, Memory.length_read]
    omega

/-- A value is itself again, but for a `float` that is not a number. -/
theorem passed_eq (ha : a ∈ sig.args) (hv : v.length = a.naturalSize)
    (hnan : sig.promotion a = .double → isNaN v = false) : sig.passed conv a v = v := by
  unfold passed promote
  split
  · next hnone =>
    rw [hnone, conv.demote_eq_take _ _ _ (by decide), List.take_of_length_le (by omega)]
  · next hint =>
    rw [hint, conv.demote_eq_take _ _ _ (by decide), List.take_left' hv]
  · next hdouble =>
    have hsize := (sig.promotion_double a ha hdouble).1
    rw [hdouble, hsize]
    exact conv.demote_toDouble v (by omega) (hnan hdouble)

theorem demoteAt_of_read {src : ℕ}
    (h : list.read src (sig.promotedSize a) = sig.promote conv a v) :
    sig.demoteAt conv list a src = sig.passed conv a v := by
  rw [demoteAt, h, passed]

/-- As long as they are in step, the cursor finds the values of the list. -/
theorem demotedValues_eq (h : sig.Stores conv list as vs e) (hstep : sig.InStep as e c) :
    sig.demotedValues conv list as c = List.zipWith (sig.passed conv) as vs := by
  induction as generalizing vs e c with
  | nil => simp [demotedValues]
  | cons a as ih =>
    cases vs with
    | nil => exact h.elim
    | cons v vs =>
      obtain ⟨-, hread, hstores⟩ := h
      obtain ⟨hoffset, hstep⟩ := hstep
      rw [demotedValues, hoffset, List.zipWith_cons_cons, demoteAt_of_read hread,
        ih hstores hstep]

/-- Values that are not promoted are in step. -/
theorem inStep_of_none (h : ∀ a ∈ as, sig.promotion a = .none) (e : ℕ) : sig.InStep as e e := by
  induction as generalizing e with
  | nil => trivial
  | cons a as ih =>
    obtain ⟨ha, has⟩ := List.forall_mem_cons.mp h
    have hsize : sig.promotedSize a = a.naturalSize := by rw [promotedSize, ha]
    have halignment : sig.promotedAlignment a = a.type.alignment := by rw [promotedAlignment, ha]
    rw [InStep, hsize, halignment]
    exact ⟨rfl, ih has _⟩

/-- A value in front of others. -/
theorem stores_cons (ha : a ∈ sig.args) (hv : v.length = a.naturalSize)
    (hlist : ∀ q < alignUp e (sig.promotedAlignment a) + sig.promotedSize a,
      list q = m.write (alignUp e (sig.promotedAlignment a)) (sig.promote conv a v) q)
    (h : sig.Stores conv list as vs
      (alignUp e (sig.promotedAlignment a) + sig.promotedSize a)) :
    sig.Stores conv list (a :: as) (v :: vs) e := by
  refine ⟨hv, ?_, h⟩
  have hwritten := Memory.read_write_of_length (m := m)
    (p := alignUp e (sig.promotedAlignment a)) (length_promote conv ha hv)
  rw [← hwritten]
  exact Memory.read_congr fun i hi => hlist _ (by omega)

/-- A value behind others leaves those alone. -/
theorem write_promote_of_lt {q : ℕ} (hq : q < e) :
    m.write (alignUp e (sig.promotedAlignment a)) bytes q = m q := by
  have hle := alignUp.le (n := e) (sig.promotedAlignment_pos a)
  exact Memory.write_of_lt_or_le (.inl (by omega))

/-- Whatever lies in front, there are lists with values for all arguments. -/
theorem exists_stores (conv : Conversions) (hargs : as ⊆ sig.args) (m : Memory UInt8) (e : ℕ) :
    ∃ vs list, (∀ q < e, list q = m q) ∧ sig.Stores conv list as vs e := by
  induction as generalizing m e with
  | nil => exact ⟨[], m, fun _ _ => rfl, trivial⟩
  | cons a as ih =>
    obtain ⟨ha, hargs⟩ := List.cons_subset.mp hargs
    have hv : (List.replicate a.naturalSize (0 : UInt8)).length = a.naturalSize := by simp
    obtain ⟨vs, list, hlist, hstores⟩ := ih hargs
      (m.write (alignUp e (sig.promotedAlignment a)) (sig.promote conv a (List.replicate _ 0)))
      (alignUp e (sig.promotedAlignment a) + sig.promotedSize a)
    refine ⟨_ :: vs, list, fun q hq => ?_, stores_cons ha hv hlist hstores⟩
    have hle := alignUp.le (n := e) (sig.promotedAlignment_pos a)
    rw [hlist q (by omega), write_promote_of_lt hq]

/-- What is not promoted to a `double` begins with the byte at the cursor. -/
theorem head_demoteAt (conv : Conversions) (hdouble : sig.promotion a ≠ .double) (ha : a ∈ sig.args)
    (list : Memory UInt8) (src : ℕ) :
    (sig.demoteAt conv list a src)[0]? = some (list src) := by
  have hpos := sig.args_pos a ha
  have hle := naturalSize_le_promotedSize ha
  rw [demoteAt, conv.demote_eq_take _ _ _ hdouble, List.getElem?_take_of_lt hpos,
    Memory.getElem?_read (by omega), Nat.add_zero]

/-- Four bytes in front of them, zero and one look the same. -/
theorem read_zero_eq_read_one (conv : Conversions) (m : Memory UInt8) {p src : ℕ}
    (h : src + 4 ≤ p) :
    (m.write p (conv.toDouble [0, 0, 0, 0])).read src 8 =
      (m.write p (conv.toDouble [0, 0, 128, 63])).read src 8 := by
  rw [conv.toDouble_zero, conv.toDouble_one]
  refine Memory.read_congr fun i hi => ?_
  by_cases hlt : src + i < p
  · rw [Memory.write_of_lt_or_le (.inl hlt), Memory.write_of_lt_or_le (.inl hlt)]
  · obtain ⟨j, hj⟩ := Nat.exists_eq_add_of_le (Nat.le_of_not_lt hlt)
    have hj4 : j < 4 := by omega
    rw [hj, Memory.write_apply (by simp; omega), Memory.write_apply (by simp; omega)]
    obtain rfl | rfl | rfl | rfl : j = 0 ∨ j = 1 ∨ j = 2 ∨ j = 3 := by omega
    all_goals rfl

/-- A cursor in front of a value can not know it. -/
theorem alignUp_eq_of_demoteAt (conv : Conversions) (m : Memory UInt8) (ha : a ∈ sig.args)
    (hce : c ≤ e)
    (h : ∀ v, v.length = a.naturalSize →
      sig.demoteAt conv (m.write (alignUp e (sig.promotedAlignment a)) (sig.promote conv a v)) a
        (alignUp c a.type.alignment) = sig.passed conv a v) :
    alignUp c a.type.alignment = alignUp e (sig.promotedAlignment a) := by
  by_contra hne
  have hlt := Nat.lt_of_le_of_ne (alignUp_le_alignUp ha hce) hne
  by_cases hdouble : sig.promotion a = .double
  · obtain ⟨hsize, halignment⟩ := sig.promotion_double a ha hdouble
    have hzero := h [0, 0, 0, 0] (by simp [hsize])
    have hone := h [0, 0, 128, 63] (by simp [hsize])
    rw [passed_eq ha (by simp [hsize]) fun _ => by decide] at hzero hone
    -- both are multiples of four
    have hgap : alignUp c a.type.alignment + 4 ≤ alignUp e (sig.promotedAlignment a) := by
      have hc : 4 ∣ alignUp c a.type.alignment := by
        rw [halignment]
        exact alignUp.dvd
      have he : 4 ∣ alignUp e (sig.promotedAlignment a) := by
        rw [promotedAlignment, hdouble]
        exact Nat.dvd_trans (Nat.dvd_mul_right 4 2) alignUp.dvd
      omega
    have hread := read_zero_eq_read_one conv m hgap
    simp only [demoteAt, promote, promotedSize, hdouble] at hzero hone
    rw [hread, hone] at hzero
    exact absurd hzero (by decide)
  · have hbyte {b : UInt8} : some b = some (m (alignUp c a.type.alignment)) := by
      have hb := h (List.replicate a.naturalSize b) (by simp)
      rw [passed_eq ha (by simp) fun hd => absurd hd hdouble] at hb
      have hhead := head_demoteAt conv hdouble ha
        (m.write (alignUp e (sig.promotedAlignment a))
          (sig.promote conv a (List.replicate a.naturalSize b)))
        (alignUp c a.type.alignment)
      rw [hb, Memory.write_of_lt_or_le (.inl hlt)] at hhead
      rw [← hhead, List.getElem?_replicate_of_lt (sig.args_pos a ha)]
    have hzero := (hbyte (b := 0)).trans (hbyte (b := 1)).symm
    exact absurd hzero (by decide)

/-- If the cursor finds the values of every list that begins with some bytes, it is in step. -/
theorem inStep_of_demotedValues (conv : Conversions) (hargs : as ⊆ sig.args) (hce : c ≤ e)
    (m : Memory UInt8)
    (h : ∀ vs list, (∀ q < e, list q = m q) → sig.Stores conv list as vs e →
      sig.demotedValues conv list as c = List.zipWith (sig.passed conv) as vs) :
    sig.InStep as e c := by
  induction as generalizing m e c with
  | nil => trivial
  | cons a as ih =>
    obtain ⟨ha, hargs⟩ := List.cons_subset.mp hargs
    have hfront := alignUp.le (n := e) (sig.promotedAlignment_pos a)
    have hoffset : alignUp c a.type.alignment = alignUp e (sig.promotedAlignment a) := by
      refine alignUp_eq_of_demoteAt conv m ha hce fun v hv => ?_
      obtain ⟨vs, list, hlist, hstores⟩ := exists_stores conv hargs
        (m.write (alignUp e (sig.promotedAlignment a)) (sig.promote conv a v))
        (alignUp e (sig.promotedAlignment a) + sig.promotedSize a)
      have hvalues := h (v :: vs) list
        (fun q hq => by rw [hlist q (by omega), write_promote_of_lt hq])
        (stores_cons ha hv hlist hstores)
      rw [demotedValues, List.zipWith_cons_cons] at hvalues
      rw [← (List.cons.inj hvalues).1, demoteAt, demoteAt]
      have hle := alignUp_le_alignUp ha hce
      congr 1
      exact Memory.read_congr fun i hi => (hlist _ (by omega)).symm
    refine ⟨hoffset, ih hargs (Nat.add_le_add_left (naturalSize_le_promotedSize ha) _)
      (m.write (alignUp e (sig.promotedAlignment a))
        (sig.promote conv a (List.replicate a.naturalSize 0))) fun vs list hlist hstores => ?_⟩
    have hvalues := h (List.replicate a.naturalSize 0 :: vs) list
      (fun q hq => by rw [hlist q (by omega), write_promote_of_lt hq])
      (stores_cons ha (by simp) hlist hstores)
    rw [demotedValues, List.zipWith_cons_cons, hoffset] at hvalues
    exact (List.cons.inj hvalues).2

end VarargSignature

namespace NSInvocation

variable {conv sig} {target sel : List UInt8} {list : Memory UInt8}

/-- Each value is stored in its slot, and nothing else changes. -/
theorem copyDemotedValuesToNatural_spec (conv : Conversions) (list : Memory UInt8)
    {as : List TypeInfo} (hargs : as ⊆ sig.args)
    (hordered : as.Pairwise fun a b => a.slotEnd ≤ b.invocationOffset) (i c : ℕ)
    (inv : NSInvocation sig.toNSMethodSignature) :
    ∃ inv', copyDemotedValuesToNatural conv sig list as i c inv = .ok inv' ∧
      (∀ q k, (∀ a ∈ as, Memory.Apart a.invocationOffset a.naturalSize q k) →
        inv'.storage.read q k = inv.storage.read q k) ∧
      as.map (fun a => inv'.storage.read a.invocationOffset a.naturalSize) =
        sig.demotedValues conv list as c := by
  induction as generalizing i c inv with
  | nil => exact ⟨inv, rfl, fun _ _ _ => rfl, rfl⟩
  | cons a as ih =>
    obtain ⟨ha, hargs⟩ := List.cons_subset.mp hargs
    obtain ⟨hfirst, hordered⟩ := List.pairwise_cons.mp hordered
    have hfits : a.slotEnd ≤ inv.size :=
      (sig.slotEnd_le_invocationSize (List.mem_of_mem_tail (sig.args_mem ha))).trans
        inv.invocationSize_le
    have hlength := sig.length_demoteAt conv list ha (alignUp c a.type.alignment)
    obtain ⟨inv', hcopy, hframe, hvalues⟩ := ih hargs hordered (i + 1)
      (alignUp c a.type.alignment + a.naturalSize)
      (inv.store a.invocationOffset (sig.demoteAt conv list a (alignUp c a.type.alignment)))
    refine ⟨inv', ?_, fun q k hq => ?_, ?_⟩
    · rw [copyDemotedValuesToNatural, if_pos hfits]
      exact hcopy
    · obtain ⟨hq, hqs⟩ := List.forall_mem_cons.mp hq
      rw [hframe q k hqs, store_storage, Memory.read_write_of_apart (by rwa [hlength])]
    · have hread := hframe a.invocationOffset a.naturalSize fun b hb => .inr (hfirst b hb)
      rw [store_storage, Memory.read_write_of_length hlength] at hread
      rw [List.map_cons, hread, hvalues, VarargSignature.demotedValues]

/-- A new invocation has the target, the selector and what the cursor finds. -/
theorem createV_spec (conv : Conversions) (sig : VarargSignature abi) (list : Memory UInt8)
    (arguments : ℕ) (htarget : target.length = 8) (hsel : sel.length = abi.sizeofSEL) :
    ∃ inv, createV conv sig target sel list arguments = .ok inv ∧ inv.target = .ok target ∧
      inv.selector = .ok sel ∧
      sig.args.map (fun a => inv.storage.read a.invocationOffset a.naturalSize) =
        sig.demotedValues conv list sig.args arguments := by
  obtain ⟨inv, hcopy, hframe, hvalues⟩ := copyDemotedValuesToNatural_spec conv list
    (List.Subset.refl sig.args) (List.pairwise_cons.mp sig.args_ordered).2 2 arguments
    (withSelector sig.toNSMethodSignature target sel)
  have hle := abi.sizeofSEL_le
  have hbehind {q k : ℕ} (hk : q + k ≤ 16) :
      inv.storage.read q k =
        (withSelector sig.toNSMethodSignature target sel).storage.read q k := by
    refine hframe q k fun a ha => .inr ?_
    have hge := sig.args_ge ha
    omega
  refine ⟨inv, ?_, ?_, ?_, hvalues⟩
  · simp only [createV, setTarget_eq htarget, setSelector_eq hsel, bind, Except.bind]
    exact hcopy
  · have hread : (withSelector sig.toNSMethodSignature target sel).storage.read 0 8 = target := by
      unfold withSelector
      rw [store_storage, Memory.read_write_of_apart (.inr (by omega)), store_storage,
        Memory.read_write_of_length htarget]
    rw [target_eq, storedTarget, hbehind (by omega), hread]
  · rw [selector_eq, storedSelector, hbehind (by omega)]
    exact congrArg _ (storedSelector_withSelector_self hsel)

end NSInvocation

/-- The values of the slots are those that are read back. -/
theorem NSInvocation.map_read_eq_iff {conv : Conversions} {sig : VarargSignature abi}
    {inv : NSInvocation sig.toNSMethodSignature} {vs : List (List UInt8)}
    (hlength : vs.length = sig.args.length) :
    sig.args.map (fun a => inv.storage.read a.invocationOffset a.naturalSize) =
        List.zipWith (sig.passed conv) sig.args vs ↔
      ∀ i a v, sig.args[i]? = some a → vs[i]? = some v →
        inv.getArgumentAtIndex (i + 2) = .ok (sig.passed conv a v) := by
  constructor
  · intro h i a v ha hv
    have hi := congrArg (·[i]?) h
    simp only [List.getElem?_map, List.getElem?_zipWith, ha, hv, Option.map_some] at hi
    rw [getArgumentAtIndex, getValue_eq (i := i + 3) ha, Option.some.inj hi]
  · intro h
    refine List.ext_getElem (by simp [hlength]) fun i hi hi' => ?_
    rw [List.length_map] at hi
    have hread := h i sig.args[i] vs[i] (List.getElem?_eq_getElem hi)
      (List.getElem?_eq_getElem (hlength ▸ hi))
    rw [getArgumentAtIndex, getValue_eq (i := i + 3) (List.getElem?_eq_getElem hi)] at hread
    rw [List.getElem_map, List.getElem_zipWith]
    exact Except.ok.inj hread

theorem VarargSignature.Stores.length_eq {conv : Conversions} {sig : VarargSignature abi}
    {list : Memory UInt8} {as : List TypeInfo} {vs : List (List UInt8)} {e : ℕ}
    (h : sig.Stores conv list as vs e) : vs.length = as.length := by
  induction as generalizing vs e with
  | nil =>
    cases vs with
    | nil => rfl
    | cons v vs => exact h.elim
  | cons a as ih =>
    cases vs with
    | nil => exact h.elim
    | cons v vs => simp [ih h.2.2]

/-- A new invocation has what was passed, whatever was, if and only if each promoted value is
where the natural end of the value in front of it leads to. -/
theorem VarargSignature.delivers_iff {abi : MetaABI} (conv : Conversions)
    (sig : VarargSignature abi) (arguments : ℕ) :
    sig.Delivers conv arguments ↔ sig.InStep sig.args arguments arguments := by
  constructor
  · intro h
    refine inStep_of_demotedValues conv (List.Subset.refl _) (Nat.le_refl arguments)
      (fun _ => 0) fun vs list _ hstores => ?_
    have htarget : (List.replicate 8 (0 : UInt8)).length = 8 := by simp
    have hsel : (List.replicate abi.sizeofSEL (0 : UInt8)).length = abi.sizeofSEL := by simp
    obtain ⟨inv, hcreate, -, -, hvalues⟩ := h _ _ vs list htarget hsel hstores
    obtain ⟨inv', hcreate', -, -, hread⟩ :=
      NSInvocation.createV_spec conv sig list arguments htarget hsel
    obtain rfl : inv' = inv := Except.ok.inj (hcreate'.symm.trans hcreate)
    rw [← hread]
    exact (NSInvocation.map_read_eq_iff hstores.length_eq).mpr hvalues
  · intro h target sel vs list htarget hsel hstores
    obtain ⟨inv, hcreate, htargetEq, hselEq, hread⟩ :=
      NSInvocation.createV_spec conv sig list arguments htarget hsel
    rw [demotedValues_eq hstores h] at hread
    exact ⟨inv, hcreate, htargetEq, hselEq,
      (NSInvocation.map_read_eq_iff hstores.length_eq).mp hread⟩

theorem charThen_ordered (b : Ty) :
    [⟨8, selectorType⟩, ⟨16, .scalar ⟨1, 0, Scalar.char_aligned⟩⟩,
      ⟨alignUp 17 b.alignment, b⟩].Pairwise fun c d : TypeInfo =>
        c.slotEnd ≤ d.invocationOffset := by
  have hle := alignUp.le (n := 17) b.alignment_pos
  simp [TypeInfo.slotEnd, TypeInfo.naturalSize, selectorType, Ty.size]
  omega

/-- `- (void) foo:(char) a bar:(...) b`, with an argument of any type behind a `char`. -/
def charThen (b : Ty) (hpos : 0 < b.size) : NSMethodSignature metaABI64 where
  paramType := .parameterBlock
  returnType := .void
  rval :=
    ⟨metaABI64.sizeofUnion (alignUp 17 b.alignment + b.size), .scalar ⟨0, 0, Scalar.void_aligned⟩⟩
  self := ⟨0, .retainId⟩
  cmd := ⟨8, selectorType⟩
  args := [⟨16, .scalar ⟨1, 0, Scalar.char_aligned⟩⟩, ⟨alignUp 17 b.alignment, b⟩]
  self_offset := TypeInfo.target_offset
  self_size := TypeInfo.target_size
  cmd_offset := TypeInfo.selector_offset
  cmd_size := TypeInfo.selector_size
  args_offset := by simp
  args_ordered := charThen_ordered b
  args_pos := by simpa [TypeInfo.naturalSize, Ty.size] using hpos
  rval_offset := Nat.le_refl _
  rval_end := Nat.le_add_right _ 8
  paramType_void := by simp
  paramType_voidPointer := by simp
  returnType_voidPointer := by simp
  returnType_block := by simp

/-- `- (void) foo:(char) a bar:(char) b` -/
def charChar : VarargSignature metaABI64 where
  toNSMethodSignature := charThen (.scalar ⟨1, 0, Scalar.char_aligned⟩) (by decide)
  promotion _ := .int
  promotion_int := by simp [charThen, TypeInfo.naturalSize, Ty.size, Ty.alignment, Ty.alignmentLog]
  promotion_double := by simp

/-- `- (void) foo:(char) a bar:(int) b` -/
def charInt : VarargSignature metaABI64 where
  toNSMethodSignature := charThen (.scalar ⟨4, 2, Scalar.int_aligned⟩) (by decide)
  promotion a := if a.naturalSize = 1 then .int else .none
  promotion_int := by simp [charThen, TypeInfo.naturalSize, Ty.size, Ty.alignment, Ty.alignmentLog]
  promotion_double := by simp [charThen, TypeInfo.naturalSize, Ty.size]

/-- Exchange the last bytes of one as a `float` and as a `double`. -/
def swapOne (v : List UInt8) : List UInt8 :=
  if v = [0, 0, 128, 63] then [0, 0, 240, 63]
  else if v = [0, 0, 240, 63] then [0, 0, 128, 63]
  else v

/-- Conversions that are right for zero, for one and for all signed integers. -/
def someConversions : Conversions where
  fill _ v := if 128 ≤ v.getLastD 0 then 255 else 0
  toDouble v := [0, 0, 0, 0] ++ swapOne v
  demote p n bytes := if p = .double then swapOne (bytes.drop 4) else bytes.take n
  length_toDouble v hv := by
    unfold swapOne
    split
    · rfl
    · split
      · rfl
      · simp [hv]
  toDouble_zero := by decide
  toDouble_one := by decide
  demote_eq_take p n bytes hp := by simp [hp]
  length_demote bytes hbytes := by
    unfold swapOne
    simp only [if_true]
    split
    · rfl
    · split
      · rfl
      · simp [hbytes]
  demote_toDouble v _ _ := by
    simp only [if_true, List.drop_left' (show [(0 : UInt8), 0, 0, 0].length = 4 from rfl)]
    unfold swapOne
    split
    · next h => simp [h]
    · next h =>
      split
      · next h' => simp [h']
      · rfl

/-- An `int` behind a `char` is delivered, from a list behind a target and a selector. -/
theorem charInt_delivered : charInt.Delivers someConversions 12 :=
  (VarargSignature.delivers_iff _ _ _).mpr (by decide)

/-- Two characters as they are passed. -/
def oneTwo : Memory UInt8 := Memory.write (fun _ => 0) 0 [1, 0, 0, 0, 2, 0, 0, 0]

/-- The second character is taken from the second byte of the first one. -/
theorem charChar_not_delivered :
    charChar.Stores someConversions oneTwo charChar.args [[1], [2]] 0 ∧
      (NSInvocation.createV someConversions charChar someTarget someSelector oneTwo 0 >>=
        fun inv => inv.getArgumentAtIndex 3) = .ok [0] ∧
      ¬ charChar.Delivers someConversions 0 := by
  have hstores : charChar.Stores someConversions oneTwo charChar.args [[1], [2]] 0 :=
    ⟨rfl, by decide, rfl, by decide, trivial⟩
  have hread : (NSInvocation.createV someConversions charChar someTarget someSelector oneTwo 0 >>=
      fun inv => inv.getArgumentAtIndex 3) = .ok [0] := rfl
  refine ⟨hstores, hread, fun h => ?_⟩
  obtain ⟨inv, hcreate, -, -, hvalues⟩ := h someTarget someSelector _ _ rfl rfl hstores
  have hsecond := hvalues 1 _ _ rfl rfl
  rw [hcreate] at hread
  exact absurd (hsecond.symm.trans hread) (by decide)

end MulleObjC.Invocation
