import Mathlib.Algebra.Order.Ring.Int
import Mathlib.Tactic.Ring
import MulleObjC.Describe.Spans

/-!
# The cursor in a nested type

Behind the first member of a union the cursor goes on to the next closing bracket. This bracket
may belong to a union among the other members. From then on there is a closing bracket too many.
-/

namespace MulleObjC.Describe

open Encoding (encodeAll)

/-- `mulle_objc_signature_next_type` goes on behind the target of a pointer. -/
structure SkipsTargets (nextType : List Char → List Char) : Prop where
  pointer : SkipsPointer nextType
  target : ∀ (target : Opaque) {rest}, StartsWithoutDigit rest →
    nextType ('^' :: (target.encode ++ rest)) = rest
  encoding : ∀ (t : Encoding) {rest}, StartsWithoutDigit rest →
    nextType ('^' :: (t.encode ++ rest)) = rest

/-- The closing brackets of unions that are too many. -/
def surplus (s : List Char) : ℤ := s.count ')' - s.count '('

section Surplus

variable {c : Char} {s s' front back : List Char}

theorem surplus_append : surplus (s ++ s') = surplus s + surplus s' := by
  simp only [surplus, List.count_append]
  omega

theorem surplus_cons (hopen : c ≠ '(') (hclose : c ≠ ')') : surplus (c :: s) = surplus s := by
  simp [surplus, hopen, hclose]

theorem surplus_open : surplus ('(' :: s) = surplus s - 1 := by
  simp only [surplus, List.count_cons_self, List.count_cons_of_ne (show '(' ≠ ')' by decide)]
  omega

theorem surplus_close : surplus (')' :: s) = surplus s + 1 := by
  simp only [surplus, List.count_cons_self, List.count_cons_of_ne (show ')' ≠ '(' by decide)]
  omega

theorem surplus_nonpos (hclose : ')' ∉ s) : surplus s ≤ 0 := by
  rw [surplus, List.count_eq_zero.mpr hclose]
  omega

theorem surplus_neg (hclose : ')' ∉ s) (hopen : '(' ∈ s) : surplus s < 0 := by
  have hcount := List.count_pos_iff.mpr hopen
  rw [surplus, List.count_eq_zero.mpr hclose]
  omega

theorem surplus_eq_zero (hs : NoBracket s) : surplus s = 0 := by
  have hopen : '(' ∉ s := fun h => by simpa [opens] using (hs _ h).1
  have hclose : ')' ∉ s := fun h => by simpa [closes] using (hs _ h).2
  rw [surplus, List.count_eq_zero.mpr hopen, List.count_eq_zero.mpr hclose]
  rfl

theorem NoBracket.close_notMem (hs : NoBracket s) : ')' ∉ s :=
  fun h => by simpa [closes] using (hs _ h).2

/-- A closing bracket of a union is in one of two parts. -/
theorem append_eq_append_close (h : s ++ s' = front ++ ')' :: back) :
    (∃ b, s = front ++ ')' :: b ∧ back = b ++ s') ∨
      ∃ f, front = s ++ f ∧ s' = f ++ ')' :: back := by
  rcases List.append_eq_append_iff.mp h with ⟨f, hfront, hs'⟩ | ⟨b, hs, hback⟩
  · exact .inr ⟨f, hfront, hs'⟩
  · cases b with
    | nil => exact .inr ⟨[], by simpa using hs.symm, by simpa using hback.symm⟩
    | cons c b =>
      obtain ⟨rfl, rfl⟩ := List.cons.inj hback
      exact .inl ⟨b, hs, rfl⟩

/-- If the first part has none, it is in the second. -/
theorem of_append_close (hs : ')' ∉ s) (h : s ++ s' = front ++ ')' :: back) :
    ∃ f, front = s ++ f ∧ s' = f ++ ')' :: back := by
  rcases append_eq_append_close h with ⟨b, rfl, _⟩ | hback
  · simp at hs
  · exact hback

theorem of_cons_close (hc : c ≠ ')') (h : c :: s' = front ++ ')' :: back) :
    ∃ f, front = c :: f ∧ s' = f ++ ')' :: back :=
  of_append_close (s := [c]) (by simpa using hc.symm) h

end Surplus

/-- The brackets of a type are balanced. -/
theorem surplus_encode (t : Encoding) : surplus t.encode = 0 := by
  induction t using Encoding.induction (Q := fun ts => surplus (encodeAll ts) = 0) with
  | scalar s => cases s <;> decide
  | opaquePointer target =>
    rw [Encoding.encode, surplus_cons (by decide) (by decide)]
    cases target with
    | void | undef => decide
    | struct tag =>
      rw [Opaque.encode, surplus_cons (by decide) (by decide), surplus_append,
        surplus_eq_zero tag.noBracket]
      decide
    | union tag =>
      rw [Opaque.encode, surplus_open, surplus_append, surplus_eq_zero tag.noBracket]
      decide
  | pointer target ih => rw [Encoding.encode, surplus_cons (by decide) (by decide), ih]
  | array count element ih =>
    rw [Encoding.encode, surplus_cons (by decide) (by decide), surplus_append, surplus_append, ih,
      surplus_eq_zero (noBracket_toDigits count)]
    decide
  | struct tag members ih =>
    rw [Encoding.encode, surplus_cons (by decide) (by decide), surplus_append,
      surplus_cons (by decide) (by decide), surplus_append, ih, surplus_eq_zero tag.noBracket]
    decide
  | union tag members ih =>
    rw [Encoding.encode, surplus_open, surplus_append, surplus_cons (by decide) (by decide),
      surplus_append, ih, surplus_eq_zero tag.noBracket]
    decide
  | nil => rfl
  | cons t ts iht ihts => rw [Encoding.encodeAll, surplus_append, iht, ihts]; rfl

theorem surplus_encodeAll (ts : List Encoding) : surplus (encodeAll ts) = 0 := by
  induction ts with
  | nil => rfl
  | cons t ts ih => rw [Encoding.encodeAll, surplus_append, surplus_encode, ih]; rfl

/-- The places in front of `rest` where the cursor can be: in front of types and of closing
brackets. -/
inductive Boundary (rest : List Char) : List Char → Prop
  | rest : Boundary rest rest
  | close {c : Char} {s : List Char} (hc : closes c = true) (hs : Boundary rest s) :
      Boundary rest (c :: s)
  | type (t : Encoding) {s : List Char} (hs : Boundary rest s) : Boundary rest (t.encode ++ s)

namespace Boundary

variable {rest s front back : List Char}

theorem all (ts : List Encoding) (hs : Boundary rest s) : Boundary rest (encodeAll ts ++ s) := by
  induction ts with
  | nil => exact hs
  | cons t ts ih =>
    rw [Encoding.encodeAll, List.append_assoc]
    exact .type t ih

theorem startsWithoutDigit (hrest : StartsWithoutDigit rest) (hs : Boundary rest s) :
    StartsWithoutDigit s := by
  cases hs with
  | rest => exact hrest
  | @close c s hc =>
    rintro d hd
    obtain rfl : c = d := by simpa using hd
    simp only [closes, Bool.or_eq_true, beq_iff_eq] at hc
    rcases hc with (rfl | rfl) | rfl <;> decide
  | @type t s => exact t.startsWithoutDigit_encode s

end Boundary

/-- Behind the only closing bracket there is nothing. -/
theorem eq_nil_behind_close {front back : List Char} (h : [')'] = front ++ ')' :: back) :
    back = [] := by
  have hlength := congrArg List.length h
  simp only [List.length_cons, List.length_append, List.length_nil] at hlength
  exact List.eq_nil_of_length_eq_zero (by omega)

/-- In the target of a pointer the closing bracket is the last character. -/
theorem opaque_close {front back : List Char} (target : Opaque)
    (h : target.encode = front ++ ')' :: back) : '(' ∈ front ∧ back = [] := by
  have hmem : ')' ∈ target.encode := by
    rw [h]
    simp
  cases target with
  | void | undef => simp [Opaque.encode] at hmem
  | struct tag => simp [Opaque.encode, tag.noBracket.close_notMem] at hmem
  | union tag =>
    obtain ⟨f, rfl, hf⟩ := of_cons_close (by decide) h
    obtain ⟨g, rfl, hg⟩ := of_append_close tag.noBracket.close_notMem hf
    exact ⟨List.mem_cons_self, eq_nil_behind_close hg⟩

/-- In a type each closing bracket is behind an opening one, and at a boundary. -/
theorem encode_close {rest front back : List Char} (t : Encoding)
    (h : t.encode = front ++ ')' :: back) :
    '(' ∈ front ∧ ∀ s, Boundary rest s → Boundary rest (back ++ s) := by
  induction t using Encoding.induction (Q := fun ts => ∀ front back,
    encodeAll ts = front ++ ')' :: back →
      '(' ∈ front ∧ ∀ s, Boundary rest s → Boundary rest (back ++ s)) generalizing front back with
  | scalar s =>
    have hmem : ')' ∈ (Encoding.scalar s).encode := by
      rw [h]
      simp
    cases s <;> simp [Encoding.encode, Scalar.code] at hmem
  | opaquePointer target =>
    obtain ⟨f, rfl, hf⟩ := of_cons_close (by decide) h
    obtain ⟨hopen, rfl⟩ := opaque_close target hf
    exact ⟨List.mem_cons_of_mem _ hopen, fun s hs => hs⟩
  | pointer target ih =>
    obtain ⟨f, rfl, hf⟩ := of_cons_close (by decide) h
    obtain ⟨hopen, hback⟩ := ih hf
    exact ⟨List.mem_cons_of_mem _ hopen, hback⟩
  | array count element ih =>
    obtain ⟨f, rfl, hf⟩ := of_cons_close (by decide) h
    obtain ⟨g, rfl, hg⟩ := of_append_close (noBracket_toDigits count).close_notMem hf
    rcases append_eq_append_close hg with ⟨b, hb, rfl⟩ | ⟨_, _, hend⟩
    · obtain ⟨hopen, hback⟩ := ih hb
      constructor
      · simp [hopen]
      · intro s hs
        rw [List.append_assoc]
        exact hback _ (.close (by decide) hs)
    · simp [List.singleton_eq_append_iff] at hend
  | struct tag members ih =>
    obtain ⟨f, rfl, hf⟩ := of_cons_close (by decide) h
    obtain ⟨g, rfl, hg⟩ := of_append_close tag.noBracket.close_notMem hf
    obtain ⟨k, rfl, hk⟩ := of_cons_close (by decide) hg
    rcases append_eq_append_close hk with ⟨b, hb, rfl⟩ | ⟨_, _, hend⟩
    · obtain ⟨hopen, hback⟩ := ih _ _ hb
      constructor
      · simp [hopen]
      · intro s hs
        rw [List.append_assoc]
        exact hback _ (.close (by decide) hs)
    · simp [List.singleton_eq_append_iff] at hend
  | union tag members ih =>
    obtain ⟨f, rfl, hf⟩ := of_cons_close (by decide) h
    obtain ⟨g, rfl, hg⟩ := of_append_close tag.noBracket.close_notMem hf
    obtain ⟨k, rfl, hk⟩ := of_cons_close (by decide) hg
    rcases append_eq_append_close hk with ⟨b, hb, rfl⟩ | ⟨f', _, hend⟩
    · constructor
      · simp
      · intro s hs
        rw [List.append_assoc]
        exact (ih _ _ hb).2 _ (.close (by decide) hs)
    · obtain rfl := eq_nil_behind_close hend
      exact ⟨List.mem_cons_self, fun s hs => hs⟩
  | nil front back h => simp [Encoding.encodeAll] at h
  | cons t ts iht ihts front back h =>
    rcases append_eq_append_close h with ⟨b, hb, rfl⟩ | ⟨f, rfl, hf⟩
    · obtain ⟨hopen, hback⟩ := iht hb
      refine ⟨hopen, ?_⟩
      intro s hs
      rw [List.append_assoc]
      exact hback _ (hs.all ts)
    · obtain ⟨hopen, hback⟩ := ihts _ _ hf
      exact ⟨List.mem_append_right _ hopen, hback⟩

theorem open_mem_of_encodeAll {front back : List Char} (ts : List Encoding)
    (h : encodeAll ts = front ++ ')' :: back) : '(' ∈ front := by
  induction ts generalizing front back with
  | nil => simp [Encoding.encodeAll] at h
  | cons t ts ih =>
    rcases append_eq_append_close h with ⟨b, hb, rfl⟩ | ⟨f, rfl, hf⟩
    · have hclose : '(' ∈ front ∧ ∀ s, Boundary [] s → Boundary [] (b ++ s) := encode_close t hb
      exact hclose.1
    · exact List.mem_append_right _ (ih hf)

/-- Behind the next closing bracket there is a boundary again. -/
theorem Boundary.behind_close {rest s front back : List Char} (hs : Boundary rest s)
    (hrest : rest <:+ back) (h : s = front ++ ')' :: back) (hfront : ')' ∉ front) :
    Boundary rest back := by
  induction hs generalizing front with
  | rest =>
    have hle := hrest.length_le
    rw [h] at hle
    simp at hle
    omega
  | @close c s hc hs ih =>
    cases front with
    | nil =>
      obtain ⟨rfl, rfl⟩ := List.cons.inj h
      exact hs
    | cons d front =>
      obtain ⟨rfl, rfl⟩ := List.cons.inj h
      exact ih rfl fun hmem => hfront (List.mem_cons_of_mem _ hmem)
  | @type t s hs ih =>
    rcases append_eq_append_close h with ⟨b, hb, rfl⟩ | ⟨f, rfl, rfl⟩
    · exact (encode_close t hb).2 s hs
    · exact ih rfl fun hmem => hfront (List.mem_append_right _ hmem)

/-- What `atoi` makes of the count of an array. -/
def scannedCount (count : ℕ) : ℤ := atoi (Nat.toDigits 10 count)

section Count

variable {rest : List Char}

theorem isDigit_of_mem_count {count : ℕ} {c : Char} (hc : c ∈ Nat.toDigits 10 count) :
    c.isDigit = true :=
  Nat.isDigit_of_mem_toDigits (by decide) (by decide) hc

theorem takeWhile_count (count : ℕ) (hrest : StartsWithoutDigit rest) :
    (Nat.toDigits 10 count ++ rest).takeWhile Char.isDigit = Nat.toDigits 10 count := by
  rw [List.takeWhile_append_of_pos fun _ hc => isDigit_of_mem_count hc]
  cases rest with
  | nil => simp
  | cons c rest => simp [hrest c rfl]

theorem dropWhile_count (count : ℕ) (hrest : StartsWithoutDigit rest) :
    (Nat.toDigits 10 count ++ rest).dropWhile Char.isDigit = rest := by
  rw [List.dropWhile_append_of_pos fun _ hc => isDigit_of_mem_count hc]
  cases rest with
  | nil => simp
  | cons c rest => simp [hrest c rfl]

theorem decimalPrefix_count (count : ℕ) (hrest : StartsWithoutDigit rest) :
    Enum.decimalPrefix (Nat.toDigits 10 count ++ rest) = count := by
  rw [Enum.decimalPrefix, takeWhile_count count hrest]
  exact Nat.ofDigitChars_ten_toDigits

theorem atoll_count (count : ℕ) (hrest : StartsWithoutDigit rest) :
    Enum.atoll (Nat.toDigits 10 count ++ rest) =
      BitVec.ofInt 64 (min (2 ^ 63 - 1) (count : ℤ)) := by
  have hdigits := decimalPrefix_count count hrest
  obtain ⟨c, s, hs⟩ := List.exists_cons_of_ne_nil (Nat.toDigits_ne_nil (n := count) (b := 10))
  have hc : c.isDigit = true := by
    apply isDigit_of_mem_count
    rw [hs]
    exact List.mem_cons_self
  rw [hs, List.cons_append] at hdigits ⊢
  have hspace : Enum.isspace c = false := by
    have hlower : 48 ≤ c.toNat := (Char.isDigit_iff_toNat.mp hc).1
    have hne : c ≠ ' ' := by
      rintro rfl
      exact absurd hc (by decide)
    simp only [Enum.isspace, Bool.or_eq_false_iff, beq_eq_false_iff_ne, Bool.and_eq_false_iff,
      decide_eq_false_iff_not]
    exact ⟨hne, .inr (by omega)⟩
  have hminus : c ≠ '-' := by
    rintro rfl
    exact absurd hc (by decide)
  have hplus : c ≠ '+' := by
    rintro rfl
    exact absurd hc (by decide)
  rw [Enum.atoll, List.dropWhile_cons_of_neg (by simp [hspace])]
  split
  next h => exact absurd (List.cons.inj h).1 hminus
  next h => exact absurd (List.cons.inj h).1 hplus
  next => rw [hdigits]

theorem atoll_toDigits (count : ℕ) :
    Enum.atoll (Nat.toDigits 10 count) = BitVec.ofInt 64 (min (2 ^ 63 - 1) (count : ℤ)) := by
  have hempty : StartsWithoutDigit [] := by simp [StartsWithoutDigit]
  have hnil := atoll_count count hempty
  rwa [List.append_nil] at hnil

/-- The text behind the digits does not matter. -/
theorem atoi_count (count : ℕ) (hrest : StartsWithoutDigit rest) :
    atoi (Nat.toDigits 10 count ++ rest) = scannedCount count := by
  have hnil := atoll_toDigits count
  rw [scannedCount, atoi, atoi, atoll_count count hrest, hnil]

theorem scannedCount_le (count : ℕ) : scannedCount count ≤ count := by
  have hnil := atoll_toDigits count
  have hpos : (0 : ℤ) ≤ min (2 ^ 63 - 1) (count : ℤ) := by omega
  rw [scannedCount, atoi, hnil, BitVec.toInt_setWidth, BitVec.toNat_ofInt, Int.bmod_eq_emod]
  split <;> omega

end Count
section Inversion

variable {nextType : List Char → List Char} {printer : Printer} {sentinel p p' : ℕ}
  {s m r tag : List Char} {reads : List Read}

/-- What was read at a type, by what the `switch( *type)` does there. -/
theorem Decodes.of_type (h : Decodes nextType printer sentinel (.type s) p reads r p') :
    match plan nextType printer sentinel p s with
    | .undefined | .null _ => False
    | .leaf q rest _ reads' => q = p' ∧ rest = some r ∧ reads' = reads
    | .struct _ m => Decodes nextType printer sentinel (.members m) p reads r p'
    | .union _ m => m = ')' :: r ∧ reads = [] ∨ m.head? ≠ some ')' ∧ ∃ skipped, ')' ∉ skipped ∧
        Decodes nextType printer sentinel (.type m) p reads (skipped ++ ')' :: r) p'
    | .array n m => 0 < n ∧
        Decodes nextType printer sentinel (.elements n m) p reads (']' :: r) p' := by
  generalize ht : Task.type s = t at h
  cases h with
  | leaf hplan =>
    obtain rfl := Task.type.inj ht
    rw [hplan]
    exact ⟨rfl, rfl, rfl⟩
  | struct htag hmembers =>
    obtain rfl := Task.type.inj ht
    rw [plan_struct htag]
    exact hmembers
  | emptyUnion htag =>
    obtain rfl := Task.type.inj ht
    rw [plan_union htag]
    exact .inl ⟨rfl, rfl⟩
  | union htag hm hskipped _ hmember =>
    obtain rfl := Task.type.inj ht
    rw [plan_union htag]
    exact .inr ⟨hm, _, hskipped, hmember⟩
  | array hs helements =>
    obtain rfl := Task.type.inj ht
    rw [plan_array hs]
    exact ⟨by omega, helements⟩
  | noMember | member | element | elements => simp at ht

theorem Decodes.of_members (h : Decodes nextType printer sentinel (.members m) p reads r p') :
    m = '}' :: r ∧ reads = [] ∨ m.head? ≠ some '}' ∧ ∃ m' q reads₁ reads₂,
      Decodes nextType printer sentinel (.type m) p reads₁ m' q ∧
      Decodes nextType printer sentinel (.members m') q reads₂ r p' ∧ reads = reads₁ ++ reads₂ := by
  cases h with
  | noMember => exact .inl ⟨rfl, rfl⟩
  | member hm hfirst _ hrest => exact .inr ⟨hm, _, _, _, _, hfirst, hrest, rfl⟩

/-- All elements of an array are read alike, the last up to the end. -/
theorem Decodes.of_elements {n : ℕ}
    (h : Decodes nextType printer sentinel (.elements (n + 2) m) p reads r p') :
    ∃ q r' reads₁ reads₂, Decodes nextType printer sentinel (.type m) p reads₁ r' q ∧
      Decodes nextType printer sentinel (.elements (n + 1) m) q reads₂ r p' ∧
      reads = reads₁ ++ reads₂ := by
  cases h with
  | elements hfirst _ hrest => exact ⟨_, _, _, _, hfirst, hrest, rfl⟩

theorem Decodes.of_element (h : Decodes nextType printer sentinel (.elements 1 m) p reads r p') :
    Decodes nextType printer sentinel (.type m) p reads r p' := by
  cases h with
  | element hfirst => exact hfirst

/-- What is left of a text, and which values are read, does not depend on the memory. -/
theorem Decodes.unique {t : Task} {q q' : ℕ} {r' : List Char} {reads' : List Read}
    (h : Decodes nextType printer sentinel t p reads r p')
    (h' : Decodes nextType printer sentinel t q reads' r' q') :
    r = r' ∧ reads.length = reads'.length := by
  obtain ⟨hkinds, hr⟩ := h.spans.unique h'.spans
  exact ⟨hr, by simpa using congrArg List.length hkinds⟩

/-- If an array is read, its elements are alike. -/
theorem Decodes.last_element {n : ℕ}
    (h : Decodes nextType printer sentinel (.elements (n + 1) m) p reads r p') :
    ∃ q last, Decodes nextType printer sentinel (.type m) q last r p' ∧
      reads.length = (n + 1) * last.length := by
  induction n generalizing p reads with
  | zero => exact ⟨p, reads, h.of_element, by omega⟩
  | succ n ih =>
    obtain ⟨q, r', reads₁, reads₂, hfirst, hrest, rfl⟩ := h.of_elements
    obtain ⟨q', last, hlast, hlength⟩ := ih hrest
    refine ⟨q', last, hlast, ?_⟩
    rw [List.length_append, (hfirst.unique hlast).2, hlength]
    ring

end Inversion

section Plan

variable {nextType : List Char → List Char} {printer : Printer} {sentinel p : ℕ}
  {s rest : List Char}

theorem plan_encode_scalar (scalar : Scalar) :
    plan nextType printer sentinel p ((Encoding.scalar scalar).encode ++ s) =
      planScalar printer sentinel (.scalar scalar) p s := by
  cases scalar <;> rfl

theorem plan_close {c : Char} (hc : closes c = true) :
    plan nextType printer sentinel p (c :: s) = .null (some ['?', '?', '?']) := by
  simp only [closes, Bool.or_eq_true, beq_iff_eq] at hc
  rcases hc with (rfl | rfl) | rfl <;> rfl

theorem plan_encode_target (hnext : SkipsTargets nextType) (hs : StartsWithoutDigit s)
    (target : Opaque) :
    plan nextType printer sentinel p ((Encoding.opaquePointer target).encode ++ s) =
      planScalar printer sentinel .pointer p s := by
  conv_rhs => rw [← hnext.target target hs]
  rfl

theorem plan_encode_pointer (hnext : SkipsTargets nextType) (hs : StartsWithoutDigit s)
    (target : Encoding) :
    plan nextType printer sentinel p ((Encoding.pointer target).encode ++ s) =
      planScalar printer sentinel .pointer p s := by
  conv_rhs => rw [← hnext.encoding target hs]
  rfl

theorem tag_equals_notMem (tag : Tag) : '=' ∉ tag.chars := by
  intro hmem
  rcases tag.isTag _ hmem with h | h
  · exact absurd h (by decide)
  · exact absurd h (by decide)

theorem encode_struct (tag : Tag) (members : List Encoding) (s : List Char) :
    (Encoding.struct tag members).encode ++ s =
      '{' :: (tag.chars ++ '=' :: (encodeAll members ++ '}' :: s)) := by
  simp [Encoding.encode]

theorem encode_union (tag : Tag) (members : List Encoding) (s : List Char) :
    (Encoding.union tag members).encode ++ s =
      '(' :: (tag.chars ++ '=' :: (encodeAll members ++ ')' :: s)) := by
  simp [Encoding.encode]

theorem encode_array (count : ℕ) (element : Encoding) (s : List Char) :
    (Encoding.array count element).encode ++ s =
      '[' :: (Nat.toDigits 10 count ++ (element.encode ++ ']' :: s)) := by
  simp [Encoding.encode]

theorem plan_encode_struct (tag : Tag) (members : List Encoding) :
    plan nextType printer sentinel p ((Encoding.struct tag members).encode ++ s) =
      .struct tag.chars (encodeAll members ++ '}' :: s) := by
  rw [encode_struct, plan_struct (tag_equals_notMem tag)]

theorem plan_encode_union (tag : Tag) (members : List Encoding) :
    plan nextType printer sentinel p ((Encoding.union tag members).encode ++ s) =
      .union tag.chars (encodeAll members ++ ')' :: s) := by
  rw [encode_union, plan_union (tag_equals_notMem tag)]

theorem plan_encode_array (count : ℕ) (element : Encoding) :
    plan nextType printer sentinel p ((Encoding.array count element).encode ++ s) =
      if scannedCount count ≤ 0 then .undefined
      else .array (scannedCount count).toNat (element.encode ++ ']' :: s) := by
  have hdigit := element.startsWithoutDigit_encode (']' :: s)
  rw [encode_array, ← atoi_count count hdigit]
  split
  next hcount => exact plan_eq_undefined_iff.mpr (.inr (.inr ⟨_, rfl, hcount⟩))
  next hcount => rw [plan_array (by omega), dropWhile_count count hdigit]

/-- Whether the cursor, coming from `s`, is at a boundary. Behind the bracket of a union there is
one closing bracket more. -/
def Plan.FollowsFrom (rest s : List Char) : Plan → Prop
  | .undefined | .null _ => True
  | .leaf _ r _ _ => ∀ r', r = some r' → Boundary rest r' ∧ surplus r' = surplus s
  | .struct _ m | .array _ m => Boundary rest m ∧ surplus m = surplus s
  | .union _ m => Boundary rest m ∧ surplus m = surplus s + 1

theorem followsFrom_planScalar (hs : Boundary rest s) (t : Encoding) (kind : Kind) :
    (planScalar printer sentinel kind p s).FollowsFrom rest (t.encode ++ s) := by
  rcases planScalar_cases printer sentinel kind p s with
    hnull | hundefined | ⟨q, text, reads, hleaf⟩
  · rw [hnull]
    trivial
  · rw [hundefined]
    trivial
  · rw [hleaf]
    rintro r' hr
    obtain rfl := Option.some.inj hr
    rw [surplus_append, surplus_encode]
    exact ⟨hs, by omega⟩

/-- From a boundary the cursor goes to a boundary. -/
theorem Boundary.followsFrom {q : Plan} (hnext : SkipsTargets nextType)
    (hrest : StartsWithoutDigit rest) (hs : Boundary rest s) (hne : s ≠ rest)
    (printer : Printer) (sentinel p : ℕ) (hplan : plan nextType printer sentinel p s = q) :
    q.FollowsFrom rest s := by
  subst hplan
  cases hs with
  | rest => exact absurd rfl hne
  | close hc =>
    rw [plan_close hc]
    trivial
  | @type t s hs =>
    have hdigit := hs.startsWithoutDigit hrest
    cases t with
    | scalar scalar =>
      rw [plan_encode_scalar]
      exact followsFrom_planScalar hs (.scalar scalar) (.scalar scalar)
    | opaquePointer target =>
      rw [plan_encode_target hnext hdigit]
      exact followsFrom_planScalar hs (.opaquePointer target) .pointer
    | pointer target =>
      rw [plan_encode_pointer hnext hdigit]
      exact followsFrom_planScalar hs (.pointer target) .pointer
    | array count element =>
      rw [plan_encode_array]
      split
      next => trivial
      next =>
        refine ⟨.type element (.close (by decide) hs), ?_⟩
        rw [surplus_append, surplus_append, surplus_encode, surplus_encode,
          surplus_cons (by decide) (by decide)]
    | struct tag members =>
      rw [plan_encode_struct]
      refine ⟨.all members (.close (by decide) hs), ?_⟩
      rw [surplus_append, surplus_append, surplus_encode, surplus_encodeAll,
        surplus_cons (by decide) (by decide)]
    | union tag members =>
      rw [plan_encode_union]
      refine ⟨.all members (.close (by decide) hs), ?_⟩
      rw [surplus_append, surplus_append, surplus_encode, surplus_encodeAll, surplus_close]
      omega

end Plan

section Decodes

variable {nextType : List Char → List Char} {printer : Printer} {sentinel p p' : ℕ}
  {s m r rest : List Char} {reads : List Read}

/-- The first character of a type is no closing bracket. -/
theorem head_encode (t : Encoding) : ∃ c u, t.encode = c :: u ∧ closes c = false := by
  cases t with
  | scalar s => exact ⟨s.code, [], by rw [Encoding.encode], s.noBracket.2⟩
  | opaquePointer | pointer | array | struct | union =>
    exact ⟨_, _, by rw [Encoding.encode], by decide⟩

theorem head_ne (t : Encoding) {c : Char} (hc : closes c = true) :
    (t.encode ++ s).head? ≠ some c := by
  obtain ⟨d, u, ht, hd⟩ := head_encode t
  rw [ht, List.cons_append, List.head?_cons]
  rintro ⟨⟩
  rw [hc] at hd
  contradiction

theorem Boundary.behind (hs : Boundary rest s) {c : Char} (hc : closes c = true)
    (h : s = c :: m) (hm : rest <:+ m) : Boundary rest m := by
  cases hs with
  | rest =>
    have hle := hm.length_le
    rw [h, List.length_cons] at hle
    omega
  | close _ hs =>
    obtain ⟨rfl, rfl⟩ := List.cons.inj h
    exact hs
  | type t hs =>
    exact absurd (congrArg List.head? h) (head_ne t hc)

theorem Decodes.text_ne (hnext : SkipsPointer nextType) {t : Task}
    (h : Decodes nextType printer sentinel t p reads r p') (hr : rest <:+ r) : t.text ≠ rest := by
  rintro rfl
  have hlt := (h.suffix hnext).2
  have hle := hr.length_le
  omega

/-- What is left is at a boundary, and no closing bracket is lost. -/
theorem Decodes.boundary (hnext : SkipsTargets nextType) (hrest : StartsWithoutDigit rest)
    {t : Task} (h : Decodes nextType printer sentinel t p reads r p') (hr : rest <:+ r)
    (hs : Boundary rest t.text) : Boundary rest r ∧ surplus t.text ≤ surplus r := by
  induction h with
  | leaf hplan =>
    have hne := text_ne hnext.pointer (.leaf hplan) hr
    obtain ⟨hboundary, hsurplus⟩ := hs.followsFrom hnext hrest hne _ _ _ hplan _ rfl
    exact ⟨hboundary, hsurplus.ge⟩
  | @struct tag m r p p' reads htag hmembers ih =>
    have hne := text_ne hnext.pointer (.struct htag hmembers) hr
    obtain ⟨hm, hsurplus⟩ := hs.followsFrom hnext hrest hne printer sentinel p (plan_struct htag m)
    obtain ⟨hboundary, hle⟩ := ih hr hm
    exact ⟨hboundary, hsurplus ▸ hle⟩
  | @emptyUnion tag r p htag =>
    have hempty : Decodes nextType printer sentinel (.type ('(' :: (tag ++ '=' :: ')' :: r))) p []
        r p := .emptyUnion htag
    have hne := text_ne hnext.pointer hempty hr
    obtain ⟨hm, hsurplus⟩ := hs.followsFrom hnext hrest hne printer sentinel p
      (plan_union htag (')' :: r))
    rw [surplus_close] at hsurplus
    refine ⟨hm.behind (by decide) rfl hr, ?_⟩
    omega
  | @union tag m skipped r p p' reads htag hm hskipped hp hmember ih =>
    have hne := text_ne hnext.pointer (.union htag hm hskipped hp hmember) hr
    obtain ⟨hm', hsurplus⟩ := hs.followsFrom hnext hrest hne printer sentinel p (plan_union htag m)
    have hr' : rest <:+ skipped ++ ')' :: r :=
      hr.trans ((List.suffix_cons _ _).trans (List.suffix_append _ _))
    obtain ⟨hboundary, hle⟩ := ih hr' hm'
    refine ⟨hboundary.behind_close hr rfl hskipped, ?_⟩
    have hnonpos := surplus_nonpos hskipped
    rw [surplus_append, surplus_close] at hle
    rw [Task.text] at hle
    omega
  | @array s r p p' reads hcount helements ih =>
    have hne := text_ne hnext.pointer (.array hcount helements) hr
    obtain ⟨hm, hsurplus⟩ := hs.followsFrom hnext hrest hne printer sentinel p (plan_array hcount)
    obtain ⟨hboundary, hle⟩ := ih (hr.trans (List.suffix_cons _ _)) hm
    rw [surplus_cons (by decide) (by decide)] at hle
    exact ⟨hboundary.behind (by decide) rfl hr, hsurplus ▸ hle⟩
  | noMember =>
    refine ⟨hs.behind (by decide) rfl hr, ?_⟩
    rw [Task.text, surplus_cons (by decide) (by decide)]
  | member hm hfirst hp hrest' ihfirst ihrest =>
    have hr' := hr.trans (hrest'.suffix hnext.pointer).1
    obtain ⟨hboundary, hle⟩ := ihfirst hr' hs
    obtain ⟨hboundary', hle'⟩ := ihrest hr hboundary
    exact ⟨hboundary', hle.trans hle'⟩
  | element hfirst hp ih => exact ih hr hs
  | elements hfirst hp hrest' ihfirst ihrest => exact ihrest hr hs

end Decodes

end MulleObjC.Describe
