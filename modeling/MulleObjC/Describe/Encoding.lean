import MulleObjC.Enum.Table
import MulleObjC.Invocation.Types

/-!
# Encodings of types as text

What `@encode` makes of a type with a value: scalars, pointers, arrays, structs and unions. The
layout is that of the type behind the text.
-/

namespace MulleObjC.Describe

open MulleObjC.Invocation (Ty)
open MulleObjC.Enum (isIdentifierChar)

/-- Types without members. -/
inductive Scalar
  | id
  | assignId
  | copyId
  | cls
  | sel
  | bool
  | longDouble
  | double
  | float
  | char
  | int
  | long
  | longLong
  | short
  | unsignedChar
  | unsignedInt
  | unsignedLong
  | unsignedLongLong
  | unsignedShort
  | charPtr
  deriving DecidableEq, Repr

/-- The character of a scalar: `_C_ID`, `_C_ASSIGN_ID` and so on. -/
def Scalar.code : Scalar → Char
  | id => '@'
  | assignId => '='
  | copyId => '~'
  | cls => '#'
  | sel => ':'
  | bool => 'B'
  | longDouble => 'D'
  | double => 'd'
  | float => 'f'
  | char => 'c'
  | int => 'i'
  | long => 'l'
  | longLong => 'q'
  | short => 's'
  | unsignedChar => 'C'
  | unsignedInt => 'I'
  | unsignedLong => 'L'
  | unsignedLongLong => 'Q'
  | unsignedShort => 'S'
  | charPtr => '*'

/-- The size of a scalar is a power of two, and its alignment too. -/
def Scalar.sizeLog : Scalar → ℕ
  | bool | char | unsignedChar => 0
  | short | unsignedShort => 1
  | sel | float | int | unsignedInt => 2
  | longDouble => 4
  | id | assignId | copyId | cls | double | long | longLong | unsignedLong | unsignedLongLong
  | charPtr => 3

/-- `sizeof`, and `alignof` -/
def Scalar.size (s : Scalar) : ℕ := 2 ^ s.sizeLog

theorem Scalar.size_pos (s : Scalar) : 0 < s.size := Nat.two_pow_pos _

/-- A scalar as an argument type. -/
def Scalar.ty : Scalar → Ty
  | id => .retainId
  | assignId => .assignId
  | copyId => .copyId
  | cls => .cls
  | charPtr => .charPtr
  | s => .scalar ⟨s.size, s.sizeLog, Nat.dvd_refl _⟩

@[simp] theorem Scalar.size_ty (s : Scalar) : s.ty.size = s.size := by
  cases s <;> rfl

@[simp] theorem Scalar.alignmentLog_ty (s : Scalar) : s.ty.alignmentLog = s.sizeLog := by
  cases s <;> rfl

/-- The tag of a struct or union, `?` if it has none. -/
structure Tag where
  chars : List Char
  isTag : ∀ c ∈ chars, isIdentifierChar c = true ∨ c = '?'

/-- A target of a pointer that has no value. -/
inductive Opaque
  /-- `_C_VOID` -/
  | void
  /-- `_C_UNDEF`: a function -/
  | undef
  /-- A struct without its members. -/
  | struct (tag : Tag)
  /-- A union without its members. -/
  | union (tag : Tag)

/-- The text of such a target. -/
def Opaque.encode : Opaque → List Char
  | void => ['v']
  | undef => ['?']
  | struct tag => '{' :: (tag.chars ++ ['}'])
  | union tag => '(' :: (tag.chars ++ [')'])

/-- Types that have values. -/
inductive Encoding
  | scalar (s : Scalar)
  /-- `_C_PTR`, to something without a value. -/
  | opaquePointer (target : Opaque)
  /-- `_C_PTR` -/
  | pointer (target : Encoding)
  /-- `_C_ARY_B`, `_C_ARY_E` -/
  | array (count : ℕ) (element : Encoding)
  /-- `_C_STRUCT_B`, `_C_STRUCT_E` -/
  | struct (tag : Tag) (members : List Encoding)
  /-- `_C_UNION_B`, `_C_UNION_E` -/
  | union (tag : Tag) (members : List Encoding)

namespace Encoding

mutual

/-- The text of a type. -/
def encode : Encoding → List Char
  | scalar s => [s.code]
  | opaquePointer target => '^' :: target.encode
  | pointer target => '^' :: target.encode
  | array count element => '[' :: (Nat.toDigits 10 count ++ (element.encode ++ [']']))
  | struct tag members => '{' :: (tag.chars ++ '=' :: (encodeAll members ++ ['}']))
  | union tag members => '(' :: (tag.chars ++ '=' :: (encodeAll members ++ [')']))

/-- The text of the members. -/
def encodeAll : List Encoding → List Char
  | [] => []
  | t :: ts => t.encode ++ encodeAll ts

end

mutual

/-- The type of the text. -/
def ty : Encoding → Ty
  | scalar s => s.ty
  | opaquePointer _ | pointer _ => .scalar ⟨8, 3, Nat.dvd_refl _⟩
  | array count element => .array count element.ty
  | struct _ members => .struct (tys members)
  | union _ members => .union (tys members)

/-- The types of the members. -/
def tys : List Encoding → List Ty
  | [] => []
  | t :: ts => t.ty :: tys ts

end

/-- `sizeof` -/
def size (t : Encoding) : ℕ := t.ty.size

/-- `alignof` -/
def alignment (t : Encoding) : ℕ := t.ty.alignment

/-- Induction over types and lists of types. -/
theorem induction {motive : Encoding → Prop} {Q : List Encoding → Prop}
    (scalar : ∀ s, motive (.scalar s)) (opaquePointer : ∀ target, motive (.opaquePointer target))
    (pointer : ∀ target, motive target → motive (.pointer target))
    (array : ∀ count element, motive element → motive (.array count element))
    (struct : ∀ tag members, Q members → motive (.struct tag members))
    (union : ∀ tag members, Q members → motive (.union tag members))
    (nil : Q []) (cons : ∀ t ts, motive t → Q ts → Q (t :: ts)) (t : Encoding) : motive t :=
  Encoding.rec scalar opaquePointer pointer array struct union nil cons t

end Encoding

/-- A text that starts with a digit would go on with the offset in front of it. -/
def StartsWithoutDigit (s : List Char) : Prop := ∀ c ∈ s.head?, c.isDigit = false

theorem Scalar.isDigit_code (s : Scalar) : s.code.isDigit = false := by
  cases s <;> decide

theorem Encoding.startsWithoutDigit_encode (t : Encoding) (rest : List Char) :
    StartsWithoutDigit (t.encode ++ rest) := by
  intro c hc
  cases t with
  | scalar s =>
    obtain rfl : s.code = c := by simpa [encode] using hc
    exact s.isDigit_code
  | opaquePointer _ | pointer _ | array _ _ | struct _ _ | union _ _ =>
    rw [encode, List.cons_append, List.head?_cons, Option.mem_some_iff] at hc
    rw [← hc]
    decide

/-! What it takes to find the end of a type: brackets are counted, and a pointer ends with its
target. -/

/-- An opening bracket. -/
def opens (c : Char) : Bool := c == '{' || c == '(' || c == '['

/-- A closing bracket. -/
def closes (c : Char) : Bool := c == '}' || c == ')' || c == ']'

/-- What is left behind the bracket that closes the outermost of `depth` open ones. -/
def skipBrackets : ℕ → List Char → List Char
  | _, [] => []
  | depth, c :: s =>
    if opens c then skipBrackets (depth + 1) s
    else if closes c then if depth ≤ 1 then s else skipBrackets (depth - 1) s
    else skipBrackets depth s

/-- What is left behind a type. -/
def skipType : List Char → List Char
  | [] => []
  | c :: s => if c = '^' then skipType s else if opens c then skipBrackets 1 s else s

section Skip

variable {depth : ℕ} {s : List Char}

/-- No bracket. -/
def NoBracket (s : List Char) : Prop := ∀ c ∈ s, opens c = false ∧ closes c = false

theorem skipBrackets_append (hs : NoBracket s) (rest : List Char) :
    skipBrackets depth (s ++ rest) = skipBrackets depth rest := by
  induction s with
  | nil => rfl
  | cons c s ih =>
    obtain ⟨hopens, hcloses⟩ := hs c List.mem_cons_self
    rw [List.cons_append, skipBrackets, hopens, hcloses]
    exact ih fun d hd => hs d (List.mem_cons_of_mem c hd)

theorem skipBrackets_cons {c : Char} (hopens : opens c = false) (hcloses : closes c = false) :
    skipBrackets depth (c :: s) = skipBrackets depth s := by
  simp [skipBrackets, hopens, hcloses]

theorem skipBrackets_open {c : Char} (hopens : opens c = true) :
    skipBrackets depth (c :: s) = skipBrackets (depth + 1) s := by
  simp [skipBrackets, hopens]

theorem skipBrackets_close {c : Char} (hopens : opens c = false) (hcloses : closes c = true) :
    skipBrackets (depth + 2) (c :: s) = skipBrackets (depth + 1) s := by
  simp [skipBrackets, hopens, hcloses]

theorem skipBrackets_last {c : Char} (hopens : opens c = false) (hcloses : closes c = true) :
    skipBrackets 1 (c :: s) = s := by
  simp [skipBrackets, hopens, hcloses]

theorem skipBrackets_suffix (depth : ℕ) (s : List Char) : skipBrackets depth s <:+ s := by
  induction s generalizing depth with
  | nil => exact List.suffix_refl _
  | cons c s ih =>
    rw [skipBrackets]
    split
    next => exact (ih _).trans (List.suffix_cons c s)
    next =>
      split
      next =>
        split
        next => exact List.suffix_cons c s
        next => exact (ih _).trans (List.suffix_cons c s)
      next => exact (ih _).trans (List.suffix_cons c s)

/-- Nothing but the rest of the text is left. -/
theorem skipType_suffix (s : List Char) : skipType s <:+ s := by
  induction s with
  | nil => exact List.suffix_refl _
  | cons c s ih =>
    rw [skipType]
    split
    next => exact ih.trans (List.suffix_cons c s)
    next =>
      split
      next => exact (skipBrackets_suffix 1 s).trans (List.suffix_cons c s)
      next => exact List.suffix_cons c s

/-- Characters that no bracket is among. -/
theorem noBracket_of_forall {p : Char → Prop} (hs : ∀ c ∈ s, p c)
    (hp : ∀ c ∈ ['{', '(', '[', '}', ')', ']'], ¬p c) : NoBracket s := by
  intro c hc
  constructor
  · by_contra hopens
    apply hp c _ (hs c hc)
    simp only [opens, Bool.not_eq_false, Bool.or_eq_true, beq_iff_eq] at hopens
    rcases hopens with (rfl | rfl) | rfl <;> decide
  · by_contra hcloses
    apply hp c _ (hs c hc)
    simp only [closes, Bool.not_eq_false, Bool.or_eq_true, beq_iff_eq] at hcloses
    rcases hcloses with (rfl | rfl) | rfl <;> decide

theorem Tag.noBracket (tag : Tag) : NoBracket tag.chars :=
  noBracket_of_forall tag.isTag (by simp [Enum.isIdentifierChar])

theorem noBracket_toDigits (n : ℕ) : NoBracket (Nat.toDigits 10 n) :=
  noBracket_of_forall (p := fun c => c.isDigit = true)
    (fun _ hc => Nat.isDigit_of_mem_toDigits (by decide) (by decide) hc) (by simp)

theorem Scalar.noBracket (s : Scalar) : opens s.code = false ∧ closes s.code = false := by
  cases s <;> decide

/-- The brackets of a target are balanced. -/
theorem skipBrackets_encode_opaque (target : Opaque) (rest : List Char) :
    skipBrackets (depth + 1) (target.encode ++ rest) = skipBrackets (depth + 1) rest := by
  cases target with
  | void => exact skipBrackets_cons (by decide) (by decide)
  | undef => exact skipBrackets_cons (by decide) (by decide)
  | struct tag | union tag =>
    rw [Opaque.encode, List.cons_append, skipBrackets_open (by decide), List.append_assoc,
      skipBrackets_append tag.noBracket, List.singleton_append,
      skipBrackets_close (by decide) (by decide)]

/-- The brackets of a type are balanced. -/
theorem skipBrackets_encode (t : Encoding) (depth : ℕ) (rest : List Char) :
    skipBrackets (depth + 1) (t.encode ++ rest) = skipBrackets (depth + 1) rest := by
  induction t using Encoding.induction (Q := fun ts => ∀ depth rest,
    skipBrackets (depth + 1) (Encoding.encodeAll ts ++ rest) = skipBrackets (depth + 1) rest)
    generalizing depth rest with
  | scalar s => exact skipBrackets_cons s.noBracket.1 s.noBracket.2
  | opaquePointer target =>
    rw [Encoding.encode, List.cons_append, skipBrackets_cons (by decide) (by decide),
      skipBrackets_encode_opaque]
  | pointer target ih =>
    rw [Encoding.encode, List.cons_append, skipBrackets_cons (by decide) (by decide), ih]
  | array count element ih =>
    rw [Encoding.encode, List.cons_append, skipBrackets_open (by decide), List.append_assoc,
      skipBrackets_append (noBracket_toDigits count), List.append_assoc, ih,
      List.singleton_append, skipBrackets_close (by decide) (by decide)]
  | struct tag members ih | union tag members ih =>
    rw [Encoding.encode, List.cons_append, skipBrackets_open (by decide), List.append_assoc,
      skipBrackets_append tag.noBracket, List.cons_append,
      skipBrackets_cons (by decide) (by decide), List.append_assoc, ih, List.singleton_append,
      skipBrackets_close (by decide) (by decide)]
  | nil => rfl
  | cons t ts iht ihts => rw [Encoding.encodeAll, List.append_assoc, iht, ihts]

theorem skipBrackets_encodeAll (ts : List Encoding) (depth : ℕ) (rest : List Char) :
    skipBrackets (depth + 1) (Encoding.encodeAll ts ++ rest) = skipBrackets (depth + 1) rest := by
  induction ts with
  | nil => rfl
  | cons t ts ih => rw [Encoding.encodeAll, List.append_assoc, skipBrackets_encode, ih]

theorem skipType_encode_opaque (target : Opaque) (rest : List Char) :
    skipType (target.encode ++ rest) = rest := by
  cases target with
  | void | undef => rfl
  | struct tag | union tag =>
    rw [Opaque.encode, List.cons_append, skipType, if_neg (by decide), if_pos (by decide),
      List.append_assoc, skipBrackets_append tag.noBracket, List.singleton_append,
      skipBrackets_last (by decide) (by decide)]

/-- A type is skipped up to its end. -/
theorem skipType_encode (t : Encoding) (rest : List Char) :
    skipType (t.encode ++ rest) = rest := by
  induction t using Encoding.induction (Q := fun _ => True) with
  | scalar s => cases s <;> rfl
  | opaquePointer target =>
    rw [Encoding.encode, List.cons_append, skipType, if_pos rfl, skipType_encode_opaque]
  | pointer target ih => rw [Encoding.encode, List.cons_append, skipType, if_pos rfl, ih]
  | array count element =>
    rw [Encoding.encode, List.cons_append, skipType, if_neg (by decide), if_pos (by decide),
      List.append_assoc, skipBrackets_append (noBracket_toDigits count), List.append_assoc,
      skipBrackets_encode, List.singleton_append, skipBrackets_last (by decide) (by decide)]
  | struct tag members | union tag members =>
    rw [Encoding.encode, List.cons_append, skipType, if_neg (by decide), if_pos (by decide),
      List.append_assoc, skipBrackets_append tag.noBracket, List.cons_append,
      skipBrackets_cons (by decide) (by decide), List.append_assoc, skipBrackets_encodeAll,
      List.singleton_append, skipBrackets_last (by decide) (by decide)]
  | nil => trivial
  | cons t ts => trivial

end Skip

end MulleObjC.Describe
