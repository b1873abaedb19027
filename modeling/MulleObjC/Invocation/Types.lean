import Mathlib.Data.List.Basic
import MulleObjC.Library.Alignment

/-!
# Argument types

The types of arguments and return values, their sizes and alignments as the platform
lays them out, and the walk over the members of a type that `-retainArguments` and its
counterparts use to find owned members.
-/

namespace MulleObjC.Invocation

/-- A type without members that owns nothing: a number, a selector or a pointer. -/
structure Scalar where
  size : ℕ
  alignmentLog : ℕ
  alignment_dvd_size : 2 ^ alignmentLog ∣ size

theorem Scalar.int_aligned : 2 ^ 2 ∣ 4 := Nat.dvd_refl 4

theorem Scalar.char_aligned : 2 ^ 0 ∣ 1 := Nat.one_dvd 1

theorem Scalar.void_aligned : 2 ^ 0 ∣ 0 := Nat.dvd_zero _

/-- Type encodings. -/
inductive Ty
  | scalar (s : Scalar)
  /-- `_C_CLASS` -/
  | cls
  /-- `_C_ASSIGN_ID` -/
  | assignId
  /-- `_C_RETAIN_ID` -/
  | retainId
  /-- `_C_COPY_ID` -/
  | copyId
  /-- `_C_CHARPTR` -/
  | charPtr
  /-- `_C_ARY_B`, `_C_ARY_E` -/
  | array (count : ℕ) (member : Ty)
  /-- `_C_STRUCT_B`, `_C_STRUCT_E` -/
  | struct (members : List Ty)
  /-- `_C_UNION_B`, `_C_UNION_E` -/
  | union (members : List Ty)

/-- What a slot that owns its contents holds. -/
inductive Owned
  | retainId
  | copyId
  | charPtr
  deriving DecidableEq, Repr

namespace Ty

mutual

/-- `has_retainable_type` -/
def hasRetainable : Ty → Bool
  | retainId | copyId | charPtr => true
  | scalar _ | cls | assignId => false
  | array _ member => member.hasRetainable
  | struct members | union members => anyRetainable members

/-- Some of the types has a retainable type. -/
def anyRetainable : List Ty → Bool
  | [] => false
  | t :: ts => t.hasRetainable || anyRetainable ts

end

mutual

/-- The alignment is a power of two. -/
def alignmentLog : Ty → ℕ
  | scalar s => s.alignmentLog
  | cls | assignId | retainId | copyId | charPtr => 3
  | array _ member => member.alignmentLog
  | struct members | union members => maxAlignmentLog members

/-- The alignment of a type that has all these as members. -/
def maxAlignmentLog : List Ty → ℕ
  | [] => 0
  | t :: ts => max t.alignmentLog (maxAlignmentLog ts)

end

/-- `natural_alignment` -/
def alignment (t : Ty) : ℕ := 2 ^ t.alignmentLog

mutual

/-- `natural_size` -/
def size : Ty → ℕ
  | scalar s => s.size
  | cls | assignId | retainId | copyId | charPtr => 8
  | array count member => count * member.size
  | struct members => alignUp (layoutEnd members 0) (2 ^ maxAlignmentLog members)
  | union members => alignUp (maxSize members) (2 ^ maxAlignmentLog members)

/-- The end of the last member, if the members are laid out from an offset on. -/
def layoutEnd : List Ty → ℕ → ℕ
  | [], o => o
  | t :: ts, o => layoutEnd ts (alignUp o (2 ^ t.alignmentLog) + t.size)

/-- The size of the largest member. -/
def maxSize : List Ty → ℕ
  | [] => 0
  | t :: ts => max t.size (maxSize ts)

end

mutual

/-- Some union in the type has a retainable type. -/
def hasOwnedUnion : Ty → Bool
  | scalar _ | cls | assignId | retainId | copyId | charPtr => false
  | array _ member => member.hasOwnedUnion
  | struct members => anyOwnedUnion members
  | union members => anyRetainable members

/-- Some of the types has a union with a retainable type. -/
def anyOwnedUnion : List Ty → Bool
  | [] => false
  | t :: ts => t.hasOwnedUnion || anyOwnedUnion ts

end

/-- Induction over types and lists of types. -/
theorem induction {motive : Ty → Prop} {Q : List Ty → Prop}
    (scalar : ∀ s, motive (.scalar s)) (cls : motive .cls) (assignId : motive .assignId)
    (retainId : motive .retainId) (copyId : motive .copyId) (charPtr : motive .charPtr)
    (array : ∀ count member, motive member → motive (.array count member))
    (struct : ∀ members, Q members → motive (.struct members))
    (union : ∀ members, Q members → motive (.union members))
    (nil : Q []) (cons : ∀ t ts, motive t → Q ts → Q (t :: ts)) (t : Ty) : motive t :=
  Ty.rec scalar cls assignId retainId copyId charPtr array struct union nil cons t

theorem alignment_pos (t : Ty) : 0 < t.alignment := Nat.two_pow_pos _

/-- Arrays of a type need no padding. -/
theorem alignment_dvd_size (t : Ty) : t.alignment ∣ t.size := by
  unfold alignment
  induction t using Ty.induction (Q := fun _ => True) with
  | scalar s => exact s.alignment_dvd_size
  | cls | assignId | retainId | copyId | charPtr => exact Nat.dvd_refl 8
  | array count member ih =>
    simp only [alignmentLog, size]
    exact Nat.dvd_trans ih (Nat.dvd_mul_left _ _)
  | struct members =>
    simp only [alignmentLog, size]
    exact alignUp.dvd
  | union members =>
    simp only [alignmentLog, size]
    exact alignUp.dvd
  | nil => trivial
  | cons t ts => trivial

end Ty

/-- A member that owns its contents. -/
structure Member where
  kind : Owned
  offset : ℕ
  deriving DecidableEq, Repr

/-- The members a walk has found, and the offset it has reached. `none` if it has thrown. -/
structure Walk where
  members : List Member
  offset : Option ℕ
  deriving DecidableEq, Repr

namespace Walk

/-- Go on, unless the walk has thrown. -/
def andThen (w : Walk) (f : ℕ → Walk) : Walk :=
  match w.offset with
  | none => w
  | some o => ⟨w.members ++ (f o).members, (f o).offset⟩

/-- Do the same `n` times. -/
def repeated (f : ℕ → Walk) : ℕ → ℕ → Walk
  | 0, o => ⟨[], some o⟩
  | n + 1, o => (f o).andThen (repeated f n)

/-- One step over a type without members. -/
def scalar (size alignment : ℕ) (kind : Option Owned) (o : ℕ) : Walk :=
  ⟨(kind.map fun k => ⟨k, alignUp o alignment⟩).toList, some (alignUp o alignment + size)⟩

end Walk

namespace Ty

mutual

/-- `perform_context_callback`, for all constituents of a type.

The brackets of a struct have no effect. The members of an array are skipped, and walked
at the end of the array if they are retainable. A union with a retainable type throws,
also if it is skipped. -/
def walk : Ty → ℕ → Walk
  | .scalar s => .scalar s.size (2 ^ s.alignmentLog) none
  | .cls | .assignId => .scalar 8 8 none
  | .retainId => .scalar 8 8 (some .retainId)
  | .copyId => .scalar 8 8 (some .copyId)
  | .charPtr => .scalar 8 8 (some .charPtr)
  | .array count member => fun o =>
    if member.hasOwnedUnion then ⟨[], none⟩
    else if member.hasRetainable then
      let inferior := Walk.repeated member.walk count o
      ⟨inferior.members,
        inferior.offset.map fun _ => alignUp o (2 ^ member.alignmentLog) + count * member.size⟩
    else ⟨[], some o⟩
  | .struct members => walkMembers members
  | .union members => fun o =>
    if anyRetainable members then ⟨[], none⟩
    else Walk.scalar (alignUp (maxSize members) (2 ^ maxAlignmentLog members))
      (2 ^ maxAlignmentLog members) none o

/-- The members of a struct, one after the other. -/
def walkMembers : List Ty → ℕ → Walk
  | [] => fun o => ⟨[], some o⟩
  | t :: ts => fun o => (t.walk o).andThen (walkMembers ts)

end

end Ty

end MulleObjC.Invocation
