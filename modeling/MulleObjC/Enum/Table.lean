import Mathlib.Data.BitVec
import Mathlib.Data.List.Basic

/-!
# NS_ENUM and NS_OPTIONS tables

`NS_ENUM( type, name)` declares `struct name__item { char *s; type value; }` and
a table of such lines. The generic functions of `mulle-objc-enum.m` get the table
with its `item_len`, the size of `type`, and read every value zero-extended into
an `unsigned long long`.
-/

namespace MulleObjC.Enum

/-- A NUL-terminated string: the characters in front of the terminator. -/
abbrev CString := List Char

/-- The item sizes the functions accept; they `abort` for every other one. -/
inductive ItemLen
  | uint8
  | uint16
  | uint32
  | uint64
  deriving DecidableEq, Repr

/-- The number of bits of an item. -/
def ItemLen.bits : ItemLen → ℕ
  | uint8 => 8
  | uint16 => 16
  | uint32 => 32
  | uint64 => 64

/-- Every accepted item fits into an `unsigned long long`. -/
theorem ItemLen.bits_le (w : ItemLen) : w.bits ≤ 64 := by cases w <;> decide

/-- `struct name__item`: one line of a table. A NULL key is `none`. -/
structure Item (w : ItemLen) where
  /-- The key. -/
  s : Option CString
  /-- The enumerator, as the bits of its type. -/
  value : BitVec w.bits
  deriving DecidableEq

/-- `*(uintN_t *) &((char *) line)[ offset]` as an `unsigned long long`. -/
def Item.read {w : ItemLen} (line : Item w) : BitVec 64 := line.value.setWidth 64

/-- A table, in the order of its lines. -/
abbrev Table (w : ItemLen) := List (Item w)

/-- Reading a value back at the width of its item loses nothing. -/
@[simp] theorem Item.setWidth_read {w : ItemLen} (line : Item w) :
    line.read.setWidth w.bits = line.value := by
  rw [Item.read, BitVec.setWidth_setWidth_of_le _ w.bits_le, BitVec.setWidth_eq]

/-- `_NS_table_search_UTF8String`: the key of the first line with this value. -/
def tableSearchUTF8String {w : ItemLen} : Table w → BitVec 64 → Option CString
  | [], _ => none
  | line :: table, bit =>
    if bit = line.read then line.s else tableSearchUTF8String table bit

/-- A first character of a C identifier. -/
def isIdentifierStart (c : Char) : Bool := c.isAlpha || c == '_'

/-- A further character of a C identifier. -/
def isIdentifierChar (c : Char) : Bool := c.isAlphanum || c == '_'

/-- The keys that `NS_ENUM_ITEM( name)` stringifies: C identifiers. -/
def IsIdentifier : CString → Prop
  | [] => False
  | c :: cs => isIdentifierStart c = true ∧ ∀ d ∈ cs, isIdentifierChar d = true

instance : DecidablePred IsIdentifier
  | [] => .isFalse id
  | c :: cs =>
    @instDecidableAnd (isIdentifierStart c = true) _ inferInstance (List.decidableBAll _ cs)

/-- A table whose keys are all set and are C identifiers. -/
def Table.Named {w : ItemLen} (table : Table w) : Prop :=
  ∀ line ∈ table, ∃ key, line.s = some key ∧ IsIdentifier key

/-- The key of a line of a named table. -/
def Item.key {w : ItemLen} (line : Item w) : CString := line.s.getD []

theorem Table.Named.s_eq {w : ItemLen} {table : Table w} (h : table.Named) {line : Item w}
    (hline : line ∈ table) : line.s = some line.key ∧ IsIdentifier line.key := by
  obtain ⟨key, hs, hkey⟩ := h line hline
  simpa [Item.key, hs] using hkey

instance {w : ItemLen} (table : Table w) : Decidable table.Named :=
  decidable_of_iff (∀ line ∈ table, line.s.isSome ∧ IsIdentifier line.key)
    ⟨fun h line hline =>
      let ⟨hsome, hkey⟩ := h line hline
      ⟨line.key, by simp [Item.key, Option.getD_of_ne_none (Option.isSome_iff_ne_none.mp hsome)],
        hkey⟩,
    fun h line hline =>
      let ⟨hs, hkey⟩ := h.s_eq hline
      ⟨by rw [hs]; rfl, hkey⟩⟩

theorem Table.Named.tail {w : ItemLen} {line : Item w} {table : Table w}
    (h : Table.Named (line :: table)) : Table.Named table :=
  fun other hother => h other (List.mem_cons_of_mem _ hother)

theorem IsIdentifier.ne_nil {key : CString} (h : IsIdentifier key) : key ≠ [] := by
  rintro rfl
  exact h

/-- Identifiers never contain the separator of an option list. -/
theorem IsIdentifier.bar_notMem {key : CString} (h : IsIdentifier key) : '|' ∉ key := by
  cases key with
  | nil => simp
  | cons c cs =>
    obtain ⟨hc, hcs⟩ := h
    intro hmem
    rcases List.mem_cons.mp hmem with rfl | hmem
    · exact absurd hc (by decide)
    · exact absurd (hcs _ hmem) (by decide)

/-- No identifier starts with a digit. -/
theorem IsIdentifier.head_not_isDigit {c : Char} {cs : CString} (h : IsIdentifier (c :: cs)) :
    c.isDigit = false := by
  have hc : ((decide (c.val ≥ 'A'.val ∧ c.val ≤ 'Z'.val) ||
      (decide (c.val ≥ 'a'.val) && decide (c.val ≤ 'z'.val))) || c == '_') = true := h.1
  simp only [Bool.or_eq_true, Bool.and_eq_true, decide_eq_true_eq, beq_iff_eq, ge_iff_le,
    UInt32.le_iff_toNat_le] at hc
  by_contra hdigit
  simp only [Char.isDigit, Bool.not_eq_false, Bool.and_eq_true, decide_eq_true_eq, ge_iff_le,
    UInt32.le_iff_toNat_le] at hdigit
  have hA : 'A'.val.toNat = 65 := rfl
  have ha : 'a'.val.toNat = 97 := rfl
  have h9 : '9'.val.toNat = 57 := rfl
  rcases hc with (hupper | hlower) | rfl
  · omega
  · omega
  · exact absurd hdigit.2 (by decide)

end MulleObjC.Enum
