import MulleObjC.Enum.Table
import MulleObjC.Library.BitCover

/-!
# Printing enums and options

`_NS_ENUM_UTF8String` prints the key of a known value and a hexadecimal number
for every other one. `_NS_OPTIONS_UTF8String` lists keys, separated by `|`, as
long as their bits are unclaimed, and prints what remains in hexadecimal. What
it lists is the greedy cover of the pattern by the values of the table.
-/

namespace MulleObjC.Enum

open BitCover

/-- `sprintf( "0x%llx", value)`. -/
def sprintfHex (value : BitVec 64) : CString := '0' :: 'x' :: Nat.toDigits 16 value.toNat

/-- `_NS_ENUM_UTF8String` -/
def enumUTF8String {w : ItemLen} (table : Table w) (value : BitVec 64) : CString :=
  match tableSearchUTF8String table value with
  | some s => s
  | none => if value = 0 then ['0'] else sprintfHex value

/-- The variables of the loop in `_NS_OPTIONS_UTF8String`. -/
structure OptionsPrinter where
  /-- The string printed so far. -/
  buffer : CString
  /-- The bits that no printed key has claimed. -/
  bits : BitVec 64
  /-- The key of the last line seen whose value is zero. -/
  empty : Option CString

/-- `mulle_buffer_add_string_if_not_empty( buffer, s)` -/
def addStringIfNotEmpty (buffer s : CString) : CString :=
  if buffer = [] then buffer else buffer ++ s

/-- `mulle_buffer_add_string_if_empty( buffer, s)` -/
def addStringIfEmpty (buffer s : CString) : CString := if buffer = [] then s else buffer

/-- One iteration of the loop over the lines of the table. -/
def OptionsPrinter.printLine {w : ItemLen} (p : OptionsPrinter) (line : Item w) :
    OptionsPrinter :=
  if line.read = 0 then
    { p with empty := line.s }
  else if p.bits &&& line.read = line.read then
    { p with
      buffer := addStringIfNotEmpty p.buffer ['|'] ++ line.key
      bits := p.bits &&& ~~~line.read }
  else
    p

/-- `_NS_OPTIONS_UTF8String` -/
def optionsUTF8String {w : ItemLen} (table : Table w) (bits : BitVec 64) : CString :=
  let p := table.foldl OptionsPrinter.printLine ⟨[], bits, none⟩
  let buffer :=
    if p.bits ≠ 0 then addStringIfNotEmpty p.buffer ['|'] ++ sprintfHex p.bits else p.buffer
  addStringIfEmpty buffer (p.empty.getD ['0'])

/-- Names and the residue as one list, joined by `|`. -/
def joinBars : List CString → CString
  | [] => []
  | [s] => s
  | s :: t :: rest => s ++ '|' :: joinBars (t :: rest)

theorem joinBars_append_singleton (names : List CString) (s : CString) :
    joinBars (names ++ [s]) =
      match names with
      | [] => s
      | _ :: _ => joinBars names ++ '|' :: s := by
  induction names with
  | nil => rfl
  | cons t rest ih =>
    cases rest with
    | nil => simp [joinBars]
    | cons u rest => simpa [joinBars] using ih

theorem joinBars_eq_nil_iff {names : List CString} (h : ∀ s ∈ names, s ≠ []) :
    joinBars names = [] ↔ names = [] := by
  cases names with
  | nil => simp [joinBars]
  | cons s rest => cases rest <;> simp [joinBars, h s]

/-- Adding one more nonempty name to a printed list of names. -/
theorem joinBars_addString {names : List CString} (h : ∀ s ∈ names, s ≠ []) (s : CString) :
    addStringIfNotEmpty (joinBars names) ['|'] ++ s = joinBars (names ++ [s]) := by
  rw [joinBars_append_singleton, addStringIfNotEmpty]
  cases names with
  | nil => simp [joinBars]
  | cons t rest => simp [joinBars_eq_nil_iff h]

/-- The keys that are listed for a pattern, in table order. -/
def Table.listed {w : ItemLen} (table : Table w) (bits : BitVec 64) : Table w :=
  picked Item.read table bits

/-- The bits that are printed as a number. -/
def Table.residue {w : ItemLen} (table : Table w) (bits : BitVec 64) : BitVec 64 :=
  BitCover.residue Item.read table bits

/-- The key of the last line whose value is zero. -/
def Table.zeroKey {w : ItemLen} : Table w → Option CString → Option CString
  | [], empty => empty
  | line :: table, empty => zeroKey table (if line.read = 0 then line.s else empty)

/-- The loop prints the greedy cover and remembers the zero-valued key. -/
theorem foldl_printLine {w : ItemLen} {table : Table w} (hnamed : table.Named)
    (names : List CString) (hnames : ∀ s ∈ names, s ≠ []) (bits : BitVec 64)
    (empty : Option CString) :
    table.foldl OptionsPrinter.printLine ⟨joinBars names, bits, empty⟩ =
      ⟨joinBars (names ++ (table.listed bits).map Item.key), table.residue bits,
        table.zeroKey empty⟩ := by
  unfold Table.listed Table.residue
  induction table generalizing names bits empty with
  | nil => simp [Table.zeroKey, picked, BitCover.residue]
  | cons line table ih =>
    have hkey := (hnamed.s_eq List.mem_cons_self).2.ne_nil
    rw [List.foldl_cons, OptionsPrinter.printLine]
    simp only [Table.zeroKey, picked, BitCover.residue, Picks]
    by_cases hzero : line.read = 0
    · simpa only [hzero, ne_eq, not_true_eq_false, false_and, if_true, if_false, ↓reduceIte]
        using ih hnamed.tail names hnames bits line.s
    · by_cases hsub : bits &&& line.read = line.read
      · have hnext : ∀ s ∈ names ++ [line.key], s ≠ [] := by
          intro s hs
          rcases List.mem_append.mp hs with hs | hs
          · exact hnames s hs
          · rwa [List.mem_singleton.mp hs]
        have h := ih hnamed.tail (names ++ [line.key]) hnext (bits &&& ~~~line.read) empty
        rw [List.append_assoc, List.singleton_append, ← List.map_cons] at h
        simpa only [hzero, hsub, ne_eq, not_false_eq_true, and_self, if_true, if_false,
          joinBars_addString hnames] using h
      · simpa only [hzero, hsub, ne_eq, and_false, if_false]
          using ih hnamed.tail names hnames bits empty

theorem Table.Named.listed_ne_nil {w : ItemLen} {table : Table w} (hnamed : table.Named)
    (bits : BitVec 64) : ∀ s ∈ (table.listed bits).map Item.key, s ≠ [] := by
  intro s hs
  obtain ⟨line, hline, rfl⟩ := List.mem_map.mp hs
  exact (hnamed.s_eq (mem_of_mem_picked _ hline)).2.ne_nil

/-- What `_NS_OPTIONS_UTF8String` prints: the listed keys, then the residue if
bits remain; for the zero pattern the zero-valued key or a zero digit. -/
theorem optionsUTF8String_eq {w : ItemLen} {table : Table w} (hnamed : table.Named)
    (bits : BitVec 64) :
    optionsUTF8String table bits =
      if table.residue bits ≠ 0 then
        joinBars ((table.listed bits).map Item.key ++ [sprintfHex (table.residue bits)])
      else if bits = 0 then (table.zeroKey none).getD ['0']
      else joinBars ((table.listed bits).map Item.key) := by
  have hloop := foldl_printLine hnamed [] (by simp) bits none
  have hne := hnamed.listed_ne_nil bits
  simp only [joinBars, List.nil_append] at hloop
  simp only [optionsUTF8String, hloop]
  by_cases hres : table.residue bits = 0
  · by_cases hbits : bits = 0
    · subst bits
      have hlisted : table.listed 0 = [] := picked_zero _ _
      simp only [hres, hlisted, ne_eq, not_true_eq_false, if_false, if_true, List.map_nil,
        joinBars, addStringIfEmpty]
    · have hlisted : (table.listed bits).map Item.key ≠ [] := by
        intro hnil
        have hunion := union_picked_of_residue_eq_zero Item.read hres
        rw [Table.listed, List.map_eq_nil_iff] at hnil
        exact hbits (by simpa [hnil] using hunion.symm)
      rw [if_neg (by simpa using hres), if_neg (by simpa using hres), if_neg hbits,
        addStringIfEmpty, if_neg (by rwa [joinBars_eq_nil_iff hne])]
  · rw [if_pos hres, if_pos hres, joinBars_addString hne, addStringIfEmpty, if_neg]
    rw [joinBars_append_singleton]
    cases (table.listed bits).map Item.key <;> simp [sprintfHex]

end MulleObjC.Enum
