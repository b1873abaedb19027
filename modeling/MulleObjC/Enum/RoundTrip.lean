import MulleObjC.Enum.Names

/-!
# Parsing what was printed

A printed list of keys is parsed name by name, but the parser splits every name
into the first keys of the table that match as prefixes. The printed pattern
comes back if the table leaves no residue, which would be printed in hexadecimal
and is never parsed, and if no printed key has an earlier key as a prefix. A key
that has one only comes back when it happens to be made up of keys that have the
same bits.
A printed enum value comes back exactly if its line is found under the bits it
is passed with and if no earlier key is a prefix of its key.
-/

namespace MulleObjC.Enum

open FirstMatch BitCover

/-- The names printed for a pattern without residue: the listed keys, or the last
zero-valued key for the zero pattern. -/
def Table.namesFor {w : ItemLen} (table : Table w) (bits : BitVec 64) : List CString :=
  if bits = 0 then (table.zeroKey none).toList else (table.listed bits).map Item.key

/-- The zero pattern is read back if the key of the last zero-valued line is not made up of
keys one of which has a value. -/
def Table.ReadsBackZero {w : ItemLen} (table : Table w) : Prop :=
  ∀ before line after, table = before ++ line :: after → line.read = 0 →
    (∀ later ∈ after, later.read ≠ 0) → ∀ pieces, Cut Item.key table line.key pieces →
      ∀ piece ∈ pieces, piece.read = 0

/-- The listed keys of any other pattern leave no bit over, and no earlier key of the table is
a prefix of one of them; or else all of them are made up of keys that have the bits of the
pattern. -/
def Table.ReadsBackBits {w : ItemLen} (table : Table w) (bits : BitVec 64) : Prop :=
  table.residue bits = 0 ∧
    ((∀ line ∈ table.listed bits, IsFirst Item.key table line.key line) ∨
      ∃ pieces, List.Forall₂ (Cut Item.key table) ((table.listed bits).map Item.key) pieces ∧
        union Item.read pieces.flatten = bits)

/-- What the table must be like for a pattern to be read back. -/
def Table.ReadsBack {w : ItemLen} (table : Table w) (bits : BitVec 64) : Prop :=
  (bits = 0 ∧ table.ReadsBackZero) ∨ (bits ≠ 0 ∧ table.ReadsBackBits bits)

section Number

theorem startsWithDigit_sprintfHex (value : BitVec 64) :
    startsWithDigit (some (sprintfHex value)) = true := rfl

/-- The numeric path stops at the `x` of a hexadecimal number. -/
theorem atoll_sprintfHex (value : BitVec 64) : atoll (sprintfHex value) = 0 := rfl

theorem bar_notMem_toDigits (n : ℕ) : '|' ∉ Nat.toDigits 16 n := by
  have hdigit : ∀ d < 16, '|' ≠ Nat.digitChar d := by decide
  induction n using Nat.strong_induction_on with
  | _ n ih =>
    rw [Nat.toDigits_eq_if (by decide)]
    split
    case isTrue hn => exact fun h => hdigit n hn (List.mem_singleton.mp h)
    case isFalse hn =>
      intro h
      rcases List.mem_append.mp h with h | h
      · exact ih (n / 16) (by omega) h
      · exact hdigit (n % 16) (Nat.mod_lt n (by decide)) (List.mem_singleton.mp h)

theorem bar_notMem_sprintfHex (value : BitVec 64) : '|' ∉ sprintfHex value := by
  simpa [sprintfHex] using bar_notMem_toDigits value.toNat

variable {w : ItemLen} {table : Table w} (hnamed : table.Named)
include hnamed

/-- No key matches at a digit. -/
theorem first_digit {c : Char} (hc : c.isDigit = true) (cs : CString) :
    first Item.key table (c :: cs) = none := by
  refine List.find?_eq_none.mpr fun line hline => ?_
  have hkey := (hnamed.s_eq hline).2
  cases hs : line.key with
  | nil => exact absurd hs hkey.ne_nil
  | cons d ds =>
    have hd := IsIdentifier.head_not_isDigit (hs ▸ hkey)
    have hne : d ≠ c := by rintro rfl; simp [hc] at hd
    simp [List.isPrefixOf, hne]

theorem read_sprintfHex (value : BitVec 64) :
    read Item.key table (sprintfHex value) = none := by
  rw [read_eq hnamed.key_ne_nil (by simp [sprintfHex]), sprintfHex, first_digit hnamed rfl]

end Number

section Options

variable {w : ItemLen} {table : Table w} (hnamed : table.Named)
include hnamed

theorem startsWithDigit_key {line : Item w} (hline : line ∈ table) (rest : CString) :
    startsWithDigit (some (line.key ++ rest)) = false := by
  have hkey := (hnamed.s_eq hline).2
  cases hs : line.key with
  | nil => exact absurd hs hkey.ne_nil
  | cons c cs => exact IsIdentifier.head_not_isDigit (hs ▸ hkey)

/-- A list of names that starts with a key goes to the strict parser. -/
theorem optionsParse_joinBars {line : Item w} (hline : line ∈ table) {names : List CString}
    (hne : ∀ s ∈ names, s ≠ []) (hbar : ∀ s ∈ names, '|' ∉ s) :
    optionsParseUTF8String table (some (joinBars (line.key :: names))) =
      some ((table.bitsNamed (line.key :: names)).getD 0) := by
  have hkey := (hnamed.s_eq hline).2
  have hdigit : startsWithDigit (some (joinBars (line.key :: names))) = false := by
    cases names with
    | nil => simpa [joinBars] using startsWithDigit_key hnamed hline []
    | cons s names => exact startsWithDigit_key hnamed hline _
  have hloop := optionsParseLoop_joinBars hnamed (line.key :: names)
    (List.forall_mem_cons.mpr ⟨hkey.ne_nil, hne⟩)
    (List.forall_mem_cons.mpr ⟨hkey.bar_notMem, hbar⟩) 0
  rw [optionsParseUTF8String, hdigit, if_neg Bool.false_ne_true, optionsParseUTF8StringStrict,
    map_valueOrZero, hloop]
  cases table.bitsNamed (line.key :: names) <;> simp

/-- The zero-valued key is the key of the last line without a value. -/
theorem zeroKey_eq_some_iff {key : CString} {empty : Option CString} :
    table.zeroKey empty = some key ↔
      (∃ before line after, table = before ++ line :: after ∧ line.read = 0 ∧
        (∀ later ∈ after, later.read ≠ 0) ∧ line.key = key) ∨
      ((∀ line ∈ table, line.read ≠ 0) ∧ empty = some key) := by
  induction table generalizing empty with
  | nil => simp [Table.zeroKey]
  | cons line table ih =>
    rw [Table.zeroKey, ih hnamed.tail]
    have hs := (hnamed.s_eq List.mem_cons_self).1
    constructor
    · rintro (⟨before, last, after, rfl, hlast⟩ | ⟨hnone, hempty⟩)
      · exact .inl ⟨line :: before, last, after, rfl, hlast⟩
      · by_cases hline : line.read = 0
        · rw [if_pos hline, hs, Option.some.injEq] at hempty
          exact .inl ⟨[], line, table, rfl, hline, hnone, hempty⟩
        · rw [if_neg hline] at hempty
          exact .inr ⟨List.forall_mem_cons.mpr ⟨hline, hnone⟩, hempty⟩
    · rintro (⟨before, last, after, hsplit, hlast, hafter, hkey⟩ | ⟨hnone, hempty⟩)
      · cases before with
        | nil =>
          obtain ⟨rfl, rfl⟩ := List.cons.inj hsplit
          exact .inr ⟨hafter, by rw [if_pos hlast, hs, hkey]⟩
        | cons first before =>
          obtain ⟨rfl, rfl⟩ := List.cons.inj hsplit
          exact .inl ⟨before, last, after, rfl, hlast, hafter, hkey⟩
      · obtain ⟨hline, hnone⟩ := List.forall_mem_cons.mp hnone
        exact .inr ⟨hnone, by rw [if_neg hline, hempty]⟩

/-- The zero-valued key is a key of the table. -/
theorem exists_mem_of_zeroKey {key : CString} (h : table.zeroKey none = some key) :
    ∃ line ∈ table, line.key = key := by
  obtain ⟨before, line, after, rfl, -, -, hkey⟩ | ⟨-, hnone⟩ := (zeroKey_eq_some_iff hnamed).mp h
  · exact ⟨line, by simp, hkey⟩
  · cases hnone

/-- A residue is parsed as zero, alone or behind keys. -/
theorem optionsParse_residue (bits : BitVec 64) (hres : table.residue bits ≠ 0) :
    optionsParseUTF8String table (some (optionsUTF8String table bits)) = some 0 := by
  rw [optionsUTF8String_eq hnamed, if_pos hres]
  cases hlisted : table.listed bits with
  | nil =>
    simp only [List.map_nil, List.nil_append, joinBars, optionsParseUTF8String,
      startsWithDigit_sprintfHex, if_true, Option.getD_some, atoll_sprintfHex]
  | cons line lines =>
    have hmem : ∀ l ∈ line :: lines, l ∈ table :=
      hlisted ▸ fun l hl => mem_of_mem_picked Item.read hl
    have hnames : ∀ s ∈ lines.map Item.key ++ [sprintfHex (table.residue bits)],
        s ≠ [] ∧ '|' ∉ s := by
      intro s hs
      rcases List.mem_append.mp hs with hs | hs
      · obtain ⟨l, hl, rfl⟩ := List.mem_map.mp hs
        have hkey := (hnamed.s_eq (hmem l (List.mem_cons_of_mem _ hl))).2
        exact ⟨hkey.ne_nil, hkey.bar_notMem⟩
      · rw [List.mem_singleton.mp hs]
        exact ⟨by simp [sprintfHex], bar_notMem_sprintfHex _⟩
    rw [List.map_cons, List.cons_append, optionsParse_joinBars hnamed
      (hmem line List.mem_cons_self) (fun s hs => (hnames s hs).1) (fun s hs => (hnames s hs).2)]
    -- the number behind the keys cannot be read
    have hnone : table.bitsNamed
        (line.key :: (lines.map Item.key ++ [sprintfHex (table.residue bits)])) = none := by
      rw [← List.cons_append, ← List.map_cons]
      generalize (line :: lines).map Item.key = keys
      induction keys with
      | nil => rw [List.nil_append, table.bitsNamed_cons, read_sprintfHex hnamed]
      | cons key keys ih =>
        rw [List.cons_append, table.bitsNamed_cons, ih]
        cases read Item.key table key <;> rfl
    rw [hnone, Option.getD_none]

/-- Without a residue the printed names are parsed. -/
theorem optionsParse_names (bits : BitVec 64) (hres : table.residue bits = 0) :
    optionsParseUTF8String table (some (optionsUTF8String table bits)) =
      some ((table.bitsNamed (table.namesFor bits)).getD 0) := by
  rw [optionsUTF8String_eq hnamed, if_neg (by simpa using hres), Table.namesFor]
  by_cases hbits : bits = 0
  · rw [if_pos hbits, if_pos hbits]
    cases hzero : table.zeroKey none with
    | none => rfl
    | some key =>
      obtain ⟨line, hline, rfl⟩ := exists_mem_of_zeroKey hnamed hzero
      exact optionsParse_joinBars hnamed hline (List.forall_mem_nil _) (List.forall_mem_nil _)
  · rw [if_neg hbits, if_neg hbits]
    cases hlisted : table.listed bits with
    | nil =>
      have hunion := union_picked_of_residue_eq_zero Item.read hres
      rw [← Table.listed, hlisted] at hunion
      exact absurd hunion.symm hbits
    | cons line lines =>
      have hmem : ∀ l ∈ line :: lines, l ∈ table :=
        hlisted ▸ fun l hl => mem_of_mem_picked Item.read hl
      refine optionsParse_joinBars hnamed (hmem line List.mem_cons_self) ?_ ?_
      · intro s hs
        obtain ⟨l, hl, rfl⟩ := List.mem_map.mp hs
        exact (hnamed.s_eq (hmem l (List.mem_cons_of_mem _ hl))).2.ne_nil
      · intro s hs
        obtain ⟨l, hl, rfl⟩ := List.mem_map.mp hs
        exact (hnamed.s_eq (hmem l (List.mem_cons_of_mem _ hl))).2.bar_notMem

/-- A key is worth nothing if it cannot be cut into keys, or only into keys without a value. -/
theorem bitsNamed_key_eq_zero_iff (key : CString) :
    (table.bitsNamed [key]).getD 0 = 0 ↔
      ∀ pieces, Cut Item.key table key pieces → ∀ piece ∈ pieces, piece.read = 0 := by
  have hread : ∀ pieces,
      read Item.key table key = some pieces ↔ Cut Item.key table key pieces :=
    fun _ => read_eq_some_iff hnamed.key_ne_nil
  simp only [← hread, table.bitsNamed_cons]
  cases read Item.key table key with
  | none => simp
  | some pieces =>
    simp only [Table.bitsNamed, List.mapM_nil, Option.pure_def, Option.map_some,
      List.flatten_nil, union_nil, Option.getD_some, Option.some.injEq, forall_eq']
    rw [show union Item.read pieces ||| 0 = union Item.read pieces from BitVec.or_zero]
    exact union_eq_zero_iff Item.read

/-- What is parsed for the zero pattern. -/
theorem namesFor_zero_iff :
    (table.bitsNamed (table.namesFor 0)).getD 0 = 0 ↔ table.ReadsBackZero := by
  rw [Table.namesFor, if_pos rfl, Table.ReadsBackZero]
  cases hzero : table.zeroKey none with
  | none =>
    refine iff_of_true (by simp [Table.bitsNamed]) fun before line after htable hline hafter => ?_
    have hkey : table.zeroKey none = some line.key := (zeroKey_eq_some_iff hnamed).mpr
      (.inl ⟨before, line, after, htable, hline, hafter, rfl⟩)
    rw [hzero] at hkey
    cases hkey
  | some key =>
    rw [Option.toList_some, bitsNamed_key_eq_zero_iff hnamed]
    constructor
    · intro hpieces before line after htable hline hafter
      have hkey : table.zeroKey none = some line.key := (zeroKey_eq_some_iff hnamed).mpr
        (.inl ⟨before, line, after, htable, hline, hafter, rfl⟩)
      rw [← Option.some.inj (hzero.symm.trans hkey)]
      exact hpieces
    · intro hback
      obtain ⟨before, line, after, htable, hline, hafter, rfl⟩ | ⟨-, hnone⟩ :=
        (zeroKey_eq_some_iff hnamed).mp hzero
      · exact hback before line after htable hline hafter
      · cases hnone

omit hnamed in
/-- Keys that are found as they stand are cut into themselves. -/
theorem forall₂_cut_of_isFirst {lines : List (Item w)}
    (h : ∀ line ∈ lines, IsFirst Item.key table line.key line) :
    List.Forall₂ (Cut Item.key table) (lines.map Item.key) (lines.map fun line => [line]) := by
  rw [List.forall₂_map_left_iff, List.forall₂_map_right_iff, List.forall₂_same]
  exact fun line hline => (h line hline).cut_singleton

/-- What is parsed for any other pattern without a residue. -/
theorem namesFor_iff {bits : BitVec 64} (hbits : bits ≠ 0) (hres : table.residue bits = 0) :
    (table.bitsNamed (table.namesFor bits)).getD 0 = bits ↔ table.ReadsBackBits bits := by
  have hnames : (table.bitsNamed (table.namesFor bits)).getD 0 = bits ↔
      table.bitsNamed ((table.listed bits).map Item.key) = some bits := by
    rw [Table.namesFor, if_neg hbits]
    cases table.bitsNamed ((table.listed bits).map Item.key) with
    | none => exact iff_of_false (Ne.symm hbits) (by simp)
    | some value => simp
  rw [hnames, Table.bitsNamed_eq_some_iff hnamed, Table.ReadsBackBits, and_iff_right hres]
  refine ⟨.inr, ?_⟩
  rintro (hfirst | hpieces)
  · have hflatten : ((table.listed bits).map fun line => [line]).flatten = table.listed bits := by
      rw [← List.flatMap_def, List.flatMap_singleton']
    refine ⟨_, forall₂_cut_of_isFirst hfirst, ?_⟩
    rw [hflatten]
    exact union_picked_of_residue_eq_zero Item.read hres
  · exact hpieces

/-- Printing and parsing a pattern gives it back exactly if it reads back. -/
theorem optionsParse_optionsUTF8String_iff (bits : BitVec w.bits) :
    optionsParseUTF8String table (some (optionsUTF8String table (bits.setWidth 64))) =
        some (bits.setWidth 64) ↔
      table.ReadsBack (bits.setWidth 64) := by
  rw [Table.ReadsBack]
  by_cases hbits : bits.setWidth 64 = 0
  · have hres : table.residue (bits.setWidth 64) = 0 := by rw [hbits]; exact residue_zero _ _
    rw [optionsParse_names hnamed _ hres, Option.some.injEq, hbits, namesFor_zero_iff hnamed,
      or_iff_left fun h => h.1 rfl, and_iff_right rfl]
  · by_cases hres : table.residue (bits.setWidth 64) = 0
    · rw [optionsParse_names hnamed _ hres, Option.some.injEq, namesFor_iff hnamed hbits hres,
        or_iff_right fun h => hbits h.1, and_iff_right hbits]
    · rw [optionsParse_residue hnamed _ hres]
      refine iff_of_false (fun h => hbits (Option.some.inj h).symm) ?_
      rintro (⟨hzero, -⟩ | ⟨-, hback⟩)
      · exact hbits hzero
      · exact hres hback.1

end Options

/-- `NS_OPTIONS_TABLE( Foo, 3)` of `NS_OPTIONS( short, Foo)`. -/
def fooTable : Table .uint16 :=
  [⟨some "FooA".toList, 0x01⟩, ⟨some "FooB".toList, 0x04⟩, ⟨some "FooC".toList, 0x10⟩]

/-- The bit `2` is no bit of the table. It is printed as `0x2`, of which `atoll`
reads the zero only. -/
theorem foo_two_parsed_as_zero :
    fooTable.Named ∧ (fooTable.map Item.key).Nodup ∧
      optionsUTF8String fooTable ((2 : BitVec 16).setWidth 64) = "0x2".toList ∧
      optionsParseUTF8String fooTable
        (some (optionsUTF8String fooTable ((2 : BitVec 16).setWidth 64))) = some 0 ∧
      ¬ ∀ (w : ItemLen) (table : Table w), table.Named → (table.map Item.key).Nodup →
        ∀ bits : BitVec w.bits,
          optionsParseUTF8String table (some (optionsUTF8String table (bits.setWidth 64))) =
            some (bits.setWidth 64) := by
  refine ⟨by decide, by decide, by decide, by decide, fun h => ?_⟩
  exact absurd (h .uint16 fooTable (by decide) (by decide) 2) (by decide)

/-- `FooB|FooC` is parsed back. -/
theorem foo_twenty_parsed_back :
    optionsParseUTF8String fooTable
        (some (optionsUTF8String fooTable ((0x14 : BitVec 16).setWidth 64))) =
      some ((0x14 : BitVec 16).setWidth 64) := by
  have hfirst : ∀ line ∈ fooTable.listed 0x14, IsFirst Item.key fooTable line.key line := by
    intro line hline
    exact first_eq_some_iff.mp ((by decide : ∀ line ∈ fooTable.listed 0x14,
      first Item.key fooTable line.key = some line) line hline)
  exact (optionsParse_optionsUTF8String_iff (by decide) 0x14).mpr
    (.inr ⟨by decide, by decide, .inl hfirst⟩)

section Enum

/-- The argument `NS_ENUM_PRINT` passes: a signed enumerator is sign-extended. -/
def passed {w : ItemLen} (isSigned : Bool) (v : BitVec w.bits) : BitVec 64 :=
  if isSigned then v.signExtend 64 else v.setWidth 64

/-- No negative value of a narrow signed type. -/
def ZeroExtends {w : ItemLen} (isSigned : Bool) (v : BitVec w.bits) : Prop :=
  isSigned = true → v.msb = true → w = .uint64

/-- The value is zero and has no line, or a line with the value is found and no
earlier key is a prefix of its key. -/
def Table.ReadsBackValue {w : ItemLen} (table : Table w) (isSigned : Bool) (v : BitVec w.bits) :
    Prop :=
  (v = 0 ∧ ∀ line ∈ table, line.value ≠ 0) ∨
    (ZeroExtends isSigned v ∧ ∃ before line after, table = before ++ line :: after ∧
      line.value = v ∧ ∀ earlier ∈ before, earlier.key.isPrefixOf line.key = false)

variable {w : ItemLen} {table : Table w}

/-- Truncation undoes both extensions. -/
theorem setWidth_passed (isSigned : Bool) (v : BitVec w.bits) :
    (passed isSigned v).setWidth w.bits = v := by
  cases isSigned with
  | false => simp [passed, BitVec.setWidth_setWidth_of_le _ w.bits_le]
  | true =>
    ext i hi
    have hi64 : i < 64 := by have := w.bits_le; omega
    simp [passed, BitVec.getElem_signExtend, hi64, hi]

theorem passed_eq_setWidth_iff (isSigned : Bool) (v : BitVec w.bits) :
    passed isSigned v = v.setWidth 64 ↔ ZeroExtends isSigned v := by
  cases isSigned with
  | false => simp [passed, ZeroExtends]
  | true =>
    rw [passed, if_pos rfl]
    cases hmsb : v.msb with
    | false => simp [ZeroExtends, hmsb, BitVec.signExtend_eq_setWidth_of_msb_false hmsb]
    | true =>
      by_cases hw : w = .uint64
      · subst hw
        exact iff_of_true (BitVec.signExtend_eq_setWidth_of_le v le_rfl) fun _ _ => rfl
      · have hlt : w.bits < 64 := by cases w <;> simp_all [ItemLen.bits]
        refine iff_of_false (fun h => ?_) fun h => hw (h rfl hmsb)
        have h := congrArg BitVec.msb h
        simp [BitVec.msb_signExtend, BitVec.msb_setWidth, hmsb, Nat.not_le.mpr hlt] at h
        simp [BitVec.getLsbD_of_ge _ _ (by omega : w.bits ≤ 63)] at h

/-- The search for a value is a first match among the values. -/
theorem tableSearchUTF8String_eq_find (hnamed : table.Named) (bit : BitVec 64) :
    tableSearchUTF8String table bit =
      (table.find? fun line => bit == line.read).map Item.key := by
  induction table with
  | nil => rfl
  | cons line table ih =>
    have hs := (hnamed.s_eq List.mem_cons_self).1
    rw [tableSearchUTF8String, List.find?_cons]
    by_cases hbit : bit = line.read
    · simp [← hbit, hs]
    · rw [if_neg hbit, ih hnamed.tail, beq_false_of_ne hbit]

/-- A value without a line is parsed as zero. -/
theorem enumParse_of_find_eq_none (hnamed : table.Named) {value : BitVec 64}
    (hfind : (table.find? fun line => value == line.read) = none) :
    enumParseUTF8String table (some (enumUTF8String table value)) = 0 := by
  rw [enumUTF8String, tableSearchUTF8String_eq_find hnamed, hfind]
  by_cases hvalue : value = 0
  · simp only [hvalue]
    rfl
  · simp only [Option.map_none, if_neg hvalue, enumParseUTF8String, startsWithDigit_sprintfHex,
      if_true, Option.getD_some, atoll_sprintfHex]

/-- A key is parsed as the value of the first line whose key is a prefix of it. -/
theorem enumParse_key (hnamed : table.Named) {line : Item w} (hline : line ∈ table) :
    ∃ other, first Item.key table line.key = some other ∧
      enumParseUTF8String table (some line.key) = other.read := by
  have hdigit := startsWithDigit_key hnamed hline []
  rw [List.append_nil] at hdigit
  have hsome : (first Item.key table line.key).isSome :=
    List.find?_isSome.mpr ⟨line, hline, by simp⟩
  obtain ⟨other, hother⟩ := Option.isSome_iff_exists.mp hsome
  refine ⟨other, hother, ?_⟩
  rw [enumParseUTF8String, hdigit, if_neg Bool.false_ne_true, enumParseUTF8StringStrict,
    Option.bind_some, matchLine_eq_first hnamed, hother]
  rfl

/-- Lines with the same value are the same line. -/
theorem eq_of_value_eq (hvalues : (table.map Item.value).Nodup) {line other : Item w}
    (hline : line ∈ table) (hother : other ∈ table) (h : line.value = other.value) :
    line = other :=
  List.inj_on_of_nodup_map hvalues hline hother h

/-- Printing and parsing a value gives it back exactly if it reads back. -/
theorem enumParse_enumUTF8String_iff (hnamed : table.Named)
    (hvalues : (table.map Item.value).Nodup) (isSigned : Bool) (v : BitVec w.bits) :
    (enumParseUTF8String table (some (enumUTF8String table (passed isSigned v)))).setWidth
        w.bits = v ↔
      table.ReadsBackValue isSigned v := by
  have hread : ∀ line : Item w, line.read = passed isSigned v →
      line.value = v ∧ ZeroExtends isSigned v := by
    intro line hline
    have hvalue : line.value = v := by
      rw [← line.setWidth_read, hline, setWidth_passed]
    exact ⟨hvalue, (passed_eq_setWidth_iff isSigned v).mp (by rw [← hline, Item.read, hvalue])⟩
  cases hfind : table.find? fun line => passed isSigned v == line.read with
  | none =>
    have hnone : ∀ line ∈ table, ZeroExtends isSigned v → line.value ≠ v := by
      intro line hline hext hvalue
      refine List.find?_eq_none.mp hfind line hline ?_
      rw [(passed_eq_setWidth_iff isSigned v).mpr hext, Item.read, hvalue, beq_self_eq_true]
    rw [enumParse_of_find_eq_none hnamed hfind]
    have hzero : (0 : BitVec 64).setWidth w.bits = 0 := BitVec.setWidth_zero ..
    rw [hzero]
    constructor
    · rintro rfl
      exact .inl ⟨rfl, fun line hline => hnone line hline (by simp [ZeroExtends])⟩
    · rintro (⟨rfl, -⟩ | ⟨hext, before, line, after, rfl, hvalue, -⟩)
      · rfl
      · exact absurd hvalue (hnone line (by simp) hext)
  | some line =>
    have hline := List.mem_of_find?_eq_some hfind
    have hpassed : passed isSigned v = line.read := by simpa using List.find?_some hfind
    obtain ⟨hvalue, hext⟩ := hread line hpassed.symm
    obtain ⟨other, hfirst, hparse⟩ := enumParse_key hnamed hline
    have hprint : enumUTF8String table (passed isSigned v) = line.key := by
      rw [enumUTF8String, tableSearchUTF8String_eq_find hnamed, hfind]
      rfl
    rw [hprint, hparse, other.setWidth_read]
    constructor
    · intro hv
      obtain rfl := eq_of_value_eq hvalues hline (mem_of_first hfirst) (hvalue.trans hv.symm)
      obtain ⟨-, before, after, htable, hbefore⟩ := List.find?_eq_some_iff_append.mp hfirst
      exact .inr ⟨hext, before, line, after, htable, hv, by simpa using hbefore⟩
    · rintro (⟨rfl, hzero⟩ | ⟨-, before, reader, after, htable, hreader, hbefore⟩)
      · exact absurd hvalue (hzero line hline)
      · obtain rfl := eq_of_value_eq hvalues (by simp [htable]) hline (hreader.trans hvalue.symm)
        have hself : first Item.key table reader.key = some reader :=
          List.find?_eq_some_iff_append.mpr
            ⟨by simp, before, after, htable, by simpa using hbefore⟩
        rw [hself] at hfirst
        rw [← Option.some.inj hfirst, hvalue]

/-- The lines of `NS_ENUM_TABLE( MulleObjCTAOStrategy, 8)`. -/
def taoStrategyTable : Table .uint64 :=
  [⟨some "MulleObjCTAOCallerRemovesFromCurrentPool".toList, 0⟩,
   ⟨some "MulleObjCTAOCallerRemovesFromCurrentPoolShallow".toList, 2⟩,
   ⟨some "MulleObjCTAOCallerRemovesFromAllPools".toList, 1⟩,
   ⟨some "MulleObjCTAOCallerRemovesFromAllPoolsShallow".toList, 3⟩,
   ⟨some "MulleObjCTAOReceiverPerformsFinalize".toList, 4⟩,
   ⟨some "MulleObjCTAOTransferIvars".toList, 5⟩,
   ⟨some "MulleObjCTAOKnownThreadSafeMethods".toList, 6⟩,
   ⟨some "MulleObjCTAOKnownThreadSafe".toList, 7⟩]

/-- The key of the second line starts with the key of the first one, and is
parsed as the latter. -/
theorem taoStrategy_two_parsed_as_zero :
    taoStrategyTable.Named ∧ (taoStrategyTable.map Item.key).Nodup ∧
      (taoStrategyTable.map Item.value).Nodup ∧
      enumUTF8String taoStrategyTable (passed (w := .uint64) false 2) =
        "MulleObjCTAOCallerRemovesFromCurrentPoolShallow".toList ∧
      enumParseUTF8String taoStrategyTable
        (some "MulleObjCTAOCallerRemovesFromCurrentPoolShallow".toList) = 0 ∧
      ¬ ∀ (w : ItemLen) (table : Table w), table.Named → (table.map Item.key).Nodup →
        (table.map Item.value).Nodup → ∀ (isSigned : Bool) (v : BitVec w.bits),
          (enumParseUTF8String table
            (some (enumUTF8String table (passed isSigned v)))).setWidth w.bits = v := by
  refine ⟨by decide, by decide, by decide, by decide, by decide, fun h => ?_⟩
  exact absurd (h .uint64 taoStrategyTable (by decide) (by decide) (by decide) false 2)
    (by decide)

/-- No earlier key is a prefix of `MulleObjCTAOTransferIvars`. -/
theorem taoStrategy_five_parsed_back :
    (enumParseUTF8String taoStrategyTable
      (some (enumUTF8String taoStrategyTable (passed (w := .uint64) false 5)))).setWidth 64 =
        5 := by
  have hback : taoStrategyTable.ReadsBackValue false 5 :=
    .inr ⟨nofun, taoStrategyTable.take 5, taoStrategyTable.get ⟨5, by decide⟩,
      taoStrategyTable.drop 6, rfl, rfl, by decide⟩
  exact (enumParse_enumUTF8String_iff (by decide) (by decide) false 5).mpr hback

end Enum

end MulleObjC.Enum
