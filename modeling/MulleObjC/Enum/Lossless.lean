import MulleObjC.Enum.Print

/-!
# Printed options account for every bit

The keys printed for a pattern are those of the greedy cover: no bit is claimed twice, no
entry is left out that could claim its bits, and the hexadecimal number stands for the bits
that nobody claims. Only the zero pattern is printed as the zero entry.
-/

namespace MulleObjC.Enum

open BitCover

variable {w : ItemLen} {table : Table w}

/-- `NS_OPTIONS_ITEM( name)` pairs the name of an enumerator with its value, so a key that is
listed twice has the same value. -/
def Table.Enumerates (table : Table w) : Prop :=
  ∀ line ∈ table, ∀ other ∈ table, line.key = other.key → line.value = other.value

instance (table : Table w) : Decidable table.Enumerates :=
  inferInstanceAs (Decidable (∀ line ∈ table, ∀ other ∈ table, _))

/-- The names printed for a pattern other than zero. -/
def Table.printedNames (table : Table w) (bits : BitVec 64) : List CString :=
  (table.listed bits).map Item.key ++
    if table.residue bits ≠ 0 then [sprintfHex (table.residue bits)] else []

/-- A pattern other than zero has something listed or leaves a residue. -/
theorem printedNames_ne_nil {bits : BitVec 64} (hbits : bits ≠ 0) :
    table.printedNames bits ≠ [] := by
  intro hnil
  obtain ⟨hlisted, hres⟩ := List.append_eq_nil_iff.mp hnil
  have hzero : table.residue bits = 0 := by
    by_contra hne
    rw [if_pos hne] at hres
    cases hres
  have hunion := union_picked_of_residue_eq_zero Item.read hzero
  rw [List.map_eq_nil_iff, Table.listed] at hlisted
  rw [hlisted, union_nil] at hunion
  exact hbits hunion.symm

/-- A pattern other than zero is printed as its names, joined by bars. -/
theorem optionsUTF8String_of_ne_zero (hnamed : table.Named) {bits : BitVec 64} (hbits : bits ≠ 0) :
    optionsUTF8String table bits = joinBars (table.printedNames bits) := by
  rw [optionsUTF8String_eq hnamed, Table.printedNames]
  by_cases hres : table.residue bits = 0
  · rw [if_neg (by simpa using hres), if_neg hbits, if_neg (by simpa using hres),
      List.append_nil]
  · rw [if_pos hres, if_pos hres]

theorem optionsUTF8String_zero (hnamed : table.Named) :
    optionsUTF8String table 0 = (table.zeroKey none).getD ['0'] := by
  have hres : table.residue 0 = 0 := residue_zero _ _
  rw [optionsUTF8String_eq hnamed, if_neg (by simpa using hres), if_pos rfl]

/-- The remembered key is that of an entry with the value zero, if there is one. -/
theorem zeroKey_cases (hnamed : table.Named) (empty : Option CString) :
    (∃ line ∈ table, line.read = 0 ∧ table.zeroKey empty = some line.key) ∨
      ((∀ line ∈ table, line.read ≠ 0) ∧ table.zeroKey empty = empty) := by
  induction table generalizing empty with
  | nil => exact .inr ⟨List.forall_mem_nil _, rfl⟩
  | cons line table ih =>
    rw [Table.zeroKey]
    rcases ih hnamed.tail (if line.read = 0 then line.s else empty) with
      ⟨other, hother, hzero, hkey⟩ | ⟨hnone, hkey⟩
    · exact .inl ⟨other, List.mem_cons_of_mem _ hother, hzero, hkey⟩
    · rw [hkey]
      by_cases hline : line.read = 0
      · refine .inl ⟨line, List.mem_cons_self, hline, ?_⟩
        rw [if_pos hline, (hnamed.s_eq List.mem_cons_self).1]
      · exact .inr ⟨List.forall_mem_cons.mpr ⟨hline, hnone⟩, if_neg hline⟩

/-- A joined list of at least two names contains a bar. -/
theorem bar_mem_joinBars {s t : CString} {names : List CString} :
    '|' ∈ joinBars (s :: t :: names) := by
  simp [joinBars]

/-- Only the zero pattern is printed as a zero digit or as the key of a zero entry. -/
theorem optionsUTF8String_ne_of_ne_zero (hnamed : table.Named) (hvalues : table.Enumerates)
    {bits : BitVec 64} (hbits : bits ≠ 0) :
    optionsUTF8String table bits ≠ ['0'] ∧
      ∀ line ∈ table, line.read = 0 → optionsUTF8String table bits ≠ line.key := by
  have hne : table.printedNames bits ≠ [] := printedNames_ne_nil hbits
  rw [optionsUTF8String_of_ne_zero hnamed hbits]
  cases hnames : table.printedNames bits with
  | nil => exact absurd hnames hne
  | cons s names =>
    cases names with
    | cons t names =>
      -- names contain no bar
      have hbar : '|' ∈ joinBars (s :: t :: names) := bar_mem_joinBars
      constructor
      · intro heq
        simp [heq] at hbar
      · intro line hline _ heq
        exact (hnamed.s_eq hline).2.bar_notMem (heq ▸ hbar)
    | nil =>
      rw [joinBars]
      rw [Table.printedNames] at hnames
      cases hlisted : table.listed bits with
      | nil =>
        -- the residue alone
        rw [hlisted, List.map_nil, List.nil_append] at hnames
        have hs : s = sprintfHex (table.residue bits) := by
          split at hnames
          · exact (List.cons.inj hnames).1.symm
          · cases hnames
        subst hs
        constructor
        · simp [sprintfHex]
        · intro line hline _ heq
          have hkey := (hnamed.s_eq hline).2
          rw [← heq, sprintfHex] at hkey
          exact absurd hkey.head_not_isDigit (by decide)
      | cons other lines =>
        rw [hlisted, List.map_cons, List.cons_append] at hnames
        obtain rfl := (List.cons.inj hnames).1
        have hmem : other ∈ table.listed bits := hlisted ▸ List.mem_cons_self
        have hother := mem_of_mem_picked _ hmem
        have hkey := (hnamed.s_eq hother).2
        constructor
        · intro heq
          rw [heq] at hkey
          exact absurd hkey.head_not_isDigit (by decide)
        · intro line hline hzero heq
          have hvalue := hvalues other hother line hline heq
          refine (picks_of_mem_picked Item.read hmem).1 ?_
          rw [Item.read, hvalue, ← Item.read, hzero]

/-- What is printed accounts for every bit of the pattern. The listed entries come in the order
of the table, their values are nonzero parts of the pattern without a bit of an earlier one, and
an entry with such a value is listed. The number behind them is printed exactly if bits are left
over, and stands for these. The string is not empty, and only the zero pattern is printed as the
zero entry's name or, without such an entry, as zero. -/
theorem optionsUTF8String_lossless (hnamed : table.Named) (hvalues : table.Enumerates)
    (bits : BitVec 64) :
    (table.listed bits).Sublist table ∧
    (∀ line ∈ table.listed bits, line.read ≠ 0 ∧ bits &&& line.read = line.read) ∧
    (table.listed bits).Pairwise (fun earlier line => earlier.read &&& line.read = 0) ∧
    (∀ before line after, table = before ++ line :: after →
      line.read ≠ 0 → bits &&& line.read = line.read →
      (∀ earlier ∈ Table.listed before bits, earlier.read &&& line.read = 0) →
      Table.listed before bits ++ [line] <+: table.listed bits) ∧
    table.residue bits = bits &&& ~~~union Item.read (table.listed bits) ∧
    union Item.read (table.listed bits) ||| table.residue bits = bits ∧
    (bits ≠ 0 → optionsUTF8String table bits = joinBars (table.printedNames bits)) ∧
    optionsUTF8String table bits ≠ [] ∧
    (bits = 0 →
      (∃ line ∈ table, line.read = 0 ∧ optionsUTF8String table bits = line.key) ∨
        ((∀ line ∈ table, line.read ≠ 0) ∧ optionsUTF8String table bits = ['0'])) ∧
    (bits ≠ 0 → optionsUTF8String table bits ≠ ['0'] ∧
      ∀ line ∈ table, line.read = 0 → optionsUTF8String table bits ≠ line.key) := by
  have hzero : bits = 0 →
      (∃ line ∈ table, line.read = 0 ∧ optionsUTF8String table bits = line.key) ∨
        ((∀ line ∈ table, line.read ≠ 0) ∧ optionsUTF8String table bits = ['0']) := by
    rintro rfl
    rw [optionsUTF8String_zero hnamed]
    rcases zeroKey_cases hnamed none with ⟨line, hline, hread, hkey⟩ | ⟨hnone, hkey⟩
    · exact .inl ⟨line, hline, hread, by rw [hkey, Option.getD_some]⟩
    · exact .inr ⟨hnone, by rw [hkey, Option.getD_none]⟩
  refine ⟨picked_sublist _ _ _, fun line hline => picks_of_mem_picked _ hline,
    pairwise_picked _ _ _, ?_, residue_eq _ _ _, union_picked_or_residue _ _ _,
    optionsUTF8String_of_ne_zero hnamed, ?_, hzero, optionsUTF8String_ne_of_ne_zero hnamed hvalues⟩
  · rintro before line after rfl hne hsub hfree
    have hpicks : Picks Item.read (BitCover.residue Item.read before bits) line :=
      ⟨hne, residue_and_eq Item.read hsub hfree⟩
    rw [Table.listed, Table.listed, picked_append, picked, if_pos hpicks]
    exact ⟨_, List.append_assoc _ _ _⟩
  · by_cases hbits : bits = 0
    · rcases hzero hbits with ⟨line, hline, -, hkey⟩ | ⟨-, hkey⟩
      · rw [hkey]
        exact (hnamed.s_eq hline).2.ne_nil
      · rw [hkey]
        exact List.cons_ne_nil _ _
    · rw [optionsUTF8String_of_ne_zero hnamed hbits, ne_eq, joinBars_eq_nil_iff]
      · exact printedNames_ne_nil hbits
      · intro s hs
        rcases List.mem_append.mp hs with hs | hs
        · exact hnamed.listed_ne_nil bits s hs
        · split at hs
          · rw [List.mem_singleton.mp hs, sprintfHex]
            exact List.cons_ne_nil _ _
          · cases hs

/-- A table whose entry `Both` overlaps the entries around it. -/
def overlappingTable : Table .uint8 :=
  [⟨some "None".toList, 0⟩, ⟨some "Low".toList, 1⟩, ⟨some "Both".toList, 3⟩,
    ⟨some "High".toList, 2⟩]

/-- `Both` is not listed, because `Low` has claimed a bit of it. -/
theorem overlapping_eleven_printed :
    optionsUTF8String overlappingTable 11 = "Low|High|0x8".toList ∧
      optionsUTF8String overlappingTable 11 ≠ [] :=
  ⟨by decide, (optionsUTF8String_lossless (by decide) (by decide) 11).2.2.2.2.2.2.2.1⟩

end MulleObjC.Enum
