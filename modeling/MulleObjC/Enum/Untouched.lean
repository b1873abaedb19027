import MulleObjC.Enum.Parse

/-!
# What a failed strict parse leaves behind

`_NS_ENUM_ParseUTF8String_strict` writes `*value` when it has found its key, and not before.
`_NS_OPTIONS_ParseUTF8String_strict` sets `*value` to zero and adds the bits of each key as it
goes. It fails where no key of the table fits, and leaves the bits of the keys in front.
-/

namespace MulleObjC.Enum

open FirstMatch BitCover

/-- The lines in front of the first NULL key. The line loops look no further. -/
def Table.beforeNull {w : ItemLen} (table : Table w) : Table w :=
  table.takeWhile fun line => line.s.isSome

/-- The text starts with the keys of these lines, each with a separator behind it or without one,
and `rest` is left. Each key is the first one of the table that fits where it stands. -/
inductive StartsWithKeys {w : ItemLen} (table : Table w) :
    CString → List (Item w) → CString → Prop
  | nil (text : CString) : StartsWithKeys table text [] text
  | cons {text rest : CString} {line : Item w} {lines : List (Item w)}
      (hfirst : IsFirst Item.key table.beforeNull text line)
      (hrest : StartsWithKeys table (skipBar (text.drop line.key.length)) lines rest) :
      StartsWithKeys table text (line :: lines) rest

/-- There are characters left, and no key of the table is a prefix of them. -/
def Table.NoKeyFits {w : ItemLen} (table : Table w) (rest : CString) : Prop :=
  rest ≠ [] ∧ ∀ line ∈ table.beforeNull, ¬ line.key <+: rest

/-- The first key that fits is empty, and no separator is there to be skipped. -/
def Table.EmptyKeyFits {w : ItemLen} (table : Table w) (rest : CString) : Prop :=
  skipBar rest = rest ∧
    ∃ line, IsFirst Item.key table.beforeNull rest line ∧ line.key = []

section Scan

variable {w : ItemLen} {table : Table w}

/-- The line loop is the first match in front of the first NULL key. -/
theorem matchLine_eq_first_beforeNull (table : Table w) (s : CString) :
    matchLine table s = first Item.key table.beforeNull s := by
  induction table with
  | nil => rfl
  | cons line table ih =>
    rw [matchLine, Table.beforeNull, List.takeWhile_cons]
    cases hs : line.s with
    | none => rfl
    | some key =>
      have hkey : line.key = key := by rw [Item.key, hs, Option.getD_some]
      simp only [Option.isSome_some, if_true, first, List.find?_cons, hkey]
      cases key.isPrefixOf s with
      | true => rfl
      | false => simpa [first, Table.beforeNull] using ih

theorem matchLine_eq_some_iff {s : CString} {line : Item w} :
    matchLine table s = some line ↔ IsFirst Item.key table.beforeNull s line := by
  rw [matchLine_eq_first_beforeNull, first_eq_some_iff]

theorem matchLine_eq_none_iff {s : CString} :
    matchLine table s = none ↔ ∀ line ∈ table.beforeNull, ¬ line.key <+: s := by
  rw [matchLine_eq_first_beforeNull, first, List.find?_eq_none]
  simp only [List.isPrefixOf_iff_prefix]

/-- Only one line is the first that fits. -/
theorem isFirst_unique {s : CString} {line other : Item w}
    (h : IsFirst Item.key table.beforeNull s line)
    (h' : IsFirst Item.key table.beforeNull s other) : line = other :=
  Option.some.inj ((matchLine_eq_some_iff.mpr h).symm.trans (matchLine_eq_some_iff.mpr h'))

theorem Table.NoKeyFits.not_isFirst {s : CString} (h : table.NoKeyFits s) (line : Item w) :
    ¬ IsFirst Item.key table.beforeNull s line :=
  fun hfirst => h.2 line hfirst.mem hfirst.isPrefix

/-- Behind the end of a text nothing is left. -/
theorem StartsWithKeys.eq_nil {lines : List (Item w)} {text rest : CString}
    (h : StartsWithKeys table text lines rest) (htext : text = []) : rest = [] := by
  induction h with
  | nil => exact htext
  | cons _ _ ih => exact ih (by rw [htext, List.drop_nil]; rfl)

/-- An empty key leaves the text as it is. -/
theorem StartsWithKeys.eq_of_emptyKeyFits {lines : List (Item w)} {text rest : CString}
    (h : StartsWithKeys table text lines rest) (hempty : table.EmptyKeyFits text) :
    rest = text := by
  induction h with
  | nil => rfl
  | @cons text rest line lines hfirst _ ih =>
    obtain ⟨hskip, other, hother, hkey⟩ := hempty
    obtain rfl := isFirst_unique hfirst hother
    have hnext : skipBar (text.drop line.key.length) = text := by
      rw [hkey, List.length_nil, List.drop_zero, hskip]
    rw [hnext] at ih
    exact ih ⟨hskip, line, hother, hkey⟩

/-- A text has one place at most where no key fits. -/
theorem StartsWithKeys.unique {text rest rest' : CString} {lines lines' : List (Item w)}
    (h : StartsWithKeys table text lines rest) (hstop : table.NoKeyFits rest)
    (h' : StartsWithKeys table text lines' rest') (hstop' : table.NoKeyFits rest') :
    lines = lines' := by
  induction h generalizing lines' with
  | nil =>
    cases h' with
    | nil => rfl
    | cons hfirst => exact absurd hfirst (hstop.not_isFirst _)
  | cons hfirst _ ih =>
    cases h' with
    | nil => exact absurd hfirst (hstop'.not_isFirst _)
    | cons hfirst' hrest' =>
      obtain rfl := isFirst_unique hfirst hfirst'
      rw [ih hstop hrest']

/-- A text that is used up, or that comes to an empty key, has no such place. -/
theorem StartsWithKeys.not_noKeyFits {text rest rest' : CString} {lines lines' : List (Item w)}
    (h : StartsWithKeys table text lines rest) (hend : rest = [] ∨ table.EmptyKeyFits rest)
    (h' : StartsWithKeys table text lines' rest') : ¬ table.NoKeyFits rest' := by
  intro hstop
  induction h generalizing lines' with
  | nil text =>
    rcases hend with rfl | hempty
    · exact hstop.1 (h'.eq_nil rfl)
    · obtain rfl := h'.eq_of_emptyKeyFits hempty
      obtain ⟨-, line, hfirst, -⟩ := hempty
      exact hstop.not_isFirst line hfirst
  | cons hfirst _ ih =>
    cases h' with
    | nil => exact hstop.not_isFirst _ hfirst
    | cons hfirst' hrest' =>
      obtain rfl := isFirst_unique hfirst hfirst'
      exact ih hend hrest'

theorem skipBar_suffix (s : CString) : skipBar s <:+ s := by
  unfold skipBar
  split
  · exact List.suffix_cons _ _
  · exact List.suffix_refl _

/-- What is left behind a key is shorter, or it is the whole string. -/
theorem skipBar_drop_lt_or_eq (s : CString) (n : ℕ) :
    (skipBar (s.drop n)).length < s.length ∨ skipBar (s.drop n) = s := by
  have hsuffix : skipBar (s.drop n) <:+ s := (skipBar_suffix _).trans (List.drop_suffix n s)
  rcases Nat.lt_or_ge (skipBar (s.drop n)).length s.length with hlt | hge
  · exact .inl hlt
  · exact .inr (hsuffix.eq_of_length (Nat.le_antisymm hsuffix.length_le hge))

/-- A text gets shorter with each key on the way to a place where none fits. An empty key would
be read again and again. -/
theorem StartsWithKeys.length_lt {text rest : CString} {line : Item w} {lines : List (Item w)}
    (h : StartsWithKeys table text (line :: lines) rest) (hstop : table.NoKeyFits rest) :
    (skipBar (text.drop line.key.length)).length < text.length := by
  rcases skipBar_drop_lt_or_eq text line.key.length with hlt | heq
  · exact hlt
  · cases h with
    | cons hfirst hrest =>
      rw [heq] at hrest
      have hlines := hrest.unique hstop (.cons hfirst (by rwa [heq])) hstop
      exact absurd hlines (by simp)

/-- Scanning comes to the end of the text, to an empty key or to a place where no key fits. -/
theorem exists_startsWithKeys (table : Table w) (text : CString) :
    ∃ lines rest, StartsWithKeys table text lines rest ∧
      (rest = [] ∨ table.EmptyKeyFits rest ∨ table.NoKeyFits rest) := by
  induction hn : text.length using Nat.strong_induction_on generalizing text with
  | _ n ih =>
    subst hn
    by_cases htext : text = []
    · exact ⟨[], text, .nil text, .inl htext⟩
    cases hmatch : matchLine table text with
    | none => exact ⟨[], text, .nil text, .inr (.inr ⟨htext, matchLine_eq_none_iff.mp hmatch⟩)⟩
    | some line =>
      have hfirst := matchLine_eq_some_iff.mp hmatch
      rcases skipBar_drop_lt_or_eq text line.key.length with hlt | heq
      · obtain ⟨lines, rest, hrest, hend⟩ := ih _ hlt _ rfl
        exact ⟨line :: lines, rest, .cons hfirst hrest, hend⟩
      · have hlength := congrArg List.length heq
        have hskip := length_skipBar_le (text.drop line.key.length)
        have hpos := List.length_pos_iff.mpr htext
        rw [List.length_drop] at hskip
        have hkey : line.key = [] := List.length_eq_zero_iff.mp (by omega)
        rw [hkey, List.length_nil, List.drop_zero] at heq
        exact ⟨[], text, .nil text, .inr (.inl ⟨heq, line, hfirst, hkey⟩)⟩

/-- Where no key fits the loop fails, with the bits it has collected. -/
theorem optionsParseLoop_of_noKeyFits {text rest : CString} {lines : List (Item w)}
    (h : StartsWithKeys table text lines rest) (hstop : table.NoKeyFits rest) {fuel : ℕ}
    (hfuel : text.length ≤ fuel) (value : BitVec 64) :
    optionsParseLoop table fuel text value = some (false, value ||| union Item.read lines) := by
  induction h generalizing fuel value with
  | nil text =>
    obtain ⟨c, cs, rfl⟩ := List.exists_cons_of_ne_nil hstop.1
    rw [List.length_cons] at hfuel
    obtain ⟨fuel, rfl⟩ : ∃ n, fuel = n + 1 := ⟨fuel - 1, by omega⟩
    rw [optionsParseLoop, matchLine_eq_none_iff.mpr hstop.2]
    simp
  | @cons text rest line lines hfirst hrest ih =>
    have hlt := (StartsWithKeys.cons hfirst hrest).length_lt hstop
    have htext : text ≠ [] := by
      rintro rfl
      simp at hlt
    obtain ⟨c, cs, rfl⟩ := List.exists_cons_of_ne_nil htext
    rw [List.length_cons] at hfuel hlt
    obtain ⟨fuel, rfl⟩ : ∃ n, fuel = n + 1 := ⟨fuel - 1, by omega⟩
    rw [optionsParseLoop, matchLine_eq_some_iff.mpr hfirst]
    dsimp only
    rw [ih hstop (by omega), union_cons, BitVec.or_assoc]

/-- The loop fails nowhere else. -/
theorem startsWithKeys_of_optionsParseLoop {fuel : ℕ} {text : CString}
    {value result : BitVec 64}
    (h : optionsParseLoop table fuel text value = some (false, result)) :
    ∃ lines rest, StartsWithKeys table text lines rest ∧ table.NoKeyFits rest ∧
      result = value ||| union Item.read lines := by
  induction fuel generalizing text value with
  | zero => cases text <;> simp [optionsParseLoop] at h
  | succ fuel ih =>
    cases text with
    | nil => simp [optionsParseLoop] at h
    | cons c cs =>
      rw [optionsParseLoop] at h
      cases hmatch : matchLine table (c :: cs) with
      | none =>
        have hresult : value = result := by simpa [hmatch] using h
        have hstop : table.NoKeyFits (c :: cs) :=
          ⟨List.cons_ne_nil c cs, matchLine_eq_none_iff.mp hmatch⟩
        exact ⟨[], c :: cs, .nil _, hstop, by simp [hresult]⟩
      | some line =>
        simp only [hmatch] at h
        obtain ⟨lines, rest, hrest, hstop, hresult⟩ := ih h
        refine ⟨line :: lines, rest, .cons (matchLine_eq_some_iff.mp hmatch) hrest, hstop, ?_⟩
        rw [hresult, union_cons, BitVec.or_assoc]

/-- `_NS_OPTIONS_ParseUTF8String_strict` returns `NO` with the bits of the keys in front of the
place where none fits. -/
theorem optionsParseUTF8StringStrict_eq_false_iff {text : CString} {value result : BitVec 64} :
    optionsParseUTF8StringStrict table (some text) value = some (false, result) ↔
      ∃ lines rest, StartsWithKeys table text lines rest ∧ table.NoKeyFits rest ∧
        result = union Item.read lines := by
  constructor
  · intro h
    obtain ⟨lines, rest, hlines, hstop, hresult⟩ := startsWithKeys_of_optionsParseLoop h
    exact ⟨lines, rest, hlines, hstop, by simpa using hresult⟩
  · rintro ⟨lines, rest, hlines, hstop, rfl⟩
    have hloop := optionsParseLoop_of_noKeyFits hlines hstop le_rfl 0
    simpa [optionsParseUTF8StringStrict] using hloop

/-- `_NS_ENUM_ParseUTF8String_strict` fails without a write. -/
theorem enumParseUTF8StringStrict_snd_of_false {s : Option CString} {value : BitVec 64}
    (h : (enumParseUTF8StringStrict table s value).1 = false) :
    (enumParseUTF8StringStrict table s value).2 = value := by
  rw [enumParseUTF8StringStrict] at h ⊢
  cases hmatch : s.bind (matchLine table) with
  | none => rfl
  | some line => simp [hmatch] at h

end Scan

/-- `*value` has its prior content whenever a strict parser returns `NO`. -/
def KeepsValue {w : ItemLen} (table : Table w) (s : Option CString) (value : BitVec 64) : Prop :=
  ((enumParseUTF8StringStrict table s value).1 = false →
    (enumParseUTF8StringStrict table s value).2 = value) ∧
  ∀ result, optionsParseUTF8StringStrict table s value = some (false, result) → result = value

/-- A failed strict parse leaves `*value` alone exactly if the string is NULL, if keys go on to
its end or to an empty key, or if the keys in front of the place where none fits happen to make
up the prior content. -/
theorem keepsValue_iff {w : ItemLen} (table : Table w) (s : Option CString) (value : BitVec 64) :
    KeepsValue table s value ↔
      s = none ∨ ∃ text lines rest, s = some text ∧ StartsWithKeys table text lines rest ∧
        (rest = [] ∨ table.EmptyKeyFits rest ∨
          (table.NoKeyFits rest ∧ union Item.read lines = value)) := by
  constructor
  · rintro ⟨-, hkept⟩
    cases s with
    | none => exact .inl rfl
    | some text =>
      obtain ⟨lines, rest, hlines, hend | hempty | hstop⟩ := exists_startsWithKeys table text
      · exact .inr ⟨text, lines, rest, rfl, hlines, .inl hend⟩
      · exact .inr ⟨text, lines, rest, rfl, hlines, .inr (.inl hempty)⟩
      · have hbits := hkept _ (optionsParseUTF8StringStrict_eq_false_iff.mpr
          ⟨lines, rest, hlines, hstop, rfl⟩)
        exact .inr ⟨text, lines, rest, rfl, hlines, .inr (.inr ⟨hstop, hbits⟩)⟩
  · intro hcases
    refine ⟨enumParseUTF8StringStrict_snd_of_false, fun result hfalse => ?_⟩
    rcases hcases with rfl | ⟨text, lines, rest, rfl, hlines, hrest⟩
    · have hresult : value = result := by simpa [optionsParseUTF8StringStrict] using hfalse
      exact hresult.symm
    · obtain ⟨lines', rest', hlines', hstop', rfl⟩ :=
        optionsParseUTF8StringStrict_eq_false_iff.mp hfalse
      rcases hrest with hend | hempty | ⟨hstop, rfl⟩
      · exact absurd hstop' (hlines.not_noKeyFits (.inl hend) hlines')
      · exact absurd hstop' (hlines.not_noKeyFits (.inr hempty) hlines')
      · rw [hlines'.unique hstop' hlines hstop]

/-- `"Unknown"` against the table of `enum-parse-unknown`: the enum parser keeps `0xDEAD`, the
options parser leaves zero. -/
theorem unknown_clears_value :
    ¬ ∀ (w : ItemLen) (table : Table w) (s : Option CString) (value : BitVec 64),
      KeepsValue table s value := by
  intro h
  have hkept := h .uint32 [⟨some "ColorRed".toList, 0⟩, ⟨some "ColorGreen".toList, 1⟩,
    ⟨some "ColorBlue".toList, 2⟩] (some "Unknown".toList) 0xDEAD
  exact absurd (hkept.2 0 (by decide)) (by decide)

end MulleObjC.Enum
