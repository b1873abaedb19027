import MulleObjC.Enum.RoundTrip
import MulleObjC.Library.Terminated

/-!
# The strict options parser and its grammar

`_NS_OPTIONS_ParseUTF8String_strict` moves a pointer through the string. It always ends and
never reads behind the terminator. It should accept a list of keys and nothing else, but it
asks for no separator between two keys, and it takes the first key of the table that fits
where a longer one may stand in the string.
-/

namespace MulleObjC.Enum

open FirstMatch BitCover

/-- The terminator of a string. -/
def nul : Char := Char.ofNat 0

/-- `s[ i]`; `none` is a read behind the terminator. -/
def charAt (s : CString) (i : ℕ) : Option Char := (s ++ [nul])[i]?

/-- `! strncmp( key, &s[ i], strlen( key))` -/
def strncmpAt (s : CString) : CString → ℕ → Option Bool
  | [], _ => some true
  | c :: key, i =>
    (charAt s i).bind fun d => if c = d then strncmpAt s key (i + 1) else some false

/-- The line loop at `&s[ i]`: the matching line, or no line for `return( NO)`. -/
def matchLineAt {w : ItemLen} (s : CString) : Table w → ℕ → Option (Option (Item w))
  | [], _ => some none
  | line :: table, i =>
    match line.s with
    | none => some none
    | some key =>
      (strncmpAt s key i).bind fun found =>
        if found then some (some line) else matchLineAt s table i

/-- `if( *s == '|' && s[ 1] != 0) ++s;` at `&s[ i]`. -/
def skipBarAt (s : CString) (i : ℕ) : Option ℕ :=
  (charAt s i).bind fun c =>
    if c = '|' then (charAt s (i + 1)).bind fun d => if d = nul then some i else some (i + 1)
    else some i

/-- The `while( *s)` loop from `&s[ i]` on, for at most `fuel` tests of its condition; `none` if
it has not ended then or has read behind the terminator. -/
def optionsParseLoopAt {w : ItemLen} (table : Table w) (s : CString) :
    ℕ → ℕ → BitVec 64 → Option (Bool × BitVec 64)
  | 0, _, _ => none
  | fuel + 1, i, value =>
    (charAt s i).bind fun c =>
      if c = nul then some (true, value)
      else
        (matchLineAt s table i).bind fun found =>
          match found with
          | none => some (false, value)
          | some line =>
            (skipBarAt s (i + line.key.length)).bind fun next =>
              optionsParseLoopAt table s fuel next (value ||| line.read)

/-- `_NS_OPTIONS_ParseUTF8String_strict` for a string that is not NULL. A loop that goes on for
longer than the string would go on forever. -/
def optionsParseUTF8StringStrictAt {w : ItemLen} (table : Table w) (s : CString) :
    Option (Bool × BitVec 64) :=
  optionsParseLoopAt table s (s.length + 1) 0 0

section Pointer

variable {w : ItemLen} {table : Table w} {before rest : CString}

theorem charAt_append (before rest : CString) :
    charAt (before ++ rest) before.length = some (rest.headD nul) :=
  Terminated.read_append_length before rest

theorem strncmpAt_eq (s key : CString) (i : ℕ) :
    strncmpAt s key i = Terminated.strncmp nul s key i := by
  induction key generalizing i with
  | nil => rfl
  | cons c key ih =>
    have hnext : strncmpAt s key (i + 1) = Terminated.strncmp nul s key (i + 1) := ih (i + 1)
    rw [strncmpAt, Terminated.strncmp, hnext]
    rfl

/-- The comparison stops at the terminator. -/
theorem strncmpAt_append {key : CString} (hkey : nul ∉ key) (before rest : CString) :
    strncmpAt (before ++ rest) key before.length = some (key.isPrefixOf rest) := by
  rw [strncmpAt_eq]
  exact Terminated.strncmp_append hkey before rest

theorem IsIdentifier.nul_notMem {key : CString} (h : IsIdentifier key) : nul ∉ key := by
  cases key with
  | nil => exact List.not_mem_nil
  | cons c cs =>
    obtain ⟨hc, hcs⟩ := h
    intro hmem
    rcases List.mem_cons.mp hmem with rfl | hmem
    · exact absurd hc (by decide)
    · exact absurd (hcs _ hmem) (by decide)

theorem matchLineAt_append (hnamed : table.Named) :
    matchLineAt (before ++ rest) table before.length = some (matchLine table rest) := by
  induction table with
  | nil => rfl
  | cons line table ih =>
    obtain ⟨hs, hkey⟩ := hnamed.s_eq List.mem_cons_self
    rw [matchLineAt, matchLine, hs]
    dsimp only
    rw [strncmpAt_append hkey.nul_notMem before rest, Option.bind_some, ih hnamed.tail]
    split <;> rfl

/-- The separator is skipped within the string. -/
theorem skipBarAt_append (before : CString) (hrest : nul ∉ rest) :
    ∃ before', before' ++ skipBar rest = before ++ rest ∧
      skipBarAt (before ++ rest) before.length = some before'.length := by
  rw [skipBarAt, charAt_append, Option.bind_some]
  cases rest with
  | nil => exact ⟨before, rfl, if_neg (by decide)⟩
  | cons c rest =>
    rw [List.headD_cons]
    by_cases hc : c = '|'
    · subst hc
      have hnext := charAt_append (before ++ ['|']) rest
      rw [List.append_assoc, List.singleton_append, List.length_append, List.length_singleton]
        at hnext
      rw [if_pos rfl, hnext, Option.bind_some]
      cases rest with
      | nil => exact ⟨before, rfl, if_pos rfl⟩
      | cons d rest =>
        have hd : d ≠ nul := fun hd => hrest (by simp [hd])
        refine ⟨before ++ ['|'], by simp [skipBar], ?_⟩
        rw [List.headD_cons, if_neg hd, List.length_append, List.length_singleton]
    · exact ⟨before, by rw [skipBar_of_head_ne hc], if_neg hc⟩

theorem nul_notMem_skipBar (hrest : nul ∉ rest) : nul ∉ skipBar rest := by
  intro hmem
  unfold skipBar at hmem
  split at hmem
  · exact hrest (List.mem_cons_of_mem _ hmem)
  · exact hrest hmem

/-- The loop with a pointer does what the loop on the rest of the string does. -/
theorem optionsParseLoopAt_append (hnamed : table.Named) (before : CString) (hrest : nul ∉ rest)
    {fuel : ℕ} (hfuel : rest.length < fuel) (value : BitVec 64) :
    optionsParseLoopAt table (before ++ rest) fuel before.length value =
      optionsParseLoop table rest.length rest value := by
  induction fuel generalizing before rest value with
  | zero => omega
  | succ fuel ih =>
    rw [optionsParseLoopAt, charAt_append, Option.bind_some]
    cases rest with
    | nil => rw [List.headD_nil, if_pos rfl, optionsParseLoop]
    | cons c cs =>
      have hc : c ≠ nul := fun hc => hrest (by simp [hc])
      rw [List.headD_cons, if_neg hc, matchLineAt_append hnamed, Option.bind_some,
        optionsParseLoop_step hnamed (List.cons_ne_nil c cs), matchLine_eq_first hnamed]
      cases hfirst : first Item.key table (c :: cs) with
      | none => rfl
      | some line =>
        have hstart := List.isPrefixOf_iff_prefix.mp (isPrefixOf_of_first hfirst)
        have hlt := length_drop_lt (List.cons_ne_nil c cs)
          (hnamed.key_ne_nil line (mem_of_first hfirst))
        have hdrop : nul ∉ (c :: cs).drop line.key.length :=
          fun h => hrest (List.mem_of_mem_drop h)
        have hskip := length_skipBar_le ((c :: cs).drop line.key.length)
        -- the pointer behind the key
        have hsplit : before ++ c :: cs =
            (before ++ line.key) ++ (c :: cs).drop line.key.length := by
          obtain ⟨tail, htail⟩ := hstart
          rw [← htail, List.drop_left, List.append_assoc]
        obtain ⟨before', hbefore', hnext⟩ := skipBarAt_append (before ++ line.key) hdrop
        rw [← hsplit, List.length_append] at hnext
        have hend := ih before' (nul_notMem_skipBar hdrop) (by omega)
          (value ||| line.read)
        rw [hbefore', ← hsplit] at hend
        dsimp only
        rw [hnext, Option.bind_some, hend]

/-- The function ends, and reads no character behind the terminator. -/
theorem optionsParseUTF8StringStrictAt_eq (hnamed : table.Named) {s : CString} (hs : nul ∉ s) :
    optionsParseUTF8StringStrictAt table s = optionsParseLoop table s.length s 0 :=
  optionsParseLoopAt_append hnamed [] hs (Nat.lt_succ_self _) 0

end Pointer

section Grammar

variable {w : ItemLen}

/-- The empty string or a list `key('|'key)*` of keys of the table. -/
def Table.IsKeyList (table : Table w) (s : CString) : Prop :=
  ∃ names : List CString, (∀ name ∈ names, name ∈ table.map Item.key) ∧ s = joinBars names

/-- The bits of a list of keys. -/
def Table.valueOf (table : Table w) (names : List CString) : BitVec 64 :=
  names.foldr
    (fun name bits => (table.find? fun line => line.key = name).elim 0 Item.read ||| bits) 0

/-- The parser returns, with `YES` exactly for lists of keys, and then with their bits. -/
def Table.ParsesStrictly (table : Table w) (s : CString) : Prop :=
  ∃ returned value, optionsParseUTF8StringStrictAt table s = some (returned, value) ∧
    (returned = true ↔ table.IsKeyList s) ∧
    ∀ names : List CString, (∀ name ∈ names, name ∈ table.map Item.key) → s = joinBars names →
      returned = true → value = table.valueOf names

/-- A list of keys of the table, in front of which no earlier key of the table is a prefix of a
listed one; or else all of them are made up of keys that have the bits of the list. -/
def Table.ReadsKeys (table : Table w) (names : List CString) : Prop :=
  (∀ name ∈ names, name ∈ table.map Item.key) ∧
    ((∀ name ∈ names, ∃ line, IsFirst Item.key table name line ∧ line.key = name) ∨
      ∃ pieces, List.Forall₂ (Cut Item.key table) names pieces ∧
        union Item.read pieces.flatten = table.valueOf names)

/-- A list of names that are not all keys, with a name that is empty or not made up of keys. -/
def Table.RejectsNames (table : Table w) (names : List CString) : Prop :=
  (∃ name ∈ names, name ∉ table.map Item.key) ∧
    ∃ name ∈ names, name = [] ∨ ∀ pieces, ¬ Cut Item.key table name pieces

/-- The names between the bars of a string are keys that are read as they stand, or one of them
gives the string away. -/
def Table.SplitsRight (table : Table w) (s : CString) : Prop :=
  s = [] ∨ table.ReadsKeys (s.splitOn '|') ∨ table.RejectsNames (s.splitOn '|')

variable {table : Table w} (hnamed : table.Named)
include hnamed

/-- A list of keys is the list of what stands between its separators. -/
theorem splitOn_joinBars {names : List CString}
    (hnames : ∀ name ∈ names, name ∈ table.map Item.key) (hne : names ≠ []) :
    (joinBars names).splitOn '|' = names := by
  have hbar : ∀ name ∈ names, '|' ∉ name := by
    intro name hname
    obtain ⟨line, hline, rfl⟩ := List.mem_map.mp (hnames name hname)
    exact hnamed.bar_notMem line hline
  rw [joinBars_eq_intercalate, List.splitOn_intercalate '|' hbar hne]

omit hnamed in
/-- A line that is the first one to fit its own key is the line of this key. -/
theorem find?_key_of_isFirst {line : Item w} (h : IsFirst Item.key table line.key line) :
    table.find? (fun other => other.key = line.key) = some line := by
  obtain ⟨before, after, htable, -, hbefore⟩ := h
  refine List.find?_eq_some_iff_append.mpr ⟨by simp, before, after, htable, fun other hother => ?_⟩
  have hkey : other.key ≠ line.key := fun hkey => hbefore other hother (by rw [hkey])
  simp [hkey]

omit hnamed in
/-- Names that are found as they stand have the bits of their lines. -/
theorem exists_pieces_of_isFirst {names : List CString}
    (h : ∀ name ∈ names, ∃ line, IsFirst Item.key table name line ∧ line.key = name) :
    ∃ pieces, List.Forall₂ (Cut Item.key table) names pieces ∧
      union Item.read pieces.flatten = table.valueOf names := by
  induction names with
  | nil => exact ⟨[], .nil, rfl⟩
  | cons name names ih =>
    obtain ⟨⟨line, hfirst, rfl⟩, hnames⟩ := List.forall_mem_cons.mp h
    obtain ⟨pieces, hpieces, hbits⟩ := ih hnames
    have hcons : table.valueOf (line.key :: names) = line.read ||| table.valueOf names := by
      rw [Table.valueOf, List.foldr_cons, find?_key_of_isFirst hfirst]
      rfl
    refine ⟨[line] :: pieces, .cons hfirst.cut_singleton hpieces, ?_⟩
    rw [List.flatten_cons, List.singleton_append, union_cons, hbits, hcons]

/-- Reading a list of keys finds its bits. -/
theorem bitsNamed_eq_valueOf_iff {names : List CString}
    (hnames : ∀ name ∈ names, name ∈ table.map Item.key) :
    table.bitsNamed names = some (table.valueOf names) ↔ table.ReadsKeys names := by
  rw [Table.bitsNamed_eq_some_iff hnamed, Table.ReadsKeys, and_iff_right hnames]
  exact ⟨.inr, fun h => h.elim exists_pieces_of_isFirst id⟩

/-- Reading any other list finds an empty name or one that is not made up of keys. -/
theorem rejectsNames_iff {names : List CString}
    (hnames : ¬ ∀ name ∈ names, name ∈ table.map Item.key) :
    table.RejectsNames names ↔ [] ∈ names ∨ table.bitsNamed names = none := by
  have hother : ∃ name ∈ names, name ∉ table.map Item.key := by simpa using hnames
  rw [Table.bitsNamed_eq_none_iff hnamed, Table.RejectsNames, and_iff_right hother]
  constructor
  · rintro ⟨name, hname, rfl | hcut⟩
    · exact .inl hname
    · exact .inr ⟨name, hname, hcut⟩
  · rintro (hnil | ⟨name, hname, hcut⟩)
    · exact ⟨[], hnil, .inl rfl⟩
    · exact ⟨name, hname, .inr hcut⟩

theorem nil_notMem_keys : [] ∉ table.map Item.key := by
  intro hmem
  obtain ⟨line, hline, hkey⟩ := List.mem_map.mp hmem
  exact hnamed.key_ne_nil line hline hkey

theorem isKeyList_iff {s : CString} (hs : s ≠ []) :
    table.IsKeyList s ↔ ∀ name ∈ s.splitOn '|', name ∈ table.map Item.key := by
  constructor
  · rintro ⟨names, hnames, rfl⟩
    have hne : names ≠ [] := by
      rintro rfl
      exact hs rfl
    rwa [splitOn_joinBars hnamed hnames hne]
  · exact fun h => ⟨_, h, (joinBars_splitOn s).symm⟩

/-- Without characters there is only the empty list of keys. -/
theorem eq_nil_of_joinBars_eq_nil {names : List CString}
    (hnames : ∀ name ∈ names, name ∈ table.map Item.key) (h : joinBars names = []) :
    names = [] := by
  refine (joinBars_eq_nil_iff fun name hname => ?_).mp h
  rintro rfl
  exact nil_notMem_keys hnamed (hnames [] hname)

/-- The strict parser always returns and never reads behind the terminator. It accepts exactly
the lists of keys, with their bits, if and only if the string splits right. -/
theorem optionsParseStrict_iff {s : CString} (hs : nul ∉ s) :
    (∃ returned value, optionsParseUTF8StringStrictAt table s = some (returned, value)) ∧
      (table.ParsesStrictly s ↔ table.SplitsRight s) := by
  have hloop : ∃ returned value,
      optionsParseUTF8StringStrictAt table s = some (returned, value) ∧
        accepted (returned, value) = if s = [] then some 0 else
          if [] ∈ s.splitOn '|' then none else table.bitsNamed (s.splitOn '|') := by
    rw [optionsParseUTF8StringStrictAt_eq hnamed hs]
    by_cases hempty : s = []
    · subst hempty
      exact ⟨true, 0, rfl, rfl⟩
    · have haccepted := optionsParseLoop_accepted hnamed hempty 0
      obtain ⟨⟨returned, value⟩, hreturned, hvalue⟩ := Option.map_eq_some_iff.mp haccepted
      refine ⟨returned, value, hreturned, ?_⟩
      simpa [hempty] using hvalue
  obtain ⟨returned, value, hparse, haccepted⟩ := hloop
  refine ⟨⟨returned, value, hparse⟩, ?_⟩
  have hproperty : table.ParsesStrictly s ↔ (returned = true ↔ table.IsKeyList s) ∧
      ∀ names : List CString, (∀ name ∈ names, name ∈ table.map Item.key) → s = joinBars names →
        returned = true → value = table.valueOf names := by
    constructor
    · rintro ⟨b, v, hbv, hyes, hbits⟩
      obtain ⟨rfl, rfl⟩ := Prod.mk.inj (Option.some.inj (hparse.symm.trans hbv))
      exact ⟨hyes, hbits⟩
    · exact fun h => ⟨returned, value, hparse, h⟩
  rw [hproperty]
  by_cases hempty : s = []
  · subst hempty
    rw [if_pos rfl] at haccepted
    have hreturned : returned = true ∧ value = 0 := by
      cases returned with
      | true => exact ⟨rfl, Option.some.inj haccepted⟩
      | false => cases haccepted
    refine iff_of_true ⟨iff_of_true hreturned.1 ⟨[], List.forall_mem_nil _, rfl⟩, ?_⟩ (.inl rfl)
    intro names hnames hjoin _
    rw [eq_nil_of_joinBars_eq_nil hnamed hnames hjoin.symm]
    exact hreturned.2
  · rw [if_neg hempty] at haccepted
    rw [Table.SplitsRight, or_iff_right hempty, isKeyList_iff hnamed hempty]
    by_cases hkeys : ∀ name ∈ s.splitOn '|', name ∈ table.map Item.key
    · have hnil : [] ∉ s.splitOn '|' := fun h => nil_notMem_keys hnamed (hkeys [] h)
      have hother : ¬ table.RejectsNames (s.splitOn '|') :=
        fun ⟨⟨name, hname, hkey⟩, _⟩ => hkey (hkeys name hname)
      rw [if_neg hnil] at haccepted
      rw [or_iff_left hother, ← bitsNamed_eq_valueOf_iff hnamed hkeys, ← haccepted]
      constructor
      · rintro ⟨hyes, hbits⟩
        have htrue := hyes.mpr hkeys
        rw [htrue, accepted, hbits _ hkeys (joinBars_splitOn s).symm htrue]
      · intro hvalue
        cases returned with
        | false => cases hvalue
        | true =>
          refine ⟨iff_of_true rfl hkeys, fun names hnames hjoin _ => ?_⟩
          have hne : names ≠ [] := by
            rintro rfl
            exact hempty hjoin
          rw [← splitOn_joinBars hnamed hnames hne, ← hjoin]
          exact Option.some.inj hvalue
    · have hnone : table.ReadsKeys (s.splitOn '|') ∨ table.RejectsNames (s.splitOn '|') ↔
          accepted (returned, value) = none := by
        rw [or_iff_right fun h => hkeys h.1, rejectsNames_iff hnamed hkeys, haccepted]
        split
        case isTrue hnil => exact iff_of_true (.inl hnil) rfl
        case isFalse hnil => rw [or_iff_right hnil]
      rw [hnone]
      cases returned with
      | false => exact iff_of_true ⟨iff_of_false Bool.false_ne_true hkeys,
        fun _ _ _ h => absurd h Bool.false_ne_true⟩ rfl
      | true => exact iff_of_false (fun h => hkeys (h.1.mp rfl)) fun h => Option.some_ne_none _ h

end Grammar

/-- Two keys with a separator are parsed as they should be. -/
theorem foo_parsed_strictly : fooTable.ParsesStrictly "FooC|FooA".toList := by
  have hfirst : ∀ name ∈ "FooC|FooA".toList.splitOn '|',
      ∃ line, IsFirst Item.key fooTable name line ∧ line.key = name := by
    intro name hname
    have hparts : "FooC|FooA".toList.splitOn '|' = ["FooC".toList, "FooA".toList] := by decide
    rw [hparts, List.mem_cons, List.mem_singleton] at hname
    rcases hname with rfl | rfl
    · exact ⟨⟨some "FooC".toList, 0x10⟩, first_eq_some_iff.mp (by decide), rfl⟩
    · exact ⟨⟨some "FooA".toList, 0x01⟩, first_eq_some_iff.mp (by decide), rfl⟩
  exact (optionsParseStrict_iff (by decide) (by decide)).2.mpr
    (.inr (.inl ⟨by decide, .inl hfirst⟩))

/-- Two keys without a separator are accepted. -/
theorem foo_run_together_accepted :
    fooTable.Named ∧ nul ∉ "FooAFooB".toList ∧
      optionsParseUTF8StringStrictAt fooTable "FooAFooB".toList = some (true, 5) ∧
      ¬ fooTable.IsKeyList "FooAFooB".toList ∧
      ¬ ∀ (w : ItemLen) (table : Table w) (s : CString), table.Named → nul ∉ s →
        table.ParsesStrictly s := by
  have hparse : optionsParseUTF8StringStrictAt fooTable "FooAFooB".toList = some (true, 5) := by
    decide
  have hlist : ¬ fooTable.IsKeyList "FooAFooB".toList := by
    rw [isKeyList_iff (by decide) (by decide)]
    decide
  refine ⟨by decide, by decide, hparse, hlist, fun h => ?_⟩
  obtain ⟨returned, value, hreturned, hyes, -⟩ := h _ fooTable "FooAFooB".toList (by decide)
    (by decide)
  obtain ⟨rfl, rfl⟩ := Prod.mk.inj (Option.some.inj (hparse.symm.trans hreturned))
  exact hlist (hyes.mp rfl)

end MulleObjC.Enum
