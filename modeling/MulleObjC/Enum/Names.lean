import MulleObjC.Enum.Print
import MulleObjC.Enum.Parse

/-!
# Parsing a list of names

The strict parser goes through a list of names that are joined by `|` name by name, and splits
every name into the first keys of the table that match as prefixes. It accepts the list if no
name is empty and every name is used up, and then names the bits of all keys it has found.
-/

namespace MulleObjC.Enum

open FirstMatch BitCover

/-- The bits named by a list of names, when each name is split into the first
keys that match; `none` if some name cannot be used up. -/
def Table.bitsNamed {w : ItemLen} (table : Table w) (names : List CString) : Option (BitVec 64) :=
  (names.mapM (read Item.key table)).map fun lines => union Item.read lines.flatten

theorem Table.bitsNamed_cons {w : ItemLen} (table : Table w) (s : CString)
    (names : List CString) :
    table.bitsNamed (s :: names) =
      match read Item.key table s with
      | none => none
      | some lines => (table.bitsNamed names).map (union Item.read lines ||| ·) := by
  rw [bitsNamed, List.mapM_cons, bitsNamed]
  cases read Item.key table s with
  | none => rfl
  | some lines =>
    cases names.mapM (read Item.key table) with
    | none => rfl
    | some more => simp [union_append]

/-- A list of names has bits exactly if every name is made up of keys, each the first one of the
table that fits, and these are the bits of all of them. -/
theorem Table.bitsNamed_eq_some_iff {w : ItemLen} {table : Table w} (hnamed : table.Named)
    {names : List CString} {bits : BitVec 64} :
    table.bitsNamed names = some bits ↔
      ∃ pieces, List.Forall₂ (Cut Item.key table) names pieces ∧
        union Item.read pieces.flatten = bits := by
  induction names generalizing bits with
  | nil => simp [bitsNamed]
  | cons s names ih =>
    rw [bitsNamed_cons]
    constructor
    · intro h
      cases hread : read Item.key table s with
      | none => simp [hread] at h
      | some lines =>
        simp only [hread, Option.map_eq_some_iff] at h
        obtain ⟨rest, hrest, rfl⟩ := h
        obtain ⟨pieces, hpieces, rfl⟩ := ih.mp hrest
        have hcut := (read_eq_some_iff hnamed.key_ne_nil).mp hread
        exact ⟨lines :: pieces, .cons hcut hpieces, by rw [List.flatten_cons, union_append]⟩
    · rintro ⟨_, hpieces, rfl⟩
      obtain ⟨lines, pieces, hcut, hrest, rfl⟩ := List.forall₂_cons_left_iff.mp hpieces
      rw [(read_eq_some_iff hnamed.key_ne_nil).mpr hcut, List.flatten_cons, union_append]
      simp [ih.mpr ⟨pieces, hrest, rfl⟩]

/-- Otherwise some name is not made up of keys in this way. -/
theorem Table.bitsNamed_eq_none_iff {w : ItemLen} {table : Table w} (hnamed : table.Named)
    {names : List CString} :
    table.bitsNamed names = none ↔
      ∃ name ∈ names, ∀ lines, ¬ Cut Item.key table name lines := by
  induction names with
  | nil => simp [bitsNamed]
  | cons s names ih =>
    rw [bitsNamed_cons]
    cases hread : read Item.key table s with
    | none =>
      refine iff_of_true rfl ⟨s, List.mem_cons_self, fun lines hcut => ?_⟩
      simp [(read_eq_some_iff hnamed.key_ne_nil).mpr hcut] at hread
    | some lines =>
      have hcut := (read_eq_some_iff hnamed.key_ne_nil).mp hread
      simp only [Option.map_eq_none_iff, ih, List.exists_mem_cons_iff]
      exact (or_iff_right fun hnone => hnone lines hcut).symm

/-- The value of a string that is accepted. -/
def accepted : Bool × BitVec 64 → Option (BitVec 64)
  | (true, value) => some value
  | (false, _) => none

theorem map_valueOrZero (r : Option (Bool × BitVec 64)) :
    r.map valueOrZero = (r.map accepted).map (Option.getD · 0) := by
  rw [Option.map_map]
  congr 1
  funext ⟨b, value⟩
  cases b <;> rfl

variable {w : ItemLen} {table : Table w} (hnamed : table.Named)
include hnamed

/-- No key matches at a separator. -/
theorem first_bar (s : CString) : first Item.key table ('|' :: s) = none := by
  refine List.find?_eq_none.mpr fun line hline => ?_
  have hkey := (hnamed.s_eq hline).2
  cases hs : line.key with
  | nil => exact absurd hs hkey.ne_nil
  | cons c cs =>
    have hc : c ≠ '|' := by
      rintro rfl
      exact hkey.bar_notMem (by simp [hs])
    simp [List.isPrefixOf, hc]

/-- A string that starts with a separator is rejected. -/
theorem optionsParseLoop_first_bar (s : CString) (value : BitVec 64) :
    optionsParseLoop table ('|' :: s).length ('|' :: s) value = some (false, value) := by
  rw [optionsParseLoop_step hnamed (List.cons_ne_nil _ _), first_bar hnamed]

/-- The last name of a list. -/
theorem optionsParseLoop_last (name : CString) (hbar : '|' ∉ name) (value : BitVec 64) :
    (optionsParseLoop table name.length name value).map accepted =
      match read Item.key table name with
      | none => some none
      | some lines => some (some (value ||| union Item.read lines)) := by
  induction hn : name.length using Nat.strong_induction_on generalizing name value with
  | _ n ih =>
    subst hn
    by_cases hname : name = []
    · simp [hname, optionsParseLoop, accepted]
    rw [optionsParseLoop_step hnamed hname, read_eq hnamed.key_ne_nil hname]
    cases hfirst : first Item.key table name with
    | none => simp [accepted]
    | some line =>
      have hdrop : '|' ∉ name.drop line.key.length := fun h => hbar (List.mem_of_mem_drop h)
      have hskip : skipBar (name.drop line.key.length) = name.drop line.key.length := by
        cases hrest : name.drop line.key.length with
        | nil => rfl
        | cons c cs => exact skipBar_of_head_ne fun hc => hdrop (by simp [hrest, hc])
      have hlt := length_drop_lt hname (hnamed.key_ne_nil line (mem_of_first hfirst))
      have h := ih _ hlt (name.drop line.key.length) hdrop (value ||| line.read) rfl
      simp only [hskip, h]
      cases read Item.key table (name.drop line.key.length) with
      | none => rfl
      | some lines => simp [BitVec.or_assoc]

/-- A name that is followed by a separator and further names. -/
theorem optionsParseLoop_bar (name : CString) (hname : name ≠ []) (hbar : '|' ∉ name)
    (more : CString) (hmore : more ≠ []) (value : BitVec 64) :
    (optionsParseLoop table (name ++ '|' :: more).length (name ++ '|' :: more) value).map
        accepted =
      match read Item.key table name with
      | none => some none
      | some lines =>
        (optionsParseLoop table more.length more (value ||| union Item.read lines)).map
          accepted := by
  induction hn : name.length using Nat.strong_induction_on generalizing name value with
  | _ n ih =>
    subst hn
    rw [optionsParseLoop_step hnamed (by simp), first_append_separator hnamed.bar_notMem,
      read_eq hnamed.key_ne_nil hname]
    cases hfirst : first Item.key table name with
    | none => simp [accepted]
    | some line =>
      have hdrop : '|' ∉ name.drop line.key.length := fun h => hbar (List.mem_of_mem_drop h)
      have hle := length_le_of_isPrefixOf (isPrefixOf_of_first hfirst)
      have hlt := length_drop_lt hname (hnamed.key_ne_nil line (mem_of_first hfirst))
      simp only [List.drop_append_of_le_length hle]
      cases hrest : name.drop line.key.length with
      | nil =>
        have hskip : skipBar ('|' :: more) = more := by
          cases more with
          | nil => exact absurd rfl hmore
          | cons c cs => rfl
        simp [hskip]
      | cons c cs =>
        have hc : c ≠ '|' := fun hc => hdrop (by simp [hrest, hc])
        rw [hrest] at hlt hdrop
        have h := ih _ hlt (c :: cs) (List.cons_ne_nil c cs) hdrop (value ||| line.read) rfl
        rw [List.cons_append, skipBar_of_head_ne hc]
        rw [List.cons_append] at h
        simp only [h]
        cases read Item.key table (c :: cs) with
        | none => rfl
        | some lines => simp [BitVec.or_assoc]

/-- A joined list of names is parsed name by name. -/
theorem optionsParseLoop_joinBars (names : List CString) (hne : ∀ s ∈ names, s ≠ [])
    (hbar : ∀ s ∈ names, '|' ∉ s) (value : BitVec 64) :
    (optionsParseLoop table (joinBars names).length (joinBars names) value).map accepted =
      match table.bitsNamed names with
      | none => some none
      | some bits => some (some (value ||| bits)) := by
  induction names generalizing value with
  | nil => simp [joinBars, optionsParseLoop, accepted, Table.bitsNamed]
  | cons s rest ih =>
    have hs := hbar s List.mem_cons_self
    have ih := ih (fun t ht => hne t (List.mem_cons_of_mem _ ht))
      (fun t ht => hbar t (List.mem_cons_of_mem _ ht))
    cases rest with
    | nil =>
      rw [joinBars, optionsParseLoop_last hnamed s hs]
      rw [table.bitsNamed_cons]
      cases read Item.key table s <;> simp [Table.bitsNamed]
    | cons t rest =>
      have hmore : joinBars (t :: rest) ≠ [] := by
        rw [ne_eq, joinBars_eq_nil_iff fun u hu => hne u (List.mem_cons_of_mem _ hu)]
        exact List.cons_ne_nil t rest
      rw [joinBars, optionsParseLoop_bar hnamed s (hne s List.mem_cons_self) hs _ hmore]
      rw [table.bitsNamed_cons]
      cases read Item.key table s with
      | none => rfl
      | some lines =>
        simp only [ih]
        cases table.bitsNamed (t :: rest) with
        | none => rfl
        | some bits => simp [BitVec.or_assoc]

/-- A separator at the end is not skipped. -/
theorem optionsParseLoop_end_bar (name : CString) (hbar : '|' ∉ name) (value : BitVec 64) :
    (optionsParseLoop table (name ++ ['|']).length (name ++ ['|']) value).map accepted =
      some none := by
  induction hn : name.length using Nat.strong_induction_on generalizing name value with
  | _ n ih =>
    subst hn
    by_cases hname : name = []
    · rw [hname, List.nil_append, optionsParseLoop_first_bar hnamed]
      rfl
    rw [optionsParseLoop_step hnamed (by simp), first_append_separator hnamed.bar_notMem]
    cases hfirst : first Item.key table name with
    | none => rfl
    | some line =>
      have hdrop : '|' ∉ name.drop line.key.length := fun h => hbar (List.mem_of_mem_drop h)
      have hle := length_le_of_isPrefixOf (isPrefixOf_of_first hfirst)
      have hlt := length_drop_lt hname (hnamed.key_ne_nil line (mem_of_first hfirst))
      have hnext := ih _ hlt (name.drop line.key.length) hdrop (value ||| line.read) rfl
      simp only [List.drop_append_of_le_length hle]
      cases hrest : name.drop line.key.length with
      | nil =>
        rw [hrest] at hnext
        exact hnext
      | cons c cs =>
        have hc : c ≠ '|' := fun hc => hdrop (by simp [hrest, hc])
        rw [hrest, List.cons_append] at hnext
        rw [List.cons_append, skipBar_of_head_ne hc]
        exact hnext

/-- A joined list with an empty name is rejected. -/
theorem optionsParseLoop_of_nil_mem (names : List CString) (hnil : [] ∈ names)
    (hbar : ∀ s ∈ names, '|' ∉ s) (hne : joinBars names ≠ []) (value : BitVec 64) :
    (optionsParseLoop table (joinBars names).length (joinBars names) value).map accepted =
      some none := by
  induction names generalizing value with
  | nil => cases hnil
  | cons s rest ih =>
    have hs := hbar s List.mem_cons_self
    have hrest := fun t ht => hbar t (List.mem_cons_of_mem s ht)
    cases rest with
    | nil =>
      obtain rfl := List.mem_singleton.mp hnil
      exact absurd rfl hne
    | cons t rest =>
      rw [joinBars]
      by_cases hempty : s = []
      · rw [hempty, List.nil_append, optionsParseLoop_first_bar hnamed]
        rfl
      by_cases hmore : joinBars (t :: rest) = []
      · rw [hmore]
        exact optionsParseLoop_end_bar hnamed s hs value
      · have hmem : [] ∈ t :: rest := (List.mem_cons.mp hnil).resolve_left (Ne.symm hempty)
        rw [optionsParseLoop_bar hnamed s hempty hs _ hmore]
        cases read Item.key table s with
        | none => rfl
        | some lines => exact ih hmem hrest hmore _

omit hnamed in
theorem joinBars_eq_intercalate (names : List CString) :
    joinBars names = ['|'].intercalate names := by
  induction names with
  | nil => rfl
  | cons s rest ih =>
    cases rest with
    | nil => simp [joinBars, List.intercalate]
    | cons t rest =>
      rw [joinBars, ih]
      simp [List.intercalate]

omit hnamed in
/-- A string is the list of what stands between its separators. -/
theorem joinBars_splitOn (s : CString) : joinBars (s.splitOn '|') = s := by
  rw [joinBars_eq_intercalate, List.intercalate_splitOn]

omit hnamed in
theorem bar_notMem_of_mem_splitOn {s name : CString} (h : name ∈ s.splitOn '|') :
    '|' ∉ name := by
  induction s generalizing name with
  | nil =>
    rw [List.splitOn_nil, List.mem_singleton] at h
    simp [h]
  | cons c s ih =>
    rw [List.splitOn_cons_eq_if_modifyHead] at h
    split at h
    · rcases List.mem_cons.mp h with rfl | h
      · exact List.not_mem_nil
      · exact ih h
    · rename_i hc
      cases hsplit : s.splitOn '|' with
      | nil => exact absurd hsplit (List.splitOn_ne_nil _ _)
      | cons first names =>
        rw [hsplit] at ih
        rw [hsplit, List.modifyHead_cons] at h
        rcases List.mem_cons.mp h with rfl | h
        · intro hmem
          rcases List.mem_cons.mp hmem with rfl | hmem
          · exact hc (beq_self_eq_true _)
          · exact ih List.mem_cons_self hmem
        · exact ih (List.mem_cons_of_mem _ h)

/-- What the strict parser accepts: the names between the bars of a string other than the empty
one, if none of them is empty and all of them are used up. -/
theorem optionsParseLoop_accepted {s : CString} (hs : s ≠ []) (value : BitVec 64) :
    (optionsParseLoop table s.length s value).map accepted =
      some (if [] ∈ s.splitOn '|' then none
        else (table.bitsNamed (s.splitOn '|')).map (value ||| ·)) := by
  have hbar : ∀ name ∈ s.splitOn '|', '|' ∉ name := fun _ => bar_notMem_of_mem_splitOn
  by_cases hnil : [] ∈ s.splitOn '|'
  · have hloop := optionsParseLoop_of_nil_mem hnamed _ hnil hbar (by rwa [joinBars_splitOn]) value
    rw [if_pos hnil]
    rwa [joinBars_splitOn] at hloop
  · have hne : ∀ name ∈ s.splitOn '|', name ≠ [] := by
      rintro name hname rfl
      exact hnil hname
    have hloop := optionsParseLoop_joinBars hnamed _ hne hbar value
    rw [joinBars_splitOn] at hloop
    rw [if_neg hnil, hloop]
    cases table.bitsNamed (s.splitOn '|') <;> rfl

end MulleObjC.Enum
