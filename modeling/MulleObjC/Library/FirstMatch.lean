import Mathlib.Data.List.Basic

/-!
# Reading a text by first matching words

A dictionary is a list of items, each with a word. A text is read by splitting
off, again and again, the word of the first item whose word is a prefix of what
is left. The order of the dictionary matters as soon as one word is a prefix of
another one.
-/

namespace FirstMatch

variable {α ι : Type*}

/-- A nonempty word shortens a nonempty text. -/
theorem length_drop_lt {s w : List α} (hs : s ≠ []) (hw : w ≠ []) :
    (s.drop w.length).length < s.length := by
  have hs' := List.length_pos_iff.mpr hs
  have hw' := List.length_pos_iff.mpr hw
  rw [List.length_drop]
  omega

variable (word : ι → List α)

/-- The item is the first one of the dictionary whose word is a prefix of the text. -/
def IsFirst (dict : List ι) (s : List α) (i : ι) : Prop :=
  ∃ before after, dict = before ++ i :: after ∧ word i <+: s ∧ ∀ j ∈ before, ¬ word j <+: s

/-- The text is made up of the words of these items, and each of them is the first one that
fits where its word starts. -/
def Cut (dict : List ι) (s : List α) (is : List ι) : Prop :=
  s = (is.map word).flatten ∧
    ∀ before i after, is = before ++ i :: after →
      IsFirst word dict ((i :: after).map word).flatten i

variable [BEq α]

/-- The first item of the dictionary whose word is a prefix of the text. -/
def first (dict : List ι) (s : List α) : Option ι :=
  dict.find? fun i => (word i).isPrefixOf s

/-- Read a text in at most `fuel` words; `none` if it cannot be used up. -/
def readWithin (dict : List ι) : ℕ → List α → Option (List ι)
  | _, [] => some []
  | 0, _ :: _ => none
  | fuel + 1, c :: cs =>
    match first word dict (c :: cs) with
    | none => none
    | some i => (readWithin dict fuel ((c :: cs).drop (word i).length)).map (i :: ·)

/-- Read a text. Nonempty words use it up in at most as many steps as it has
characters. -/
def read (dict : List ι) (s : List α) : Option (List ι) := readWithin word dict s.length s

variable {word} {dict : List ι}

section Cut

omit [BEq α]

theorem IsFirst.mem {s : List α} {i : ι} (h : IsFirst word dict s i) : i ∈ dict := by
  obtain ⟨before, after, rfl, -⟩ := h
  simp

theorem IsFirst.isPrefix {s : List α} {i : ι} (h : IsFirst word dict s i) : word i <+: s := by
  obtain ⟨-, -, -, hstart, -⟩ := h
  exact hstart

@[simp] theorem cut_nil_iff {s : List α} : Cut word dict s [] ↔ s = [] := by
  refine ⟨fun h => h.1, ?_⟩
  rintro rfl
  exact ⟨rfl, by simp⟩

/-- A text is cut by cutting off the first word that fits and going on behind it. -/
theorem cut_cons_iff {s : List α} {i : ι} {is : List ι} :
    Cut word dict s (i :: is) ↔
      IsFirst word dict s i ∧ Cut word dict (s.drop (word i).length) is := by
  constructor
  · rintro ⟨rfl, hfirst⟩
    refine ⟨hfirst [] i is rfl, ?_, ?_⟩
    · rw [List.map_cons, List.flatten_cons, List.drop_left]
    · rintro before j after rfl
      exact hfirst (i :: before) j after rfl
  · rintro ⟨hfirst, hrest, hcut⟩
    have hs : s = ((i :: is).map word).flatten := by
      obtain ⟨tail, rfl⟩ := hfirst.isPrefix
      rw [List.drop_left] at hrest
      rw [List.map_cons, List.flatten_cons, ← hrest]
    refine ⟨hs, fun before j after hsplit => ?_⟩
    cases before with
    | nil =>
      obtain ⟨rfl, rfl⟩ := List.cons.inj hsplit
      rwa [← hs]
    | cons k before =>
      obtain ⟨rfl, rfl⟩ := List.cons.inj hsplit
      exact hcut before j after rfl

/-- A word that is found first is cut off as a whole. -/
theorem IsFirst.cut_singleton {i : ι} (h : IsFirst word dict (word i) i) :
    Cut word dict (word i) [i] := by
  rw [cut_cons_iff, List.drop_length, cut_nil_iff]
  exact ⟨h, rfl⟩

end Cut

theorem mem_of_first {s : List α} {i : ι} (h : first word dict s = some i) : i ∈ dict :=
  List.mem_of_find?_eq_some h

theorem isPrefixOf_of_first {s : List α} {i : ι} (h : first word dict s = some i) :
    (word i).isPrefixOf s = true := by
  simpa using List.find?_some (p := fun j => (word j).isPrefixOf s) h

/-- More fuel than characters changes nothing. -/
theorem readWithin_congr (hwords : ∀ i ∈ dict, word i ≠ []) {m n : ℕ} {s : List α}
    (hm : s.length ≤ m) (hn : s.length ≤ n) :
    readWithin word dict m s = readWithin word dict n s := by
  induction m generalizing n s with
  | zero =>
    have hs : s = [] := by simpa using hm
    rw [hs, readWithin, readWithin]
  | succ m ih =>
    cases s with
    | nil => rw [readWithin, readWithin]
    | cons c cs =>
      cases n with
      | zero => simp at hn
      | succ n =>
        rw [readWithin, readWithin]
        cases hfirst : first word dict (c :: cs) with
        | none => rfl
        | some i =>
          have hlt := length_drop_lt (List.cons_ne_nil c cs) (hwords i (mem_of_first hfirst))
          have hdrop := ih (n := n) (s := (c :: cs).drop (word i).length) (by omega) (by omega)
          simp only [hdrop]

@[simp] theorem read_nil : read word dict [] = some [] := rfl

/-- Reading splits off the first matching word and reads on behind it. -/
theorem read_eq (hwords : ∀ i ∈ dict, word i ≠ []) {s : List α} (hs : s ≠ []) :
    read word dict s =
      match first word dict s with
      | none => none
      | some i => (read word dict (s.drop (word i).length)).map (i :: ·) := by
  cases s with
  | nil => exact absurd rfl hs
  | cons c cs =>
    rw [read, List.length_cons, readWithin]
    cases hfirst : first word dict (c :: cs) with
    | none => rfl
    | some i =>
      have hlt := length_drop_lt hs (hwords i (mem_of_first hfirst))
      rw [List.length_cons] at hlt
      have hdrop := readWithin_congr hwords (Nat.le_of_lt_succ hlt) (Nat.le_refl _)
      simp only [read, hdrop]

/-- The search finds the first item. -/
theorem first_eq_some_iff [LawfulBEq α] {s : List α} {i : ι} :
    first word dict s = some i ↔ IsFirst word dict s i := by
  rw [first, List.find?_eq_some_iff_append, IsFirst]
  simp only [List.isPrefixOf_iff_prefix, Bool.not_eq_eq_eq_not, Bool.not_true,
    ← Bool.not_eq_true]
  constructor
  · rintro ⟨hstart, before, after, hdict, hbefore⟩
    exact ⟨before, after, hdict, hstart, hbefore⟩
  · rintro ⟨before, after, hdict, hstart, hbefore⟩
    exact ⟨hstart, before, after, hdict, hbefore⟩

/-- Reading a text cuts it. -/
theorem read_eq_some_iff [LawfulBEq α] (hwords : ∀ i ∈ dict, word i ≠ []) {s : List α}
    {is : List ι} : read word dict s = some is ↔ Cut word dict s is := by
  induction is generalizing s with
  | nil =>
    rw [cut_nil_iff]
    constructor
    · intro h
      by_contra hs
      rw [read_eq hwords hs] at h
      cases hfirst : first word dict s <;> simp [hfirst] at h
    · rintro rfl
      exact read_nil
  | cons i is ih =>
    rw [cut_cons_iff, ← ih, ← first_eq_some_iff]
    by_cases hs : s = []
    · subst hs
      refine iff_of_false (by simp) ?_
      rintro ⟨hfirst, -⟩
      have hstart := (first_eq_some_iff.mp hfirst).isPrefix
      exact hwords i (mem_of_first hfirst) (List.prefix_nil.mp hstart)
    · rw [read_eq hwords hs]
      cases hfirst : first word dict s with
      | none => simp
      | some j =>
        simp only [Option.map_eq_some_iff, List.cons.injEq, Option.some.injEq]
        constructor
        · rintro ⟨js, hread, rfl, rfl⟩
          exact ⟨rfl, hread⟩
        · rintro ⟨rfl, hread⟩
          exact ⟨is, hread, rfl, rfl⟩

/-- A word without the separator is a prefix of a text up to the separator
exactly if it is a prefix of the whole text. -/
theorem isPrefixOf_append_separator [LawfulBEq α] {w s t : List α} {sep : α} (hw : sep ∉ w) :
    w.isPrefixOf (s ++ sep :: t) = w.isPrefixOf s := by
  induction w generalizing s with
  | nil => simp
  | cons a w ih =>
    obtain ⟨hne, hw⟩ := not_or.mp (fun h => hw (List.mem_cons.mpr h))
    cases s with
    | nil => simp [List.isPrefixOf, Ne.symm hne]
    | cons b s => simp [List.isPrefixOf, ih hw]

/-- The first match in a text only depends on what stands before a separator
that occurs in no word. -/
theorem first_append_separator [LawfulBEq α] {sep : α} (hsep : ∀ i ∈ dict, sep ∉ word i)
    (s t : List α) : first word dict (s ++ sep :: t) = first word dict s := by
  induction dict with
  | nil => rfl
  | cons i dict ih =>
    have hi := isPrefixOf_append_separator (s := s) (t := t) (hsep i List.mem_cons_self)
    have htail := ih fun j hj => hsep j (List.mem_cons_of_mem _ hj)
    simp only [first, List.find?_cons, hi] at htail ⊢
    rw [htail]

/-- A word that matches at the start of a text is not longer than it. -/
theorem length_le_of_isPrefixOf [LawfulBEq α] {w s : List α} (h : w.isPrefixOf s = true) :
    w.length ≤ s.length := (List.isPrefixOf_iff_prefix.mp h).length_le

end FirstMatch
