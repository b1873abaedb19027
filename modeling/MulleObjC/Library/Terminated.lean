import Mathlib.Data.List.Basic
import Mathlib.Data.List.Infix
import Mathlib.Data.List.TakeWhile

/-!
# Terminated strings

A string is stored as its characters with a terminator behind them. Reading fails behind
the terminator, so an algorithm that returns has stayed inside its strings.
-/

namespace Terminated

variable {α : Type*} {zero : α}

/-- The character at `i`, which can be the terminator. -/
def read (zero : α) (s : List α) (i : ℕ) : Option α := (s ++ [zero])[i]?

theorem read_of_lt {s : List α} {i : ℕ} (hi : i < s.length) : read zero s i = some s[i] := by
  rw [read, List.getElem?_append_left hi, List.getElem?_eq_getElem hi]

@[simp] theorem read_length (s : List α) : read zero s s.length = some zero := by
  simp [read]

/-- A pointer behind `before` points to the head of the rest. -/
theorem read_append_length (before rest : List α) :
    read zero (before ++ rest) before.length = some (rest.headD zero) := by
  rw [read, List.append_assoc, List.getElem?_append_right (Nat.le_refl _), Nat.sub_self]
  cases rest <;> rfl

/-- As `read_append_length`, for a string and a position that are to be split. -/
theorem read_of_split (before rest : List α) {s : List α} {i : ℕ} (hs : s = before ++ rest)
    (hi : i = before.length) : read zero s i = some (rest.headD zero) := by
  rw [hs, hi]
  exact read_append_length before rest

/-- A character other than the terminator is one of the string. -/
theorem read_eq_some_iff {s : List α} {i : ℕ} {c : α} (hc : c ≠ zero) :
    read zero s i = some c ↔ s[i]? = some c := by
  rcases Nat.lt_trichotomy i s.length with hi | rfl | hi
  · rw [read_of_lt hi, List.getElem?_eq_getElem hi]
  · simpa using hc.symm
  · rw [read, List.getElem?_eq_none (by simpa using Nat.succ_le_of_lt hi),
      List.getElem?_eq_none (by omega)]

/-- Up to its terminator a string can be read. -/
theorem exists_read {s : List α} {i : ℕ} (hi : i ≤ s.length) : ∃ c, read zero s i = some c := by
  rcases Nat.lt_or_eq_of_le hi with hlt | rfl
  · exact ⟨s[i], read_of_lt hlt⟩
  · exact ⟨zero, read_length s⟩

variable [DecidableEq α]

/-- The number of characters in front of the first terminator. -/
def strlen (zero : α) (s : List α) : ℕ := (s.takeWhile (· ≠ zero)).length

theorem strlen_eq {s : List α} (hs : zero ∉ s) : strlen zero s = s.length := by
  rw [strlen, List.takeWhile_eq_self_iff.mpr]
  intro c hc
  simpa using ne_of_mem_of_not_mem hc hs

/-- The position of the first `c`, a character other than the terminator. -/
def strchr (s : List α) (c : α) : Option ℕ := s.findIdx? (· = c)

theorem strchr_eq_none_iff {s : List α} {c : α} : strchr s c = none ↔ c ∉ s := by
  rw [strchr, List.findIdx?_eq_none_iff]
  constructor
  · intro h hc
    simpa using h c hc
  · intro hc d hd
    simpa using ne_of_mem_of_not_mem hd hc

/-- In front of the first `c` there is none. -/
theorem strchr_eq_some {s : List α} {c : α} {i : ℕ} (h : strchr s c = some i) :
    ∃ before after, s = before ++ c :: after ∧ i = before.length ∧ c ∉ before := by
  obtain ⟨hi, hget, hbefore⟩ := List.findIdx?_eq_some_iff_getElem.mp h
  refine ⟨s.take i, s.drop (i + 1), ?_, ?_, ?_⟩
  · have hc : s[i] = c := by simpa using hget
    rw [← hc, List.cons_getElem_drop_succ, List.take_append_drop]
  · rw [List.length_take, Nat.min_eq_left (Nat.le_of_lt hi)]
  · intro hmem
    obtain ⟨j, hj, hget'⟩ := List.mem_take_iff_getElem.mp hmem
    have hlt : j < i := (Nat.lt_min.mp hj).1
    simpa [hget'] using hbefore j hlt

/-- Whether `key` stands at `i`. As with `strncmp`, the first difference ends the comparison. -/
def strncmp (zero : α) (s : List α) : List α → ℕ → Option Bool
  | [], _ => some true
  | c :: key, i =>
    (read zero s i).bind fun d => if c = d then strncmp zero s key (i + 1) else some false

/-- The terminator is a difference to every character of the key, so the comparison stops
there. -/
theorem strncmp_append {key : List α} (hkey : zero ∉ key) (before rest : List α) :
    strncmp zero (before ++ rest) key before.length = some (key.isPrefixOf rest) := by
  induction key generalizing before rest with
  | nil => rw [strncmp, List.isPrefixOf]
  | cons c key ih =>
    obtain ⟨hc, hkey⟩ := not_or.mp fun h => hkey (List.mem_cons.mpr h)
    rw [strncmp, read_append_length, Option.bind_some]
    cases rest with
    | nil =>
      rw [List.headD_nil, if_neg (Ne.symm hc)]
      rfl
    | cons d rest =>
      rw [List.headD_cons]
      by_cases hd : c = d
      · have hnext := ih hkey (before ++ [d]) rest
        rw [List.append_assoc, List.singleton_append, List.length_append] at hnext
        simpa [hd, List.isPrefixOf] using hnext
      · simp [hd, List.isPrefixOf]

theorem strncmp_of_split {key : List α} (hkey : zero ∉ key) (before rest : List α) {s : List α}
    {i : ℕ} (hs : s = before ++ rest) (hi : i = before.length) :
    strncmp zero s key i = some (key.isPrefixOf rest) := by
  rw [hs, hi]
  exact strncmp_append hkey before rest

end Terminated
