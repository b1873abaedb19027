import Mathlib.Data.List.Basic
import MulleObjC.Library.Memory

/-!
# Blocks and strings in a memory

A block is a piece of memory with an owner. Blocks that share no cell keep their contents
while others are written. A string lies in a block up to its terminator; the functions on
strings are told how many cells may be read, and fail instead of reading on.
-/

namespace Memory

/-- Some adjacent cells. -/
structure Block where
  start : ℕ
  length : ℕ
  deriving DecidableEq, Repr

/-- No cell is in both blocks. -/
def Block.Apart (a b : Block) : Prop := Memory.Apart a.start a.length b.start b.length

instance (a b : Block) : Decidable (a.Apart b) := inferInstanceAs (Decidable (Memory.Apart _ _ _ _))

theorem Block.Apart.symm {a b : Block} (h : a.Apart b) : b.Apart a := Or.symm h

variable {Cell : Type*} {m : Memory Cell} {a b : Block} {cells : List Cell}

/-- The contents of a block. -/
def contents (m : Memory Cell) (b : Block) : List Cell := m.read b.start b.length

@[simp] theorem length_contents : (m.contents b).length = b.length := length_read

theorem contents_write_self (h : cells.length = b.length) :
    (m.write b.start cells).contents b = cells :=
  read_write_of_length h

theorem contents_write_of_apart (h : a.Apart b) (hcells : cells.length = a.length) :
    (m.write a.start cells).contents b = m.contents b := by
  refine read_write_of_apart ?_
  rw [hcells]
  exact h

/-- What is found by its address when all that is at `q` has been taken out. -/
theorem find?_filter_ne {α : Type*} {xs : List α} {address : α → ℕ} {p q : ℕ} :
    (xs.filter (address · ≠ q)).find? (address · = p) =
      if p = q then none else xs.find? (address · = p) := by
  rw [List.find?_filter]
  split
  · next hp =>
    rw [List.find?_eq_none]
    intro x _
    simp [hp]
  · next hp =>
    refine congrArg xs.find? (funext fun x => ?_)
    by_cases hx : address x = p
    · simp [hx, hp]
    · simp [hx]

variable {zero : Cell} {p q n k : ℕ} {s t : List Cell}

/-- Two adjacent pieces. -/
theorem read_add : m.read p (n + k) = m.read p n ++ m.read (p + n) k := by
  simp [read, List.range_add, Nat.add_assoc]

/-- A string and its terminator. -/
structure StringAt (zero : Cell) (m : Memory Cell) (p : ℕ) (s : List Cell) : Prop where
  notMem : zero ∉ s
  read_eq : m.read p (s.length + 1) = s ++ [zero]

/-- A string stays while its cells do. -/
theorem StringAt.congr {m' : Memory Cell} (h : StringAt zero m p s)
    (hread : m'.read p (s.length + 1) = m.read p (s.length + 1)) : StringAt zero m' p s :=
  ⟨h.notMem, hread.trans h.read_eq⟩

theorem stringAt_nil : StringAt zero m p [] ↔ m p = zero := by
  constructor
  · intro h
    simpa [read] using h.read_eq
  · intro h
    exact ⟨List.not_mem_nil, by simpa [read] using h⟩

theorem stringAt_cons {c : Cell} :
    StringAt zero m p (c :: s) ↔ m p = c ∧ c ≠ zero ∧ StringAt zero m (p + 1) s := by
  constructor
  · intro h
    have hread := h.read_eq
    rw [List.length_cons, read_succ, List.cons_append] at hread
    obtain ⟨hhead, htail⟩ := List.cons.inj hread
    obtain ⟨hc, hs⟩ := not_or.mp fun hmem => h.notMem (List.mem_cons.mpr hmem)
    exact ⟨hhead, Ne.symm hc, hs, htail⟩
  · rintro ⟨hhead, hc, h⟩
    refine ⟨?_, ?_⟩
    · rw [List.mem_cons, not_or]
      exact ⟨Ne.symm hc, h.notMem⟩
    · rw [List.length_cons, read_succ, hhead, h.read_eq, List.cons_append]

variable [DecidableEq Cell]

/-- `strlen`, of a string with `n` readable cells. -/
def strlen (zero : Cell) (m : Memory Cell) : ℕ → ℕ → Option ℕ
  | _, 0 => none
  | p, n + 1 => if m p = zero then some 0 else (strlen zero m (p + 1) n).map (· + 1)

/-- `! strcmp`, of strings with `n` and `k` readable cells. -/
def streq (zero : Cell) (m : Memory Cell) : ℕ → ℕ → ℕ → ℕ → Option Bool
  | p, n + 1, q, k + 1 =>
    if m p ≠ m q then some false
    else if m p = zero then some true
    else streq zero m (p + 1) n (q + 1) k
  | _, _, _, _ => none

theorem StringAt.strlen_eq (h : StringAt zero m p s) (hn : s.length < n) :
    strlen zero m p n = some s.length := by
  induction s generalizing p n with
  | nil =>
    obtain ⟨n, rfl⟩ : ∃ i, n = i + 1 := ⟨n - 1, by simp at hn; omega⟩
    rw [strlen, if_pos (stringAt_nil.mp h)]
    rfl
  | cons c s ih =>
    obtain ⟨n, rfl⟩ : ∃ i, n = i + 1 := ⟨n - 1, by simp at hn; omega⟩
    obtain ⟨hhead, hc, htail⟩ := stringAt_cons.mp h
    rw [strlen, if_neg (by rwa [hhead]), ih htail (by simpa using hn)]
    rfl

/-- At most one string is at a position. -/
theorem StringAt.unique (hs : StringAt zero m p s) (ht : StringAt zero m p t) : s = t := by
  have hs' := hs.strlen_eq (n := s.length + t.length + 1) (by omega)
  have ht' := ht.strlen_eq (n := s.length + t.length + 1) (by omega)
  have hlength : s.length = t.length := Option.some.inj (hs'.symm.trans ht')
  have hread := hs.read_eq
  rw [hlength, ht.read_eq] at hread
  exact (List.append_inj_left' hread rfl).symm

/-- What `strlen` has counted is a string. -/
theorem stringAt_of_strlen (h : strlen zero m p n = some k) :
    StringAt zero m p (m.read p k) ∧ k < n := by
  induction n generalizing p k with
  | zero => simp [strlen] at h
  | succ n ih =>
    rw [strlen] at h
    split at h
    · next hzero =>
      obtain rfl : 0 = k := Option.some.inj h
      exact ⟨stringAt_nil.mpr hzero, Nat.succ_pos n⟩
    · next hzero =>
      obtain ⟨k, hk, rfl⟩ := Option.map_eq_some_iff.mp h
      obtain ⟨hstring, hlt⟩ := ih hk
      rw [read_succ]
      exact ⟨stringAt_cons.mpr ⟨rfl, hzero, hstring⟩, Nat.succ_lt_succ hlt⟩

/-- Strings are compared up to the terminator of the shorter one. -/
theorem StringAt.streq_eq (hs : StringAt zero m p s) (ht : StringAt zero m q t)
    (hn : s.length < n) (hk : t.length < k) :
    streq zero m p n q k = some (decide (s = t)) := by
  induction s generalizing p q n k t with
  | nil =>
    obtain ⟨n, rfl⟩ : ∃ i, n = i + 1 := ⟨n - 1, by omega⟩
    obtain ⟨k, rfl⟩ : ∃ i, k = i + 1 := ⟨k - 1, by omega⟩
    have hp := stringAt_nil.mp hs
    rw [streq]
    cases t with
    | nil =>
      have hq := stringAt_nil.mp ht
      rw [if_neg (by rw [hp, hq]; exact not_not_intro rfl), if_pos hp]
      rfl
    | cons d t =>
      obtain ⟨hhead, hd, -⟩ := stringAt_cons.mp ht
      rw [if_pos (by rw [hp, hhead]; exact hd.symm)]
      rfl
  | cons c s ih =>
    obtain ⟨n, rfl⟩ : ∃ i, n = i + 1 := ⟨n - 1, by omega⟩
    obtain ⟨k, rfl⟩ : ∃ i, k = i + 1 := ⟨k - 1, by omega⟩
    obtain ⟨hp, hc, hs'⟩ := stringAt_cons.mp hs
    rw [streq]
    cases t with
    | nil =>
      have hq := stringAt_nil.mp ht
      rw [if_pos (by rw [hp, hq]; exact hc)]
      rfl
    | cons d t =>
      obtain ⟨hq, hd, ht'⟩ := stringAt_cons.mp ht
      rw [List.length_cons] at hn hk
      by_cases hcd : c = d
      · rw [if_neg (by rw [hp, hq]; exact not_not_intro hcd), if_neg (by rwa [hp]),
          ih hs' ht' (by omega) (by omega)]
        simp [hcd]
      · rw [if_pos (by rwa [hp, hq])]
        simp [hcd]

end Memory
