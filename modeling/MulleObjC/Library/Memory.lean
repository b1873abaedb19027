import Mathlib.Data.List.Basic
import Mathlib.Data.List.Range

/-!
# Memory

A memory is read and written in pieces. A piece is what was written to it last, unless
another piece that was written since then shares a cell with it.
-/

/-- The contents of all cells. -/
abbrev Memory (Cell : Type*) := ℕ → Cell

namespace Memory

variable {Cell : Type*}

/-- The contents of `n` cells. -/
def read (m : Memory Cell) (p n : ℕ) : List Cell :=
  (List.range n).map fun i => m (p + i)

/-- Change the contents of some cells. -/
def write (m : Memory Cell) (p : ℕ) (cells : List Cell) : Memory Cell :=
  fun i => if p ≤ i then (cells[i - p]?).getD (m i) else m i

/-- Two pieces share no cell. -/
def Apart (p n q k : ℕ) : Prop := p + n ≤ q ∨ q + k ≤ p

instance (p n q k : ℕ) : Decidable (Apart p n q k) := inferInstanceAs (Decidable (_ ∨ _))

/-- A shorter piece shares no cell, either. -/
theorem Apart.mono {p n n' q k : ℕ} (h : Apart p n q k) (hle : n' ≤ n) : Apart p n' q k := by
  rcases h with h | h
  · exact .inl (by omega)
  · exact .inr h

/-- `memcpy`, which is undefined if the pieces share a cell. -/
def memcpy (m : Memory Cell) (dst src n : ℕ) : Option (Memory Cell) :=
  if Apart dst n src n then some (m.write dst (m.read src n)) else none

variable {m m' : Memory Cell} {p q n k : ℕ} {cells : List Cell}

@[simp] theorem length_read : (m.read p n).length = n := by simp [read]

theorem getElem?_read {i : ℕ} (hi : i < n) : (m.read p n)[i]? = some (m (p + i)) := by
  simp [read, hi]

theorem read_succ : m.read p (n + 1) = m p :: m.read (p + 1) n := by
  simp [read, List.range_succ_eq_map, Function.comp_def, Nat.add_assoc, Nat.add_comm 1]

/-- Pieces with the same contents, cell by cell. -/
theorem read_congr (h : ∀ i, i < n → m (p + i) = m' (q + i)) : m.read p n = m'.read q n := by
  unfold read
  refine List.map_congr_left fun i hi => ?_
  exact h i (List.mem_range.mp hi)

/-- A cell of a written piece. -/
theorem write_apply {i : ℕ} (hi : i < cells.length) : m.write p cells (p + i) = cells[i] := by
  simp [write, hi]

/-- The first cell of a written piece. -/
theorem write_head (h : 0 < cells.length) : m.write p cells p = cells[0] := write_apply h

/-- A cell outside of a written piece. -/
theorem write_of_lt_or_le {i : ℕ} (hi : i < p ∨ p + cells.length ≤ i) :
    m.write p cells i = m i := by
  unfold write
  split
  · next hp =>
    rw [List.getElem?_eq_none (by omega)]
    rfl
  · rfl

/-- A written piece is read back. -/
theorem read_write_self : (m.write p cells).read p cells.length = cells := by
  refine List.ext_getElem (by simp) fun i hi hi' => ?_
  simp [read, write_apply hi']

/-- As `read_write_self`, for a piece whose length is known. -/
theorem read_write_of_length (h : cells.length = n) : (m.write p cells).read p n = cells := by
  rw [← h]
  exact read_write_self

/-- Other pieces stay. -/
theorem read_write_of_apart (h : Apart p cells.length q k) :
    (m.write p cells).read q k = m.read q k := by
  refine read_congr fun i hi => write_of_lt_or_le ?_
  rcases h with h | h
  · omega
  · omega

@[simp] theorem write_nil : m.write p [] = m := by
  funext i
  simp [write]

/-- Two adjacent pieces are one. -/
theorem write_append {cells' : List Cell} :
    (m.write p cells).write (p + cells.length) cells' = m.write p (cells ++ cells') := by
  funext i
  unfold write
  by_cases hi : p + cells.length ≤ i
  · rw [if_pos hi, if_pos (by omega), if_pos (by omega), List.getElem?_append_right (by omega),
      Nat.sub_sub, List.getElem?_eq_none (show cells.length ≤ i - p by omega)]
    rfl
  · rw [if_neg hi]
    split
    · rw [List.getElem?_append_left (by omega)]
    · rfl

/-- A piece that is at least as long replaces a written piece. -/
theorem write_write {cells' : List Cell} (h : cells.length ≤ cells'.length) :
    (m.write p cells).write p cells' = m.write p cells' := by
  funext i
  by_cases hi : i < p ∨ p + cells'.length ≤ i
  · rw [write_of_lt_or_le hi, write_of_lt_or_le hi, write_of_lt_or_le (by omega)]
  · obtain ⟨k, rfl⟩ := Nat.exists_eq_add_of_le (show p ≤ i by omega)
    rw [write_apply (by omega), write_apply (by omega)]

/-- The first cells of a piece. -/
theorem take_read : (m.read p n).take k = m.read p (min k n) := by
  simp [read, ← List.map_take, List.take_range]

/-- Copying moves a piece that lies in the source, to the same distance in the target. -/
theorem read_write_read {d : ℕ} (h : d + k ≤ n) :
    (m.write p (m'.read q n)).read (p + d) k = m'.read (q + d) k := by
  refine read_congr fun i hi => ?_
  have hlt : d + i < (m'.read q n).length := by
    rw [length_read]
    omega
  rw [Nat.add_assoc, write_apply hlt, Nat.add_assoc]
  simp [read]

end Memory
