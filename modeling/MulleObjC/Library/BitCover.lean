import Mathlib.Data.BitVec
import Mathlib.Data.List.Basic

/-!
# Greedy covers of a bit pattern

A list of items, each with a mask, is scanned once in order. An item is picked
when its mask is nonzero and all of its bits are still unclaimed; its bits are
claimed then. What the scan picks and what it leaves over always add up to the
pattern it started from.
-/

namespace BitCover

variable {ι : Type*} {n : ℕ} (mask : ι → BitVec n)

/-- An item is picked from `bits` when its nonzero mask lies inside `bits`. -/
def Picks (bits : BitVec n) (i : ι) : Prop := mask i ≠ 0 ∧ bits &&& mask i = mask i

instance (bits : BitVec n) : DecidablePred (Picks mask bits) :=
  fun _ => inferInstanceAs (Decidable (_ ∧ _))

/-- The items picked by one scan, in scanning order. -/
def picked : List ι → BitVec n → List ι
  | [], _ => []
  | i :: is, bits =>
    if Picks mask bits i then i :: picked is (bits &&& ~~~mask i) else picked is bits

/-- The bits that no picked item claims. -/
def residue : List ι → BitVec n → BitVec n
  | [], bits => bits
  | i :: is, bits => residue is (if Picks mask bits i then bits &&& ~~~mask i else bits)

/-- The union of the masks of a list of items. -/
def union (is : List ι) : BitVec n := is.foldr (fun i bits => mask i ||| bits) 0

@[simp] theorem union_nil : union mask [] = 0 := rfl

@[simp] theorem union_cons (i : ι) (is : List ι) :
    union mask (i :: is) = mask i ||| union mask is := rfl

theorem union_append (is js : List ι) :
    union mask (is ++ js) = union mask is ||| union mask js := by
  induction is with
  | nil => simp
  | cons i is ih => simp [ih, BitVec.or_assoc]

/-- A union is empty when all its masks are. -/
theorem union_eq_zero_iff {is : List ι} : union mask is = 0 ↔ ∀ i ∈ is, mask i = 0 := by
  induction is with
  | nil => simp
  | cons i is ih =>
    rw [union_cons, List.forall_mem_cons, ← ih]
    exact BitVec.or_eq_zero_iff

/-- Claiming a mask inside a pattern and adding it back loses no bit. -/
theorem or_and_not_of_and_eq {bits m : BitVec n} (h : bits &&& m = m) :
    m ||| (bits &&& ~~~m) = bits := by
  ext i hi
  have hbit := congrArg (fun b : BitVec n => b[i]) h
  simp only [BitVec.getElem_and] at hbit
  simp only [BitVec.getElem_or, BitVec.getElem_and, BitVec.getElem_not]
  cases hm : m[i] <;> cases hb : bits[i] <;> simp_all

/-- Conservation of bits: the picked masks and the residue make up the pattern. -/
theorem union_picked_or_residue (is : List ι) (bits : BitVec n) :
    union mask (picked mask is bits) ||| residue mask is bits = bits := by
  induction is generalizing bits with
  | nil => simp [picked, residue]
  | cons i is ih =>
    by_cases h : Picks mask bits i
    · rw [picked, residue, if_pos h, if_pos h, union_cons, BitVec.or_assoc, ih]
      exact or_and_not_of_and_eq h.2
    · rw [picked, residue, if_neg h, if_neg h, ih]

/-- With nothing left over, the picked masks alone make up the pattern. -/
theorem union_picked_of_residue_eq_zero {is : List ι} {bits : BitVec n}
    (h : residue mask is bits = 0) : union mask (picked mask is bits) = bits := by
  simpa [h] using union_picked_or_residue mask is bits

/-- Picked items come from the scanned list. -/
theorem mem_of_mem_picked {is : List ι} {bits : BitVec n} {i : ι}
    (h : i ∈ picked mask is bits) : i ∈ is := by
  induction is generalizing bits with
  | nil => simp [picked] at h
  | cons j is ih =>
    rw [picked] at h
    split at h
    · rcases List.mem_cons.mp h with rfl | h
      · exact List.mem_cons_self
      · exact List.mem_cons_of_mem _ (ih h)
    · exact List.mem_cons_of_mem _ (ih h)

/-- The picks from a longer list go on behind the picks from its beginning. -/
theorem picked_append (is js : List ι) (bits : BitVec n) :
    picked mask (is ++ js) bits = picked mask is bits ++ picked mask js (residue mask is bits) := by
  induction is generalizing bits with
  | nil => rfl
  | cons i is ih =>
    by_cases h : Picks mask bits i
    · rw [List.cons_append, picked, picked, residue, if_pos h, if_pos h, if_pos h, ih,
        List.cons_append]
    · rw [List.cons_append, picked, picked, residue, if_neg h, if_neg h, if_neg h, ih]

/-- Items are picked in the order of the list. -/
theorem picked_sublist (is : List ι) (bits : BitVec n) : (picked mask is bits).Sublist is := by
  induction is generalizing bits with
  | nil => exact .slnil
  | cons i is ih =>
    rw [picked]
    split
    · exact (ih _).cons_cons i
    · exact (ih _).cons i

/-- A mask inside a part of a pattern lies inside the pattern and off the other part. -/
theorem and_eq_of_and_not_and_eq {bits m k : BitVec n} (h : bits &&& ~~~m &&& k = k) :
    bits &&& k = k ∧ m &&& k = 0 := by
  constructor
  · rw [← h]
    ext i hi
    simp only [BitVec.getElem_and, BitVec.getElem_not]
    cases bits[i] <;> cases m[i] <;> rfl
  · rw [← h]
    ext i hi
    simp only [BitVec.getElem_and, BitVec.getElem_not]
    cases bits[i] <;> cases m[i] <;> simp

/-- Picked masks are nonzero and lie inside the pattern the scan started from. -/
theorem picks_of_mem_picked {is : List ι} {bits : BitVec n} {i : ι}
    (h : i ∈ picked mask is bits) : Picks mask bits i := by
  induction is generalizing bits with
  | nil => cases h
  | cons j is ih =>
    rw [picked] at h
    split at h
    · rename_i hj
      rcases List.mem_cons.mp h with rfl | h
      · exact hj
      · obtain ⟨hne, hsub⟩ := ih h
        exact ⟨hne, (and_eq_of_and_not_and_eq hsub).1⟩
    · exact ih h

/-- No bit is claimed twice. -/
theorem pairwise_picked (is : List ι) (bits : BitVec n) :
    (picked mask is bits).Pairwise fun i j => mask i &&& mask j = 0 := by
  induction is generalizing bits with
  | nil => exact .nil
  | cons i is ih =>
    rw [picked]
    split
    · refine List.pairwise_cons.mpr ⟨fun j hj => ?_, ih _⟩
      exact (and_eq_of_and_not_and_eq (picks_of_mem_picked mask hj).2).2
    · exact ih bits

/-- What is left over is the pattern without the picked masks. -/
theorem residue_eq (is : List ι) (bits : BitVec n) :
    residue mask is bits = bits &&& ~~~union mask (picked mask is bits) := by
  induction is generalizing bits with
  | nil =>
    rw [residue, picked, union_nil]
    ext i hi
    simp
  | cons i is ih =>
    rw [residue, picked]
    split
    · rw [ih, union_cons]
      ext j hj
      simp only [BitVec.getElem_and, BitVec.getElem_not, BitVec.getElem_or]
      cases bits[j] <;> cases (mask i)[j] <;> simp
    · exact ih bits

/-- A mask inside the pattern that shares no bit with the picked ones is still unclaimed. -/
theorem residue_and_eq {is : List ι} {bits m : BitVec n} (hsub : bits &&& m = m)
    (hfree : ∀ i ∈ picked mask is bits, mask i &&& m = 0) : residue mask is bits &&& m = m := by
  have hunion : ∀ js : List ι, (∀ i ∈ js, mask i &&& m = 0) → union mask js &&& m = 0 := by
    intro js
    induction js with
    | nil => simp
    | cons j js ih =>
      intro hjs
      obtain ⟨hj, hjs⟩ := List.forall_mem_cons.mp hjs
      have htail := ih hjs
      ext b hb
      have hj := congrArg (fun v : BitVec n => v[b]) hj
      have htail := congrArg (fun v : BitVec n => v[b]) htail
      simp only [BitVec.getElem_and] at hj htail
      simp only [union_cons, BitVec.getElem_and, BitVec.getElem_or]
      cases hm : m[b] <;> simp_all
  rw [residue_eq]
  have hfree := hunion _ hfree
  ext b hb
  have hsub := congrArg (fun v : BitVec n => v[b]) hsub
  have hfree := congrArg (fun v : BitVec n => v[b]) hfree
  simp only [BitVec.getElem_and] at hsub hfree
  simp only [BitVec.getElem_and, BitVec.getElem_not]
  cases hm : m[b] <;> simp_all

/-- Nothing can be picked from the empty pattern. -/
@[simp] theorem picked_zero (is : List ι) : picked mask is 0 = [] := by
  induction is with
  | nil => rfl
  | cons i is ih =>
    have h : ¬Picks mask 0 i := fun ⟨hne, heq⟩ => hne (by simpa using heq.symm)
    rw [picked, if_neg h, ih]

/-- The empty pattern leaves nothing over. -/
@[simp] theorem residue_zero (is : List ι) : residue mask is 0 = 0 := by
  have h := union_picked_or_residue mask is 0
  rw [picked_zero, union_nil] at h
  simpa using h

end BitCover
