import Mathlib.Data.BitVec
import Mathlib.Order.Interval.Basic
import Mathlib.Order.Lattice.Nat

/-!
# Combining ranges

`MulleObjCRangeCombine` joins two ranges that overlap or touch, in the machine arithmetic of
`NSUInteger`. As closed intervals of natural numbers, from the first location to the first one
behind, they form a semilattice, and the combination is their supremum. The test
`MulleObjCRangeIsCombinableRange` looks at the length of the combination, which does not tell
that there is none.
-/

namespace MulleObjC

/-- `NSRange`, for an `NSUInteger` of `w` bits. -/
structure NSRange (w : ℕ) where
  /-- The first location. -/
  location : BitVec w
  /-- The number of locations. -/
  length : BitVec w
  deriving DecidableEq, Repr

namespace NSRange

variable {w : ℕ}

/-- `NSRangeGetMax`, the first location behind the range. -/
def getMax (range : NSRange w) : BitVec w := range.location + range.length

/-- `MulleObjCRangeCombine`, for this value of `NSNotFound`. -/
def combine (notFound : BitVec w) (aRange bRange : NSRange w) : NSRange w :=
  let swap := aRange.location > bRange.location
  let a := if swap then bRange else aRange
  let b := if swap then aRange else bRange
  let aEnd := a.getMax
  if aEnd < b.location then ⟨notFound, 0⟩
  else
    let bEnd := b.getMax
    let aEnd := if bEnd > aEnd then bEnd else aEnd
    ⟨a.location, aEnd - a.location⟩

/-- `MulleObjCRangeIsCombinableRange` -/
def isCombinableRange (notFound : BitVec w) (a b : NSRange w) : Bool :=
  if (combine notFound a b).length ≠ 0 then true else false

/-- `MulleObjCRangeCompare` -/
def compareRange (a b : NSRange w) : Ordering :=
  if a.location ≠ b.location then if a.location < b.location then .lt else .gt
  else if a.length ≠ b.length then if a.length < b.length then .lt else .gt
  else .eq

/-- The location is found and the end does not wrap. -/
structure Valid (notFound : BitVec w) (range : NSRange w) : Prop where
  location_lt : range.location < notFound
  getMax_lt : range.location.toNat + range.length.toNat < 2 ^ w

/-- The first location and the first one behind. -/
def interval (range : NSRange w) : NonemptyInterval ℕ :=
  ⟨(range.location.toNat, range.location.toNat + range.length.toNat), Nat.le_add_right _ _⟩

/-- A location is a member of a range. -/
def Contains (range : NSRange w) (x : ℕ) : Prop := range.interval.fst ≤ x ∧ x < range.interval.snd

/-- At least one location is between two ranges. -/
def HasGap (a b : NSRange w) : Prop :=
  ∃ x, (a.interval.snd ≤ x ∧ x < b.interval.fst) ∨ (b.interval.snd ≤ x ∧ x < a.interval.fst)

/-- There is a combination. -/
def Combines (notFound : BitVec w) (a b : NSRange w) : Prop :=
  combine notFound a b ≠ ⟨notFound, 0⟩

theorem hasGap_iff {a b : NSRange w} : a.HasGap b ↔
    a.interval.snd < b.interval.fst ∨ b.interval.snd < a.interval.fst := by
  constructor
  · rintro ⟨x, ⟨hle, hlt⟩ | ⟨hle, hlt⟩⟩
    · exact .inl (Nat.lt_of_le_of_lt hle hlt)
    · exact .inr (Nat.lt_of_le_of_lt hle hlt)
  · rintro (h | h)
    · exact ⟨_, .inl ⟨Nat.le_refl _, h⟩⟩
    · exact ⟨_, .inr ⟨Nat.le_refl _, h⟩⟩

theorem hasGap_comm {a b : NSRange w} : a.HasGap b ↔ b.HasGap a := by
  rw [hasGap_iff, hasGap_iff, or_comm]

/-- A range is given by its interval. -/
theorem interval_injective : Function.Injective (interval (w := w)) := by
  rintro ⟨aLocation, aLength⟩ ⟨bLocation, bLength⟩ h
  have hfst : aLocation.toNat = bLocation.toNat := congrArg (·.fst) h
  have hsnd : aLocation.toNat + aLength.toNat = bLocation.toNat + bLength.toNat :=
    congrArg (·.snd) h
  rw [BitVec.eq_of_toNat_eq hfst, BitVec.eq_of_toNat_eq (by omega : aLength.toNat = bLength.toNat)]

section Valid

variable {notFound : BitVec w} {a b c : NSRange w}

theorem Valid.toNat_getMax (ha : Valid notFound a) : a.getMax.toNat = a.interval.snd :=
  BitVec.toNat_add_of_lt ha.getMax_lt

/-- The larger of the two ends. -/
theorem toNat_maxEnd (ha : Valid notFound a) (hb : Valid notFound b) :
    (if b.getMax > a.getMax then b.getMax else a.getMax).toNat =
      a.interval.snd ⊔ b.interval.snd := by
  by_cases h : b.getMax > a.getMax
  · have hlt : a.interval.snd < b.interval.snd := by
      rw [← ha.toNat_getMax, ← hb.toNat_getMax]
      exact BitVec.lt_def.mp h
    rw [if_pos h, hb.toNat_getMax, max_eq_right (Nat.le_of_lt hlt)]
  · have hle : b.interval.snd ≤ a.interval.snd := by
      rw [← ha.toNat_getMax, ← hb.toNat_getMax]
      exact Nat.le_of_not_lt fun hlt => h (BitVec.lt_def.mpr hlt)
    rw [if_neg h, ha.toNat_getMax, max_eq_left hle]

/-- What is computed when the first range does not start behind the second one. -/
theorem combine_of_le (hle : a.location ≤ b.location) :
    combine notFound a b =
      if a.getMax < b.location then ⟨notFound, 0⟩
      else ⟨a.location,
        (if b.getMax > a.getMax then b.getMax else a.getMax) - a.location⟩ := by
  have hswap : ¬ a.location > b.location := BitVec.not_lt.mpr hle
  unfold combine
  simp only [if_neg hswap]

theorem combine_of_lt (hlt : b.location < a.location) :
    combine notFound a b = combine notFound b a := by
  rw [combine_of_le (BitVec.le_of_lt hlt)]
  unfold combine
  simp only [if_pos (show a.location > b.location from hlt)]

theorem combine_eq_of_gap (ha : Valid notFound a) (hle : a.location ≤ b.location)
    (hgap : a.interval.snd < b.interval.fst) : combine notFound a b = ⟨notFound, 0⟩ := by
  rw [combine_of_le hle, if_pos]
  rw [BitVec.lt_def, ha.toNat_getMax]
  exact hgap

/-- The difference of the ends is the length. -/
theorem interval_combine_of_le (ha : Valid notFound a) (hb : Valid notFound b)
    (hle : a.location ≤ b.location) (htouch : b.interval.fst ≤ a.interval.snd) :
    (combine notFound a b).interval = a.interval ⊔ b.interval := by
  have hfst : a.interval.fst ≤ b.interval.fst := hle
  have hend : a.interval.fst ≤ a.interval.snd ⊔ b.interval.snd :=
    le_trans a.interval.fst_le_snd le_sup_left
  rw [combine_of_le hle, if_neg]
  · apply NonemptyInterval.ext
    apply Prod.ext
    · exact (min_eq_left hfst).symm
    · have hsub := BitVec.toNat_sub_of_le (x := if b.getMax > a.getMax then b.getMax else a.getMax)
        (y := a.location) (by rw [BitVec.le_def, toNat_maxEnd ha hb]; exact hend)
      change a.location.toNat + BitVec.toNat _ = a.interval.snd ⊔ b.interval.snd
      rw [hsub, toNat_maxEnd ha hb]
      exact Nat.add_sub_cancel' hend
  · rw [BitVec.lt_def, ha.toNat_getMax]
    exact Nat.not_lt_of_le htouch

/-- Ranges with a gap have no combination. -/
theorem combine_of_hasGap (ha : Valid notFound a) (hb : Valid notFound b) (hgap : a.HasGap b) :
    combine notFound a b = ⟨notFound, 0⟩ := by
  rcases hasGap_iff.mp hgap with hlt | hlt
  · have hle : a.location ≤ b.location :=
      Nat.le_of_lt (Nat.lt_of_le_of_lt a.interval.fst_le_snd hlt)
    exact combine_eq_of_gap ha hle hlt
  · have hba : b.location < a.location := Nat.lt_of_le_of_lt b.interval.fst_le_snd hlt
    rw [combine_of_lt hba]
    exact combine_eq_of_gap hb (BitVec.le_of_lt hba) hlt

/-- Without a gap the combination is the supremum. -/
theorem interval_combine (ha : Valid notFound a) (hb : Valid notFound b) (hgap : ¬ a.HasGap b) :
    (combine notFound a b).interval = a.interval ⊔ b.interval := by
  obtain ⟨hab, hba⟩ := not_or.mp (hasGap_iff.not.mp hgap)
  by_cases hle : a.location ≤ b.location
  · exact interval_combine_of_le ha hb hle (Nat.le_of_not_lt hab)
  · have hlt : b.location < a.location := BitVec.not_le.mp hle
    rw [combine_of_lt hlt, sup_comm]
    exact interval_combine_of_le hb ha (BitVec.le_of_lt hlt) (Nat.le_of_not_lt hba)

theorem location_combine_lt (ha : Valid notFound a) (hb : Valid notFound b)
    (hgap : ¬ a.HasGap b) : (combine notFound a b).location < notFound := by
  have h : (combine notFound a b).location.toNat = a.location.toNat ⊓ b.location.toNat :=
    congrArg (·.fst) (interval_combine ha hb hgap)
  rw [BitVec.lt_def, h]
  exact lt_of_le_of_lt (min_le_left _ _) ha.location_lt

/-- The combination of valid ranges is valid. -/
theorem Valid.combine (ha : Valid notFound a) (hb : Valid notFound b) (hgap : ¬ a.HasGap b) :
    Valid notFound (combine notFound a b) := by
  refine ⟨location_combine_lt ha hb hgap, ?_⟩
  have h : (NSRange.combine notFound a b).interval.snd = a.interval.snd ⊔ b.interval.snd :=
    congrArg (·.snd) (interval_combine ha hb hgap)
  change (NSRange.combine notFound a b).interval.snd < 2 ^ w
  rw [h]
  exact max_lt ha.getMax_lt hb.getMax_lt

theorem combines_iff (ha : Valid notFound a) (hb : Valid notFound b) :
    Combines notFound a b ↔ ¬ a.HasGap b := by
  constructor
  · intro h hgap
    exact h (combine_of_hasGap ha hb hgap)
  · intro hgap heq
    have hlt := location_combine_lt ha hb hgap
    rw [heq] at hlt
    exact absurd hlt (Nat.lt_irrefl _)

theorem combine_comm (ha : Valid notFound a) (hb : Valid notFound b) :
    combine notFound a b = combine notFound b a := by
  by_cases hgap : a.HasGap b
  · rw [combine_of_hasGap ha hb hgap, combine_of_hasGap hb ha (hasGap_comm.mp hgap)]
  · apply interval_injective
    rw [interval_combine ha hb hgap, interval_combine hb ha (hasGap_comm.not.mp hgap), sup_comm]

/-- The members of the supremum are those of the two ranges, as there is no gap. -/
theorem contains_combine_iff (ha : Valid notFound a) (hb : Valid notFound b)
    (hgap : ¬ a.HasGap b) (x : ℕ) :
    (combine notFound a b).Contains x ↔ a.Contains x ∨ b.Contains x := by
  obtain ⟨hab, hba⟩ := not_or.mp (hasGap_iff.not.mp hgap)
  have hale := a.interval.fst_le_snd
  have hble := b.interval.fst_le_snd
  unfold Contains
  rw [interval_combine ha hb hgap, NonemptyInterval.fst_sup, NonemptyInterval.snd_sup]
  omega

theorem combine_assoc (ha : Valid notFound a) (hb : Valid notFound b) (hc : Valid notFound c)
    (hab : Combines notFound a b) (hbc : Combines notFound b c)
    (hab_c : Combines notFound (combine notFound a b) c)
    (ha_bc : Combines notFound a (combine notFound b c)) :
    combine notFound (combine notFound a b) c = combine notFound a (combine notFound b c) := by
  rw [combines_iff ha hb] at hab
  rw [combines_iff hb hc] at hbc
  have habv := ha.combine hb hab
  have hbcv := hb.combine hc hbc
  rw [combines_iff habv hc] at hab_c
  rw [combines_iff ha hbcv] at ha_bc
  apply interval_injective
  rw [interval_combine habv hc hab_c, interval_combine ha hb hab, interval_combine ha hbcv ha_bc,
    interval_combine hb hc hbc, sup_assoc]

/-- The length of a combination is zero only for two empty ranges at one location. -/
theorem length_combine_eq_zero_iff (ha : Valid notFound a) (hb : Valid notFound b)
    (hgap : ¬ a.HasGap b) : (combine notFound a b).length = 0 ↔
      a.length = 0 ∧ b.length = 0 ∧ a.location = b.location := by
  have hzero (r : NSRange w) : r.length = 0 ↔ r.interval.snd ≤ r.interval.fst := by
    change r.length = 0 ↔ r.location.toNat + r.length.toNat ≤ r.location.toNat
    rw [← BitVec.toNat_inj, BitVec.ofNat_eq_ofNat, BitVec.toNat_ofNat, Nat.zero_mod]
    omega
  have hloc : a.location = b.location ↔ a.interval.fst = b.interval.fst :=
    BitVec.toNat_inj.symm
  obtain ⟨hab, hba⟩ := not_or.mp (hasGap_iff.not.mp hgap)
  have hale := a.interval.fst_le_snd
  have hble := b.interval.fst_le_snd
  rw [hzero, hzero, hzero, hloc, interval_combine ha hb hgap, NonemptyInterval.fst_sup,
    NonemptyInterval.snd_sup]
  omega

theorem isCombinableRange_iff : isCombinableRange notFound a b = true ↔
    (combine notFound a b).length ≠ 0 := by
  simp [isCombinableRange]

end Valid

/-- A range covers another one. -/
def Covers (range other : NSRange w) : Prop := other.interval ≤ range.interval

/-- What combining is for, and the test for it. -/
structure CombineSpec (notFound : BitVec w) (a b c : NSRange w) : Prop where
  comm : combine notFound a b = combine notFound b a
  /-- There is no combination exactly when there is a gap. -/
  eq_notFound_iff : combine notFound a b = ⟨notFound, 0⟩ ↔ a.HasGap b
  covers : ¬ a.HasGap b → (combine notFound a b).Covers a ∧ (combine notFound a b).Covers b
  smallest : ¬ a.HasGap b → ∀ range : NSRange w, range.Covers a → range.Covers b →
    range.Covers (combine notFound a b)
  contains_iff : ¬ a.HasGap b →
    ∀ x, (combine notFound a b).Contains x ↔ a.Contains x ∨ b.Contains x
  /-- Whenever every combination exists. -/
  assoc : Combines notFound a b → Combines notFound b c →
    Combines notFound (combine notFound a b) c → Combines notFound a (combine notFound b c) →
    combine notFound (combine notFound a b) c = combine notFound a (combine notFound b c)
  isCombinableRange_iff : isCombinableRange notFound a b = true ↔ Combines notFound a b

/-- Combining keeps to its specification for all valid ranges, except for the test on two empty
ranges at one location, whose combination is empty as well. -/
theorem combineSpec_iff {notFound : BitVec w} {a b c : NSRange w} (ha : Valid notFound a)
    (hb : Valid notFound b) (hc : Valid notFound c) : CombineSpec notFound a b c ↔
      ¬ (a.length = 0 ∧ b.length = 0 ∧ a.location = b.location) := by
  constructor
  · intro h hempty
    have hgap : ¬ a.HasGap b := by
      rw [hasGap_iff]
      change ¬ (a.location.toNat + a.length.toNat < b.location.toNat ∨
        b.location.toNat + b.length.toNat < a.location.toNat)
      rw [hempty.2.2]
      omega
    have htrue := h.isCombinableRange_iff.mpr ((combines_iff ha hb).mpr hgap)
    exact NSRange.isCombinableRange_iff.mp htrue
      ((length_combine_eq_zero_iff ha hb hgap).mpr hempty)
  · intro hempty
    refine ⟨combine_comm ha hb, ?_, ?_, ?_, contains_combine_iff ha hb,
      combine_assoc ha hb hc, ?_⟩
    · rw [← not_iff_not]
      exact combines_iff ha hb
    · intro hgap
      unfold Covers
      rw [interval_combine ha hb hgap]
      exact ⟨le_sup_left, le_sup_right⟩
    · intro hgap range hra hrb
      unfold Covers
      rw [interval_combine ha hb hgap]
      exact sup_le hra hrb
    · rw [NSRange.isCombinableRange_iff, combines_iff ha hb]
      constructor
      · intro hlength hgap
        rw [combine_of_hasGap ha hb hgap] at hlength
        exact hlength rfl
      · intro hgap
        rwa [Ne, length_combine_eq_zero_iff ha hb hgap]

/-- `NSNotFound` as the largest `NSInteger` of 64 bits. -/
def notFound64 : BitVec 64 := 0x7FFFFFFFFFFFFFFF#64

/-- `{ 0, 2 }`, `{ 2, 3 }` and `{ 4, 0 }` -/
theorem combineSpec_iff_adjacent :
    CombineSpec notFound64 ⟨0#64, 2#64⟩ ⟨2#64, 3#64⟩ ⟨4#64, 0#64⟩ ↔
      ¬ ((2#64 : BitVec 64) = 0 ∧ (3#64 : BitVec 64) = 0 ∧ (0#64 : BitVec 64) = 2#64) :=
  combineSpec_iff ⟨by decide, by decide⟩ ⟨by decide, by decide⟩ ⟨by decide, by decide⟩

/-- `{ 5, 0 }` combines with itself, and the test denies it. -/
theorem isCombinableRange_empty : Valid notFound64 ⟨5#64, 0#64⟩ ∧
    combine notFound64 ⟨5#64, 0#64⟩ ⟨5#64, 0#64⟩ = ⟨5#64, 0#64⟩ ∧
    isCombinableRange notFound64 ⟨5#64, 0#64⟩ ⟨5#64, 0#64⟩ = false ∧
    ¬ CombineSpec notFound64 ⟨5#64, 0#64⟩ ⟨5#64, 0#64⟩ ⟨5#64, 0#64⟩ := by
  have hcombine : combine notFound64 ⟨5#64, 0#64⟩ ⟨5#64, 0#64⟩ = ⟨5#64, 0#64⟩ := by decide
  have htest : isCombinableRange notFound64 ⟨5#64, 0#64⟩ ⟨5#64, 0#64⟩ = false := by decide
  refine ⟨⟨by decide, by decide⟩, hcombine, htest, ?_⟩
  intro h
  have htrue := h.isCombinableRange_iff.mpr (by rw [Combines, hcombine]; decide)
  rw [htest] at htrue
  cases htrue

theorem compareWord_eq (x y : BitVec w) (next : Ordering) :
    (if x ≠ y then if x < y then .lt else .gt else next) =
      (compare x.toNat y.toNat).then next := by
  rcases Nat.lt_trichotomy x.toNat y.toNat with h | h | h
  · have hlt : x < y := h
    rw [if_pos (BitVec.ne_of_lt hlt), if_pos hlt, Nat.compare_eq_lt.mpr h]
    rfl
  · rw [if_neg (not_not.mpr (BitVec.eq_of_toNat_eq h)), Nat.compare_eq_eq.mpr h]
    rfl
  · have hlt : y < x := h
    have hle : ¬ x < y := BitVec.not_lt.mpr (BitVec.le_of_lt hlt)
    rw [if_pos (BitVec.ne_of_lt hlt).symm, if_neg hle, Nat.compare_eq_gt.mpr h]
    rfl

/-- Ranges are ordered by their locations, and then by their lengths. -/
theorem compareRange_eq (a b : NSRange w) : compareRange a b =
    (compare a.location.toNat b.location.toNat).then
      (compare a.length.toNat b.length.toNat) := by
  rw [compareRange, compareWord_eq, compareWord_eq, Ordering.then_eq]

end NSRange

end MulleObjC
