import MulleObjC.NSRange.Combine

/-!
# Ranges of a sequence

Before a range is used on a sequence it is compared with the length of the sequence. The
length -1 stands for everything from the location on. `MulleObjCValidateRangeAgainstLength`
throws if the range does not fit, `MulleObjCAdjustRangeForLength` empties it. Both compute the
end with the wrapping arithmetic of `NSUInteger`.
-/

namespace MulleObjC.NSRange

variable {w : ℕ}

/-- The range with the length that -1 stands for. -/
def resolve (range : NSRange w) (length : BitVec w) : NSRange w :=
  if range.length = -1 then ⟨range.location, length - range.location⟩ else range

/-- `end > length || end < range.location` -/
def isOutside (range : NSRange w) (length : BitVec w) : Bool :=
  range.getMax > length || range.getMax < range.location

/-- `MulleObjCValidateRangeAgainstLength`, with the range of
`MulleObjCThrowInvalidRangeException`. -/
def validateRangeAgainstLength (range : NSRange w) (length : BitVec w) :
    Except (NSRange w) (NSRange w) :=
  if (range.resolve length).isOutside length then .error (range.resolve length)
  else .ok (range.resolve length)

/-- `MulleObjCAdjustRangeForLength` -/
def adjustRangeForLength (range : NSRange w) (length : BitVec w) : NSRange w :=
  if (range.resolve length).isOutside length then ⟨range.location, 0⟩ else range.resolve length

variable {range r : NSRange w} {length : BitVec w}

/-- A range whose end wraps is outside. -/
theorem isOutside_iff : range.isOutside length = true ↔ length.toNat < range.interval.snd := by
  have hlocation := range.location.isLt
  have hlength := range.length.isLt
  have hbound := length.isLt
  have hmax : range.getMax.toNat = (range.location.toNat + range.length.toNat) % 2 ^ w :=
    BitVec.toNat_add _ _
  unfold isOutside
  rw [Bool.or_eq_true, decide_eq_true_iff, decide_eq_true_iff, gt_iff_lt, BitVec.lt_def,
    BitVec.lt_def, hmax]
  change _ ↔ length.toNat < range.location.toNat + range.length.toNat
  by_cases hwraps : range.location.toNat + range.length.toNat < 2 ^ w
  · rw [Nat.mod_eq_of_lt hwraps]
    omega
  · rw [Nat.mod_eq_sub_mod (by omega), Nat.mod_eq_of_lt (by omega)]
    omega

/-- The locations from that of the range to the end of the sequence are meant. -/
theorem resolve_of_full (hfull : range.length = -1) (hle : range.location ≤ length) :
    (range.resolve length).interval.fst = range.location.toNat ∧
      (range.resolve length).interval.snd = length.toNat := by
  have hle' : range.location.toNat ≤ length.toNat := hle
  rw [resolve, if_pos hfull]
  refine ⟨rfl, ?_⟩
  change range.location.toNat + (length - range.location).toNat = length.toNat
  rw [BitVec.toNat_sub_of_le hle]
  omega

theorem resolve_of_not_full (hfull : range.length ≠ -1) : range.resolve length = range :=
  if_neg hfull

theorem location_resolve : (range.resolve length).location = range.location := by
  unfold resolve
  split
  · rfl
  · rfl

/-- Behind the end nothing can be meant. -/
theorem isOutside_of_lt (hlt : length < range.location) :
    (range.resolve length).isOutside length = true := by
  have hlt' : length.toNat < range.location.toNat := hlt
  rw [isOutside_iff]
  change _ < (range.resolve length).location.toNat + _
  rw [location_resolve]
  omega

/-- The range fits the sequence. -/
def Fits (range : NSRange w) (length : BitVec w) : Prop :=
  range.location ≤ length ∧ (range.length = -1 ∨ range.interval.snd ≤ length.toNat)

theorem fits_iff : range.Fits length ↔ (range.resolve length).isOutside length = false := by
  rw [← Bool.not_eq_true, Fits]
  by_cases hle : range.location ≤ length
  · by_cases hfull : range.length = -1
    · rw [isOutside_iff, (resolve_of_full hfull hle).2]
      simp [hle, hfull]
    · rw [resolve_of_not_full hfull, isOutside_iff, Nat.not_lt]
      exact ⟨fun h => h.2.resolve_left hfull, fun h => ⟨hle, .inr h⟩⟩
  · have hout := isOutside_of_lt (BitVec.not_le.mp hle)
    simp [hle, hout]

/-- A range of all locations there are, taken literally, is the full one. -/
theorem resolve_of_le (hle : range.interval.snd ≤ length.toNat) :
    range.resolve length = range := by
  by_cases hfull : range.length = -1
  · have hall : range.length.toNat = 2 ^ w - 1 := by
      rw [hfull, show (-1 : BitVec w) = BitVec.allOnes w from BitVec.neg_one_eq_allOnes,
        BitVec.toNat_allOnes]
    have hle : range.location.toNat + range.length.toNat ≤ length.toNat := hle
    have hbound := length.isLt
    have hsub : length - range.location = range.length := by
      apply BitVec.eq_of_toNat_eq
      rw [BitVec.toNat_sub_of_le (by rw [BitVec.le_def]; omega)]
      omega
    rw [resolve, if_pos hfull, hsub]
  · exact resolve_of_not_full hfull

theorem interval_resolve_le (hfits : range.Fits length) :
    (range.resolve length).interval.snd ≤ length.toNat := by
  have hinside := fits_iff.mp hfits
  rwa [← Bool.not_eq_true, isOutside_iff, Nat.not_lt] at hinside

theorem validate_of_fits (hfits : range.Fits length) :
    range.validateRangeAgainstLength length = .ok (range.resolve length) ∧
      range.adjustRangeForLength length = range.resolve length := by
  have hinside := fits_iff.mp hfits
  rw [validateRangeAgainstLength, adjustRangeForLength, if_neg (by rw [hinside]; decide),
    if_neg (by rw [hinside]; decide)]
  exact ⟨rfl, rfl⟩

theorem validate_of_not_fits (hfits : ¬ range.Fits length) :
    range.validateRangeAgainstLength length = .error (range.resolve length) ∧
      range.adjustRangeForLength length = ⟨range.location, 0⟩ := by
  rw [fits_iff, Bool.not_eq_false] at hfits
  rw [validateRangeAgainstLength, adjustRangeForLength, if_pos hfits, if_pos hfits]
  exact ⟨rfl, rfl⟩

/-- A range that is valid fits after the adjustment, and so does an empty one up to the end. -/
theorem fits_adjust_iff :
    (range.adjustRangeForLength length).Fits length ↔ range.location ≤ length := by
  by_cases hfits : range.Fits length
  · rw [(validate_of_fits hfits).2]
    refine iff_of_true ?_ hfits.1
    refine ⟨?_, .inr (interval_resolve_le hfits)⟩
    rw [location_resolve]
    exact hfits.1
  · rw [(validate_of_not_fits hfits).2]
    refine ⟨fun h => h.1, fun hle => ⟨hle, .inr ?_⟩⟩
    change range.location.toNat + (0 : BitVec w).toNat ≤ length.toNat
    have hzero : (0 : BitVec w).toNat = 0 := by simp
    rw [hzero]
    exact hle

/-- What callers rely on. -/
structure ValidateSpec (range : NSRange w) (length : BitVec w) : Prop where
  ok_iff : (∃ r, range.validateRangeAgainstLength length = .ok r) ↔ range.Fits length
  /-- The length is replaced only if it is -1. -/
  of_ok : ∀ r, range.validateRangeAgainstLength length = .ok r →
    r.location = range.location ∧
      (if range.length = -1 then r.interval.snd = length.toNat else r = range)
  /-- All locations are in the sequence. -/
  inside : ∀ r, range.validateRangeAgainstLength length = .ok r →
    ∀ x, r.Contains x → x < length.toNat
  again : ∀ r, range.validateRangeAgainstLength length = .ok r →
    r.validateRangeAgainstLength length = .ok r
  adjust_of_ok : ∀ r, range.validateRangeAgainstLength length = .ok r →
    range.adjustRangeForLength length = r
  adjust_of_error : ∀ r, range.validateRangeAgainstLength length = .error r →
    range.adjustRangeForLength length = ⟨range.location, 0⟩
  /-- The adjustment does not move a range that starts behind the end. -/
  adjust_valid_iff : (∃ r, (range.adjustRangeForLength length).validateRangeAgainstLength length =
    .ok r) ↔ range.location ≤ length

theorem ok_iff_fits (range : NSRange w) (length : BitVec w) :
    (∃ r, range.validateRangeAgainstLength length = .ok r) ↔ range.Fits length := by
  constructor
  · rintro ⟨r, hr⟩
    by_contra hfits
    rw [(validate_of_not_fits hfits).1] at hr
    cases hr
  · intro hfits
    exact ⟨_, (validate_of_fits hfits).1⟩

/-- For every range and every length, although the end of the range may wrap. -/
theorem validateSpec (range : NSRange w) (length : BitVec w) : ValidateSpec range length := by
  have of_ok {r : NSRange w} (hr : range.validateRangeAgainstLength length = .ok r) :
      range.Fits length ∧ r = range.resolve length := by
    have hfits := (ok_iff_fits range length).mp ⟨r, hr⟩
    rw [(validate_of_fits hfits).1] at hr
    exact ⟨hfits, (Except.ok.inj hr).symm⟩
  refine ⟨ok_iff_fits range length, ?_, ?_, ?_, ?_, ?_, ?_⟩
  · intro r hr
    obtain ⟨hfits, rfl⟩ := of_ok hr
    refine ⟨location_resolve, ?_⟩
    split
    · next hfull => exact (resolve_of_full hfull hfits.1).2
    · next hfull => exact resolve_of_not_full hfull
  · intro r hr x hx
    obtain ⟨hfits, rfl⟩ := of_ok hr
    exact Nat.lt_of_lt_of_le hx.2 (interval_resolve_le hfits)
  · intro r hr
    obtain ⟨hfits, rfl⟩ := of_ok hr
    have hle := interval_resolve_le hfits
    have hlocation : (range.resolve length).location = range.location := location_resolve
    have hfits' : (range.resolve length).Fits length := ⟨hlocation ▸ hfits.1, .inr hle⟩
    rw [(validate_of_fits hfits').1, resolve_of_le hle]
  · intro r hr
    obtain ⟨hfits, rfl⟩ := of_ok hr
    exact (validate_of_fits hfits).2
  · intro r hr
    refine (validate_of_not_fits fun hfits => ?_).2
    rw [(validate_of_fits hfits).1] at hr
    cases hr
  · rw [ok_iff_fits, fits_adjust_iff]

/-- With 8 bits `{ 3, 254 }` ends at 1, and 255 is -1. -/
example : (NSRange.mk 3#8 254#8).validateRangeAgainstLength 10#8 = .error ⟨3#8, 254#8⟩ ∧
    (NSRange.mk 3#8 255#8).validateRangeAgainstLength 10#8 = .ok ⟨3#8, 7#8⟩ := by decide

end MulleObjC.NSRange
