import MulleObjC.Invocation.Types

/-!
# The walk stays inside the type

The owned members that a walk finds are different pieces of the argument: they do not
overlap each other and lie inside the space that the argument has. A walk throws only
if there is a union with a retainable type.
-/

namespace MulleObjC.Invocation

namespace Walk

/-- The members of a walk that starts at `lo` are apart, in order, and end before `hi`. -/
structure Fits (w : Walk) (lo hi : ℕ) : Prop where
  ordered : w.members.Pairwise fun m m' => m.offset + 8 ≤ m'.offset
  within : ∀ m ∈ w.members, lo ≤ m.offset ∧ m.offset + 8 ≤ hi
  reached : ∀ o, w.offset = some o → lo ≤ o ∧ o ≤ hi ∧ ∀ m ∈ w.members, m.offset + 8 ≤ o

variable {w : Walk} {f : ℕ → Walk} {lo mid hi o : ℕ}

/-- There can be more space. -/
theorem Fits.mono (h : w.Fits lo mid) (hle : mid ≤ hi) : w.Fits lo hi where
  ordered := h.ordered
  within m hm := ⟨(h.within m hm).1, (h.within m hm).2.trans hle⟩
  reached o ho := ⟨(h.reached o ho).1, (h.reached o ho).2.1.trans hle, (h.reached o ho).2.2⟩

/-- A walk without members. -/
theorem fits_nil (hle : lo ≤ hi) : (⟨[], some lo⟩ : Walk).Fits lo hi where
  ordered := .nil
  within := by simp
  reached := by simpa using hle

/-- A walk that throws at once. -/
theorem fits_throw : (⟨[], none⟩ : Walk).Fits lo hi where
  ordered := .nil
  within := by simp
  reached := by simp

/-- Two walks, one after the other. -/
theorem Fits.andThen (h : w.Fits lo mid) (hle : mid ≤ hi)
    (hf : ∀ o, w.offset = some o → (f o).Fits o hi) : (w.andThen f).Fits lo hi := by
  unfold Walk.andThen
  split
  · exact h.mono hle
  · next o ho =>
    have hnext := hf o ho
    obtain ⟨hlo, -, hbefore⟩ := h.reached o ho
    refine ⟨List.pairwise_append.mpr ⟨h.ordered, hnext.ordered, fun m hm m' hm' => ?_⟩,
      fun m hm => ?_, fun o' ho' => ?_⟩
    · exact (hbefore m hm).trans (hnext.within m' hm').1
    · rcases List.mem_append.mp hm with hm | hm
      · exact ⟨(h.within m hm).1, (h.within m hm).2.trans hle⟩
      · exact ⟨hlo.trans (hnext.within m hm).1, (hnext.within m hm).2⟩
    · obtain ⟨hle', hhi, hbefore'⟩ := hnext.reached o' ho'
      refine ⟨hlo.trans hle', hhi, fun m hm => ?_⟩
      rcases List.mem_append.mp hm with hm | hm
      · exact (hbefore m hm).trans hle'
      · exact hbefore' m hm

/-- One step. An owned member has the size of a pointer. -/
theorem fits_scalar {size alignment : ℕ} {kind : Option Owned} (hpos : 0 < alignment)
    (hsize : kind.isSome → size = 8) :
    (Walk.scalar size alignment kind o).Fits o (alignUp o alignment + size) := by
  have hle := alignUp.le (n := o) hpos
  cases kind with
  | none =>
    refine ⟨.nil, by simp [Walk.scalar], fun o' ho' => ?_⟩
    obtain rfl : alignUp o alignment + size = o' := by simpa [Walk.scalar] using ho'
    refine ⟨by omega, Nat.le_refl _, by simp [Walk.scalar]⟩
  | some k =>
    obtain rfl := hsize rfl
    refine ⟨by simp [Walk.scalar], ?_, fun o' ho' => ?_⟩
    · simpa [Walk.scalar] using hle
    · obtain rfl : alignUp o alignment + 8 = o' := by simpa [Walk.scalar] using ho'
      refine ⟨by omega, Nat.le_refl _, by simp [Walk.scalar]⟩

/-- The same walk again and again, each time over the space for one element. -/
theorem fits_repeated {size alignment : ℕ} (hpos : 0 < alignment) (hdvd : alignment ∣ size)
    (hf : ∀ o, (f o).Fits o (alignUp o alignment + size)) (n : ℕ) {start : ℕ}
    (hstart : alignment ∣ start) (hle : o ≤ start) :
    (repeated f n o).Fits o (start + n * size) := by
  induction n generalizing o start with
  | zero => exact fits_nil (by omega)
  | succ n ih =>
    have hfirst := (hf o).mono (Nat.add_le_add_right (alignUp.le_of_dvd hpos hstart hle) size)
    have hend : start + (n + 1) * size = start + size + n * size := by
      rw [Nat.add_mul]
      omega
    rw [hend]
    exact hfirst.andThen (by omega) fun o' ho' =>
      ih (Nat.dvd_add hstart hdvd) (hfirst.reached o' ho').2.1

/-- A walk that does not throw goes on. -/
theorem offset_andThen (ho : w.offset = some o) : (w.andThen f).offset = (f o).offset := by
  simp [Walk.andThen, ho]

/-- As `offset_andThen`, for the same walk again and again. -/
theorem exists_offset_repeated (hf : ∀ o, ∃ o', (f o).offset = some o') (n : ℕ) (o : ℕ) :
    ∃ o', (repeated f n o).offset = some o' := by
  induction n generalizing o with
  | zero => exact ⟨o, rfl⟩
  | succ n ih =>
    obtain ⟨o₁, ho₁⟩ := hf o
    obtain ⟨o₂, ho₂⟩ := ih o₁
    exact ⟨o₂, by rw [repeated, offset_andThen ho₁, ho₂]⟩

end Walk

namespace Ty

/-- Members are laid out behind each other. -/
theorem le_layoutEnd (ts : List Ty) (o : ℕ) : o ≤ layoutEnd ts o := by
  induction ts generalizing o with
  | nil => simp [layoutEnd]
  | cons t ts ih =>
    have hle := alignUp.le (n := o) (Nat.two_pow_pos t.alignmentLog)
    have hnext := ih (alignUp o (2 ^ t.alignmentLog) + t.size)
    simp only [layoutEnd]
    omega

/-- A walk over a type that starts at the beginning of an argument or behind another member. -/
theorem walk_fits (t : Ty) (o : ℕ) : (t.walk o).Fits o (alignUp o t.alignment + t.size) := by
  unfold alignment
  -- a struct that starts at an aligned offset lays out its members from there on
  induction t using Ty.induction (Q := fun ts => ∀ o start c, 2 ^ maxAlignmentLog ts ∣ start →
    o ≤ start + c → (walkMembers ts o).Fits o (start + layoutEnd ts c)) generalizing o with
  | scalar s =>
    simp only [walk, alignmentLog, size]
    exact Walk.fits_scalar (Nat.two_pow_pos _) (by simp)
  | cls | assignId | retainId | copyId | charPtr =>
    simp only [walk, alignmentLog, size]
    exact Walk.fits_scalar (by omega) (by simp)
  | array count member ih =>
    have hle := alignUp.le (n := o) (Nat.two_pow_pos member.alignmentLog)
    simp only [walk, alignmentLog, size]
    split
    · exact Walk.fits_throw
    · split
      · have hfits := Walk.fits_repeated (Nat.two_pow_pos _) member.alignment_dvd_size ih count
          alignUp.dvd hle
        refine ⟨hfits.ordered, hfits.within, fun o' ho' => ?_⟩
        obtain ⟨-, -, rfl⟩ := Option.map_eq_some_iff.mp ho'
        exact ⟨by omega, Nat.le_refl _, fun m hm => (hfits.within m hm).2⟩
      · exact Walk.fits_nil (by omega)
  | struct members ih =>
    have hle := alignUp.le (n := o) (Nat.two_pow_pos (maxAlignmentLog members))
    simp only [walk, alignmentLog, size]
    refine (ih o (alignUp o (2 ^ maxAlignmentLog members)) 0 alignUp.dvd (by omega)).mono ?_
    exact Nat.add_le_add_left (alignUp.le (Nat.two_pow_pos _)) _
  | union members =>
    simp only [walk, alignmentLog, size]
    split
    · exact Walk.fits_throw
    · exact Walk.fits_scalar (Nat.two_pow_pos _) (by simp)
  | nil o start c _ hle =>
    simp only [walkMembers, layoutEnd]
    exact Walk.fits_nil hle
  | cons t ts iht ihts o start c hdvd hle =>
    simp only [walkMembers, layoutEnd]
    simp only [maxAlignmentLog] at hdvd
    have hdvdt := Nat.dvd_trans (Nat.pow_dvd_pow 2 (Nat.le_max_left _ _)) hdvd
    have hdvdts := Nat.dvd_trans (Nat.pow_dvd_pow 2 (Nat.le_max_right _ _)) hdvd
    have hpos := Nat.two_pow_pos t.alignmentLog
    have hmember : alignUp o (2 ^ t.alignmentLog) ≤ start + alignUp c (2 ^ t.alignmentLog) := by
      refine alignUp.le_of_dvd hpos (Nat.dvd_add hdvdt alignUp.dvd) (hle.trans ?_)
      exact Nat.add_le_add_left (alignUp.le hpos) start
    have hfirst : (t.walk o).Fits o (start + (alignUp c (2 ^ t.alignmentLog) + t.size)) :=
      (iht o).mono (by omega)
    exact hfirst.andThen (Nat.add_le_add_left (le_layoutEnd ts _) start) fun o' ho' =>
      ihts o' start _ hdvdts (hfirst.reached o' ho').2.1

/-- Only a union with a retainable type stops a walk. -/
theorem walk_offset (t : Ty) (h : t.hasOwnedUnion = false) (o : ℕ) :
    ∃ o', (t.walk o).offset = some o' := by
  induction t using Ty.induction (Q := fun ts => anyOwnedUnion ts = false →
    ∀ o, ∃ o', (walkMembers ts o).offset = some o') generalizing o with
  | scalar | cls | assignId | retainId | copyId | charPtr => exact ⟨_, rfl⟩
  | array count member ih =>
    have hmember : member.hasOwnedUnion = false := by simpa [hasOwnedUnion] using h
    simp only [walk, hmember]
    split
    · next hthrow => cases hthrow
    · split
      · obtain ⟨o', ho'⟩ := Walk.exists_offset_repeated (ih hmember) count o
        exact ⟨_, by rw [ho']; rfl⟩
      · exact ⟨o, rfl⟩
  | struct members ih =>
    rw [walk]
    exact ih (by simpa [hasOwnedUnion] using h) o
  | union members =>
    have hmembers : anyRetainable members = false := by simpa [hasOwnedUnion] using h
    simp only [walk, hmembers]
    exact ⟨_, rfl⟩
  | nil _ o => exact ⟨o, rfl⟩
  | cons t ts iht ihts h o =>
    obtain ⟨ht, hts⟩ := Bool.or_eq_false_iff.mp (by simpa [anyOwnedUnion] using h)
    obtain ⟨o₁, ho₁⟩ := iht ht o
    obtain ⟨o₂, ho₂⟩ := ihts hts o₁
    exact ⟨o₂, by rw [walkMembers, Walk.offset_andThen ho₁, ho₂]⟩

end Ty

end MulleObjC.Invocation
