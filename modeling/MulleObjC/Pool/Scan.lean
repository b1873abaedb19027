import MulleObjC.Pool.Return

/-!
# What a removal has passed

A removal goes through the pages of a pool from the newest slot to the oldest. Meanwhile the
storage grows at its newest end, gets holes, or is taken away from the pool. What stands above
the removal's place has been passed, or was added since.
-/

namespace MulleObjC.Pool

variable {Obj : Type*}

namespace Storage

/-- The slots above the slot `q` of the page with `below` pages behind it, and this slot. -/
def above : Storage Obj → ℕ → ℕ → List (Option Obj)
  | [], _, _ => []
  | array :: previous, below, q =>
    if below = previous.length then array.objects.drop q
    else above previous below q ++ array.objects

/-- The slots below `q` of the page with `below` pages behind it are there. -/
def Reaches (storage : Storage Obj) (below q : ℕ) : Prop :=
  ∃ array, storage.pageAt below = some array ∧ q ≤ array.used

theorem Reaches.mono {storage : Storage Obj} {below q r : ℕ} (h : storage.Reaches below q)
    (hr : r ≤ q) : storage.Reaches below r := by
  obtain ⟨array, hpage, hq⟩ := h
  exact ⟨array, hpage, hr.trans hq⟩

theorem lt_length_of_pageAt {storage : Storage Obj} {below : ℕ} {array : PointerArray Obj}
    (h : storage.pageAt below = some array) : below < storage.length := by
  induction storage with
  | nil => cases h
  | cons top previous ih =>
    rw [pageAt] at h
    rw [List.length_cons]
    split at h
    · omega
    · have := ih h
      omega

/-- Behind a new page nothing changes. -/
theorem pageAt_cons {storage : Storage Obj} {below : ℕ} (h : below < storage.length)
    (array : PointerArray Obj) : pageAt (array :: storage) below = pageAt storage below := by
  rw [pageAt, if_neg (by omega)]

/-- The first page that is looked at is the newest one. -/
theorem above_top (array : PointerArray Obj) (previous : Storage Obj) :
    above (array :: previous) previous.length array.used = [] := by
  rw [above, if_pos rfl]
  exact List.drop_length

theorem reaches_top (array : PointerArray Obj) (previous : Storage Obj) :
    Reaches (array :: previous) previous.length array.used := by
  refine ⟨array, ?_, le_rfl⟩
  rw [pageAt, if_pos rfl]

/-- When the oldest page has been passed, every slot has been passed. -/
theorem above_zero (storage : Storage Obj) : storage.above 0 0 = storage.slots := by
  induction storage with
  | nil => rfl
  | cons array previous ih =>
    rw [above, slots]
    split
    case isTrue hnone =>
      obtain rfl := List.length_eq_zero_iff.mp hnone.symm
      rfl
    case isFalse => rw [ih]

/-- One slot further. -/
theorem above_eq_cons {storage : Storage Obj} {below q : ℕ}
    (h : storage.Reaches below (q + 1)) :
    ∃ slot, (storage.pageAt below).bind (·.objects[q]?) = some slot ∧
      storage.above below q = slot :: storage.above below (q + 1) := by
  obtain ⟨array, hpage, hq⟩ := h
  have hlt : q < array.objects.length := hq
  refine ⟨array.objects[q], by rw [hpage, Option.bind_some, List.getElem?_eq_getElem hlt], ?_⟩
  induction storage with
  | nil => cases hpage
  | cons top previous ih =>
    rw [pageAt] at hpage
    rw [above, above]
    split at hpage
    case isTrue hbelow =>
      obtain rfl := Option.some.inj hpage
      rw [if_pos hbelow, if_pos hbelow, List.drop_eq_getElem_cons hlt]
    case isFalse hbelow =>
      rw [if_neg hbelow, if_neg hbelow, ih hpage, List.cons_append]

/-- When a page has been passed, the next one starts at its end. -/
theorem above_next {storage : Storage Obj} {below : ℕ} (h : storage.Reaches (below + 1) 0) :
    ∃ array, storage.pageAt below = some array ∧
      storage.above below array.used = storage.above (below + 1) 0 := by
  obtain ⟨array, hpage, -⟩ := h
  induction storage with
  | nil => cases hpage
  | cons top previous ih =>
    have hlt := lt_length_of_pageAt hpage
    rw [List.length_cons] at hlt
    rw [pageAt] at hpage
    by_cases hbelow : below + 1 = previous.length
    · obtain ⟨next, rest, rfl⟩ := List.exists_cons_of_length_pos (by omega : 0 < previous.length)
      rw [List.length_cons] at hbelow
      have hnext : below = rest.length := by omega
      refine ⟨next, ?_, ?_⟩
      · rw [pageAt_cons (by rw [List.length_cons]; omega), pageAt, if_pos hnext]
      · rw [above, if_neg (by rw [List.length_cons]; omega), hnext, above_top, above,
          if_pos (by rw [List.length_cons])]
        rfl
    · rw [if_neg hbelow] at hpage
      obtain ⟨next, hnext, habove⟩ := ih hpage
      refine ⟨next, ?_, ?_⟩
      · rw [pageAt_cons (lt_length_of_pageAt hnext), hnext]
      · rw [above, if_neg (by have := lt_length_of_pageAt hnext; omega), habove, above,
          if_neg hbelow]

/-- The newest page has grown. -/
theorem above_grow {array array' : PointerArray Obj} {xs : List (Option Obj)}
    (hobjects : array'.objects = array.objects ++ xs) {previous : Storage Obj} {below q : ℕ}
    (h : Reaches (array :: previous) below q) :
    Reaches (array' :: previous) below q ∧
      above (array' :: previous) below q = above (array :: previous) below q ++ xs := by
  obtain ⟨page, hpage, hq⟩ := h
  rw [Reaches, pageAt, above, above]
  rw [pageAt] at hpage
  split at hpage
  case isTrue hbelow =>
    obtain rfl := Option.some.inj hpage
    have hused : q ≤ array'.used := by
      rw [PointerArray.used, hobjects, List.length_append]
      exact hq.trans (Nat.le_add_right _ _)
    rw [if_pos hbelow, if_pos hbelow, if_pos hbelow, hobjects, List.drop_append_of_le_length hq]
    exact ⟨⟨array', rfl, hused⟩, rfl⟩
  case isFalse hbelow =>
    rw [if_neg hbelow, if_neg hbelow, if_neg hbelow, hobjects, List.append_assoc]
    exact ⟨⟨page, hpage, hq⟩, rfl⟩

/-- Making room for an entry moves nothing. -/
theorem above_writable {storage : Storage Obj} {below q : ℕ} (h : storage.Reaches below q) :
    Reaches (storage.writable.1.1 :: storage.writable.2) below q ∧
      above (storage.writable.1.1 :: storage.writable.2) below q = above storage below q := by
  cases storage with
  | nil =>
    obtain ⟨array, hpage, -⟩ := h
    cases hpage
  | cons array previous =>
    rw [writable]
    split
    · exact ⟨h, rfl⟩
    · obtain ⟨page, hpage, hq⟩ := h
      have hlt := lt_length_of_pageAt hpage
      refine ⟨⟨page, by rwa [pageAt_cons hlt], hq⟩, ?_⟩
      rw [above, if_neg (Nat.ne_of_lt hlt), PointerArray.objects_init, List.append_nil]

theorem above_addObject {storage : Storage Obj} {below q : ℕ} (h : storage.Reaches below q)
    (p : Obj) :
    (storage.addObject p).Reaches below q ∧
      (storage.addObject p).above below q = storage.above below q ++ [some p] := by
  obtain ⟨hreaches, habove⟩ := above_writable h
  have hgrow := above_grow (PointerArray.objects_add _ p storage.writable.1.2) hreaches
  rw [habove] at hgrow
  exact hgrow

theorem above_addObjects {storage : Storage Obj} {below q : ℕ} (h : storage.Reaches below q)
    (objects : ℕ → Obj) (count step : ℕ) :
    (storage.addObjects objects count step).Reaches below q ∧
      (storage.addObjects objects count step).above below q =
        storage.above below q ++ (spaced objects count step).map some := by
  induction count using Nat.strong_induction_on generalizing storage objects with
  | _ count ih =>
    rw [addObjects]
    split
    case isTrue hcount =>
      rw [hcount]
      exact ⟨h, by simp [spaced]⟩
    case isFalse hcount =>
      have hroom := storage.writable.1.2
      obtain ⟨hreaches, habove⟩ := above_writable h
      -- the page takes as many objects as it has room for
      obtain ⟨amount, hamount⟩ :
          ∃ amount, amount = min count (nObjects - storage.writable.1.1.used) := ⟨_, rfl⟩
      have hfits : storage.writable.1.1.used + (spaced objects amount step).length ≤ nObjects := by
        rw [length_spaced]
        omega
      have hgrow := above_grow (PointerArray.objects_append _ (spaced objects amount step) hfits)
        hreaches
      obtain ⟨hnext, hslots⟩ := ih (count - amount) (by omega) hgrow.1
        fun i => objects (step * amount + i)
      have hcounts : amount + (count - amount) = count := by omega
      rw [hgrow.2, habove, List.append_assoc, ← List.map_append, spaced_append, hcounts] at hslots
      subst hamount
      exact ⟨hnext, hslots⟩

theorem length_clearAt (storage : Storage Obj) (below q : ℕ) :
    (storage.clearAt below q).length = storage.length := by
  induction storage with
  | nil => rfl
  | cons top previous ih =>
    rw [clearAt]
    split
    · rfl
    · rw [List.length_cons, List.length_cons, ih]

theorem pageAt_clearAt {storage : Storage Obj} {below : ℕ} {array : PointerArray Obj}
    (h : storage.pageAt below = some array) (below' q' : ℕ) :
    (storage.clearAt below' q').pageAt below =
      some (if below = below' then array.clear q' else array) := by
  induction storage with
  | nil => cases h
  | cons top previous ih =>
    have hlt := lt_length_of_pageAt h
    rw [List.length_cons] at hlt
    rw [pageAt] at h
    rw [clearAt]
    by_cases hbelow : below = previous.length
    · rw [if_pos hbelow] at h
      obtain rfl := Option.some.inj h
      split
      case isTrue hbelow' =>
        rw [pageAt, if_pos hbelow, if_pos (hbelow.trans hbelow'.symm)]
      case isFalse hbelow' =>
        have hne : below ≠ below' := fun heq => hbelow' (heq.symm.trans hbelow)
        rw [pageAt, length_clearAt, if_pos hbelow, if_neg hne]
    · rw [if_neg hbelow] at h
      split
      case isTrue hbelow' =>
        have hne : below ≠ below' := fun heq => hbelow (heq.trans hbelow')
        rw [pageAt, if_neg hbelow, h, if_neg hne]
      case isFalse hbelow' => rw [pageAt, length_clearAt, if_neg hbelow, ih h]

/-- A hole moves nothing. -/
theorem Reaches.clearAt {storage : Storage Obj} {below q : ℕ} (h : storage.Reaches below q)
    (below' q' : ℕ) : (storage.clearAt below' q').Reaches below q := by
  obtain ⟨array, hpage, hq⟩ := h
  refine ⟨_, pageAt_clearAt hpage below' q', ?_⟩
  split
  · rwa [PointerArray.used, PointerArray.objects_clear, List.length_set]
  · exact hq

variable [DecidableEq Obj]

theorem count_drop_set_le (objects : List (Option Obj)) (k q : ℕ) (p : Obj) :
    ((objects.set q none).drop k).count (some p) ≤ (objects.drop k).count (some p) := by
  by_cases hq : q < k
  · rw [List.drop_set_of_lt hq]
  · have hdrop : (objects.set q none).drop k = (objects.drop k).set (q - k) none := by
      rw [List.drop_set, if_neg hq]
    rw [hdrop]
    by_cases hlt : q - k < (objects.drop k).length
    · rw [List.count_set hlt]
      simp
    · rw [List.set_eq_of_length_le (by omega)]

/-- A hole takes no place above another one. -/
theorem count_above_clearAt_le (storage : Storage Obj) (below q below' q' : ℕ) (p : Obj) :
    ((storage.clearAt below' q').above below q).count (some p) ≤
      (storage.above below q).count (some p) := by
  induction storage with
  | nil => exact Nat.le_refl _
  | cons top previous ih =>
    have hset := count_drop_set_le top.objects 0 q' p
    rw [List.drop_zero, List.drop_zero] at hset
    rw [Storage.clearAt]
    split
    · rw [above, above]
      split
      · exact count_drop_set_le _ _ _ _
      · rw [List.count_append, List.count_append]
        exact Nat.add_le_add_left hset _
    · rw [above, above, length_clearAt]
      split
      · exact Nat.le_refl _
      · rw [List.count_append, List.count_append]
        exact Nat.add_le_add_right ih _

theorem count_slots_clearAt_le (storage : Storage Obj) (below q : ℕ) (p : Obj) :
    (storage.clearAt below q).slots.count (some p) ≤ storage.slots.count (some p) := by
  rw [← above_zero, ← above_zero]
  exact count_above_clearAt_le storage 0 0 below q p

end Storage

end MulleObjC.Pool
