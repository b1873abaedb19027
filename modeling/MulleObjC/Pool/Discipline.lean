import MulleObjC.Pool.Step

/-!
# The stack discipline of pools and frames

Every function that has not returned finds the pools it works on: a pop runs on
the current pool and its target is below, a `-dealloc` still has the pools it
found. Once the inner functions have returned, the same holds for the outer ones.
-/

namespace MulleObjC.Pool

section After

variable {α : Type*} {key : α → ℕ} {a : ℕ}

theorem after_suffix (key : α → ℕ) (a : ℕ) (xs : List α) : after key a xs <:+ xs := by
  induction xs with
  | nil => exact List.suffix_rfl
  | cons x xs ih =>
    rw [after]
    split
    · exact List.suffix_cons x xs
    · exact ih.trans (List.suffix_cons x xs)

theorem map_after (xs : List α) : (after key a xs).map key = after id a (xs.map key) := by
  induction xs with
  | nil => rfl
  | cons x xs ih =>
    rw [List.map_cons, after, after, id, ← ih]
    split <;> rfl

/-- The ends of a list with a given length do not depend on what stands before them. -/
theorem drop_of_suffix {xs ys : List α} (h : ys <:+ xs) {n : ℕ} (hn : n ≤ ys.length) :
    ys.drop (ys.length - n) = xs.drop (xs.length - n) := by
  obtain ⟨zs, rfl⟩ := h
  rw [List.length_append, Nat.add_sub_assoc hn, ← List.drop_drop, List.drop_left]

/-- An element outside of the lowest `n` leaves these behind it. -/
theorem le_length_after {n : ℕ} {ids : List ℕ} (h : a ∈ ids.take (ids.length - n)) :
    n ≤ (after id a ids).length := by
  induction ids with
  | nil => simp at h
  | cons x ids ih =>
    have hn : n ≤ ids.length := by
      by_contra hlt
      rw [List.length_cons, Nat.sub_eq_zero_of_le (by omega), List.take_zero] at h
      cases h
    rw [after]
    split
    · exact hn
    · rename_i hne
      rw [List.length_cons, Nat.sub_add_comm hn, List.take_succ_cons] at h
      exact ih ((List.mem_cons.mp h).resolve_left (Ne.symm hne))

end After

variable {Obj : Type*}

/-- The frames find the pools they work on, innermost frame first. -/
def Disciplined : List (Frame Obj) → List ℕ → Prop
  | [], _ => True
  | .dealloc floor :: rest, ids =>
    floor ≤ ids.length ∧ Disciplined rest (ids.drop (ids.length - floor))
  | .releaseAll pool none :: rest, ids => pool ∈ ids ∧ Disciplined rest ids
  | .releaseAll pool (some aPool) :: rest, ids =>
    ids.head? = some pool ∧ aPool ∈ ids ∧ Disciplined rest (after id aPool ids)
  | .releaseAndFree pool _ _ :: rest, ids => pool ∈ ids ∧ Disciplined rest ids
  | .releaseObjects _ _ _ _ _ :: rest, ids => Disciplined rest ids

/-- The invariant of a thread: the frames keep to the stack discipline, and every pool
of the stack has an address of its own that is in use. -/
structure State.Sound (s : State Obj) : Prop where
  disciplined : Disciplined s.frames (addresses s.config.pools)
  nodup : (addresses s.config.pools).Nodup
  lt_nextPool : ∀ a ∈ addresses s.config.pools, a < s.nextPool

@[simp] theorem addresses_cons (pool : NSAutoreleasePool Obj)
    (owner : List (NSAutoreleasePool Obj)) :
    addresses (pool :: owner) = pool.address :: addresses owner := rfl

@[simp] theorem addresses_modifyStorage (pool : ℕ) (f : Storage Obj → Storage Obj)
    (pools : List (NSAutoreleasePool Obj)) :
    addresses (modifyStorage pool f pools) = addresses pools := by
  induction pools with
  | nil => rfl
  | cons p owner ih =>
    rw [modifyStorage]
    split
    · rfl
    · rw [addresses_cons, addresses_cons, ih]

theorem addresses_after (a : ℕ) (pools : List (NSAutoreleasePool Obj)) :
    addresses (after NSAutoreleasePool.address a pools) = after id a (addresses pools) :=
  map_after pools

theorem length_addresses (pools : List (NSAutoreleasePool Obj)) :
    (addresses pools).length = pools.length := List.length_map _

/-- Frames of explicit removals ask for nothing. -/
theorem disciplined_append {fs rest : List (Frame Obj)}
    (hfs : ∀ frame ∈ fs, frame.IsReleaseObjects) {ids : List ℕ} :
    Disciplined (fs ++ rest) ids ↔ Disciplined rest ids := by
  induction fs with
  | nil => rfl
  | cons frame fs ih =>
    obtain ⟨ps, owners, pool, below, q, rfl⟩ := hfs frame List.mem_cons_self
    exact ih fun f hf => hfs f (List.mem_cons_of_mem _ hf)

/-- The frames of running code, as the pools above its floor come and go. -/
theorem disciplined_code {s : State Obj} {floor : ℕ} (hcode : s.Code floor) {ids ids' : List ℕ}
    (hdisc : Disciplined s.frames ids) (hfloor : floor ≤ ids'.length)
    (hsuffix : ids <:+ ids' ∨ ids' <:+ ids) : Disciplined s.frames ids' := by
  obtain ⟨hframes, -⟩ | ⟨rest, hframes⟩ := hcode
  · simp [hframes, Disciplined]
  · rw [hframes, Disciplined] at hdisc ⊢
    refine ⟨hfloor, ?_⟩
    obtain hsuffix | hsuffix := hsuffix
    · rw [← drop_of_suffix hsuffix hdisc.1]
      exact hdisc.2
    · rw [drop_of_suffix hsuffix hfloor]
      exact hdisc.2

/-- Running code finds its floor. -/
theorem floor_le_length {s : State Obj} {floor : ℕ} (hcode : s.Code floor) {ids : List ℕ}
    (hdisc : Disciplined s.frames ids) : floor ≤ ids.length := by
  obtain ⟨-, rfl⟩ | ⟨rest, hframes⟩ := hcode
  · exact Nat.zero_le _
  · rw [hframes] at hdisc
    exact hdisc.1

/-- Behind the first pool, the pools behind another one stay the same. -/
theorem after_tail_of_ne {a b : ℕ} {ids : List ℕ} (hhead : ids.head? = some a) (hne : a ≠ b) :
    after id b ids = after id b ids.tail := by
  cases ids with
  | nil => rfl
  | cons x ids =>
    rw [List.head?_cons, Option.some.injEq] at hhead
    subst hhead
    rw [after, id, if_neg hne, List.tail_cons]

theorem after_head {a : ℕ} {ids : List ℕ} (hhead : ids.head? = some a) :
    after id a ids = ids.tail := by
  cases ids with
  | nil => rfl
  | cons x ids =>
    rw [List.head?_cons, Option.some.injEq] at hhead
    subst hhead
    rw [after, id, if_pos rfl, List.tail_cons]

variable [DecidableEq Obj]

/-- A released entry leaves the pools in place; a `-dealloc` finds all of them. -/
theorem disciplined_releaseEntry {s : State Obj} (p : Obj) (dealloc : Bool)
    {frames : List (Frame Obj)} (hdisc : Disciplined frames (addresses s.config.pools)) :
    Disciplined (s.releaseEntry p dealloc frames).frames
      (addresses (s.releaseEntry p dealloc frames).config.pools) := by
  unfold State.releaseEntry
  cases dealloc with
  | false => exact hdisc
  | true => simpa [Disciplined, length_addresses] using hdisc

/-- Every change keeps the stack discipline. -/
theorem Change.disciplined {s s' : State Obj} {es : List (Event Obj)} (h : Change s es s')
    (hs : s.Sound) : Disciplined s'.frames (addresses s'.config.pools) := by
  have hdisc := hs.disciplined
  cases h with
  | push hcode =>
    have hfloor := floor_le_length hcode hdisc
    exact disciplined_code hcode hdisc (Nat.le_succ_of_le hfloor) (.inl (List.suffix_cons _ _))
  | add hcode hpools => simpa [hpools] using hdisc
  | idle => exact hdisc
  | pop hcode hpools hmem =>
    rw [← length_addresses] at hmem
    have hcallee := disciplined_code hcode hdisc (le_length_after hmem)
      (.inr (after_suffix id _ _))
    exact ⟨by simp [hpools], List.mem_of_mem_take hmem, hcallee⟩
  | releaseAllPoolObjects hframes hmem => exact ⟨hmem, trivial⟩
  | releasePoolObjects hframes hfs =>
    rw [disciplined_append hfs]
    obtain ⟨-, rfl⟩ | ⟨frame, ⟨ps, owners, pool, below, q, rfl⟩, hframes⟩ := hframes
    · trivial
    · rwa [hframes] at hdisc
  | leave hframes =>
    rw [hframes, Disciplined, length_addresses, Nat.sub_self, List.drop_zero] at hdisc
    exact hdisc.2
  | @detach pool popTo rest hframes array previous hstorage =>
    rw [hframes] at hdisc
    refine ⟨?_, by simpa using hdisc⟩
    rw [addresses_modifyStorage]
    cases popTo with
    | none => exact hdisc.1
    | some aPool => exact List.mem_of_mem_head? hdisc.1
  | emptied hframes =>
    rw [hframes] at hdisc
    exact hdisc.2
  | popLast hframes =>
    rw [hframes] at hdisc
    rw [addresses_after]
    exact hdisc.2.2
  | @popNext pool aPool hne rest hframes hstorage tail owner hafter =>
    rw [hframes] at hdisc
    obtain ⟨hhead, hmem, hrest⟩ := hdisc
    have htail : addresses (tail :: owner) = (addresses s.config.pools).tail := by
      rw [← hafter, addresses_after, after_head hhead]
    refine ⟨rfl, ?_, ?_⟩
    · rw [htail]
      have hcons := List.cons_head?_tail hhead
      rw [← hcons] at hmem
      exact (List.mem_cons.mp hmem).resolve_left (Ne.symm hne)
    · rwa [htail, ← after_tail_of_ne hhead hne]
  | release hframes dealloc =>
    rw [hframes] at hdisc
    exact disciplined_releaseEntry _ dealloc hdisc
  | advance hframes =>
    rw [hframes] at hdisc
    exact hdisc
  | freed hframes =>
    rw [hframes] at hdisc
    exact hdisc.2
  | remove hframes _ _ dealloc =>
    rw [hframes] at hdisc
    refine disciplined_releaseEntry _ dealloc ?_
    rw [addresses_modifyStorage]
    exact hdisc

/-- A change pushes a new pool or leaves a final part of the stack. -/
theorem Change.addresses_cases {s s' : State Obj} {es : List (Event Obj)} (h : Change s es s') :
    (addresses s'.config.pools = s.nextPool :: addresses s.config.pools ∧
        s'.nextPool = s.nextPool + 1) ∨
      (addresses s'.config.pools <:+ addresses s.config.pools ∧ s'.nextPool = s.nextPool) := by
  cases h with
  | push => exact .inl ⟨rfl, rfl⟩
  | add hcode hpools => exact .inr ⟨by simp [hpools], rfl⟩
  | detach => exact .inr ⟨by simp, rfl⟩
  | popLast =>
    refine .inr ⟨?_, rfl⟩
    rw [addresses_after]
    exact after_suffix id _ _
  | popNext _ _ _ hafter =>
    refine .inr ⟨?_, rfl⟩
    rw [← hafter, addresses_after]
    exact after_suffix id _ _
  | remove => exact .inr ⟨by simp [State.releaseEntry], rfl⟩
  | _ => exact .inr ⟨List.suffix_rfl, rfl⟩

/-- Every change keeps the invariant. -/
theorem Change.sound {s s' : State Obj} {es : List (Event Obj)} (h : Change s es s')
    (hs : s.Sound) : s'.Sound := by
  refine ⟨h.disciplined hs, ?_, ?_⟩
  · rcases h.addresses_cases with ⟨hpools, -⟩ | ⟨hsuffix, -⟩
    · rw [hpools, List.nodup_cons]
      exact ⟨fun hmem => Nat.lt_irrefl _ (hs.lt_nextPool _ hmem), hs.nodup⟩
    · exact hs.nodup.sublist hsuffix.sublist
  · intro a ha
    rcases h.addresses_cases with ⟨hpools, hnext⟩ | ⟨hsuffix, hnext⟩
    · rw [hpools, List.mem_cons] at ha
      rcases ha with rfl | ha
      · omega
      · have := hs.lt_nextPool a ha
        omega
    · rw [hnext]
      exact hs.lt_nextPool a (hsuffix.subset ha)

end MulleObjC.Pool
