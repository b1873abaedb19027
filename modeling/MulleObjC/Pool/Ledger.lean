import MulleObjC.Pool.Discipline

/-!
# Entries are conserved

An entry is pending while it sits in a page of its pool or in a detached page that
is being released. Every step changes the number of pending entries by what it adds
and releases, whatever the pages, holes and frames look like.
-/

namespace MulleObjC.Pool

variable {Obj : Type*}

section Pools

theorem storageOf_head {pools : List (NSAutoreleasePool Obj)} {pool : ℕ}
    (hhead : (addresses pools).head? = some pool) :
    ∃ p owner, pools = p :: owner ∧ p.address = pool ∧ storageOf pool pools = p.storage := by
  cases pools with
  | nil => cases hhead
  | cons p owner =>
    obtain rfl : p.address = pool := Option.some.inj hhead
    exact ⟨p, owner, rfl, rfl, if_pos rfl⟩

theorem mem_addresses_of_storageOf_ne_nil {pools : List (NSAutoreleasePool Obj)} {pool : ℕ}
    (h : storageOf pool pools ≠ []) : pool ∈ addresses pools := by
  induction pools with
  | nil => exact absurd rfl h
  | cons p owner ih =>
    rw [storageOf] at h
    rw [addresses_cons, List.mem_cons]
    split at h
    · rename_i heq
      exact .inl heq.symm
    · exact .inr (ih h)

end Pools

variable [DecidableEq Obj]

/-- An event that adds an entry for an object to one of the selected pools. -/
def Event.isAdded (sel : ℕ → Bool) (p : Obj) : Event Obj → Bool
  | .added pool q => sel pool && decide (q = p)
  | _ => false

/-- An event that releases an entry for an object of one of the selected pools. -/
def Event.isReleased (sel : ℕ → Bool) (p : Obj) : Event Obj → Bool
  | .released pool q => sel pool && decide (q = p)
  | _ => false

/-- The entries for an object in a chain of pages of a pool, if the pool is selected. -/
def entriesIn (sel : ℕ → Bool) (p : Obj) (pool : ℕ) (storage : Storage Obj) : ℕ :=
  if sel pool then storage.slots.count (some p) else 0

/-- The entries for an object in the selected pools of a stack. -/
def pendingIn (sel : ℕ → Bool) (p : Obj) : List (NSAutoreleasePool Obj) → ℕ
  | [] => 0
  | pool :: owner => entriesIn sel p pool.address pool.storage + pendingIn sel p owner

/-- The entries for an object that a frame has detached from one of the selected pools
and not released yet. -/
def Frame.pending (sel : ℕ → Bool) (p : Obj) : Frame Obj → ℕ
  | .releaseAndFree pool objects q =>
    if sel pool then objects.count (some p) + q.slots.count (some p) else 0
  | _ => 0

/-- The pending entries for an object in the selected pools. -/
def State.pending (sel : ℕ → Bool) (p : Obj) (s : State Obj) : ℕ :=
  pendingIn sel p s.config.pools + (s.frames.map (Frame.pending sel p)).sum

section Pages

/-- Changing the storage of one pool changes the entries of this pool. -/
theorem pendingIn_modifyStorage (sel : ℕ → Bool) (p : Obj) (f : Storage Obj → Storage Obj)
    {pools : List (NSAutoreleasePool Obj)} {pool : ℕ} (hmem : pool ∈ addresses pools) :
    pendingIn sel p (modifyStorage pool f pools) + entriesIn sel p pool (storageOf pool pools) =
      pendingIn sel p pools + entriesIn sel p pool (f (storageOf pool pools)) := by
  induction pools with
  | nil => cases hmem
  | cons q owner ih =>
    rw [modifyStorage, storageOf]
    by_cases hq : q.address = pool
    · simp only [hq, if_true, pendingIn]
      omega
    · have hmem := (List.mem_cons.mp hmem).resolve_left (Ne.symm hq)
      have := ih hmem
      simp only [hq, if_false, pendingIn]
      omega

/-- Clearing a slot of a page removes its entry. -/
theorem count_objects_clear {array : PointerArray Obj} {q : ℕ} {obj : Obj}
    (hslot : array.objects[q]? = some (some obj)) (p : Obj) :
    (array.clear q).objects.count (some p) + (if obj = p then 1 else 0) =
      array.objects.count (some p) := by
  obtain ⟨hq, hget⟩ := List.getElem?_eq_some_iff.mp hslot
  have hcount := List.count_set (b := some p) (a := none) hq
  have hpos : obj = p → 0 < array.objects.count (some p) := by
    rintro rfl
    exact List.count_pos_iff.mpr (hget ▸ List.getElem_mem hq)
  simp only [hget, beq_iff_eq, Option.some.injEq, reduceCtorEq, if_false] at hcount
  rw [PointerArray.objects_clear]
  by_cases hobj : obj = p
  · have := hpos hobj
    simp only [hobj, if_true] at hcount ⊢
    omega
  · simp only [hobj, if_false] at hcount ⊢
    omega

/-- Clearing a slot of a chain removes its entry. -/
theorem count_slots_clearAt {storage : Storage Obj} {below q : ℕ} {array : PointerArray Obj}
    (hpage : storage.pageAt below = some array) {obj : Obj}
    (hslot : array.objects[q]? = some (some obj)) (p : Obj) :
    (storage.clearAt below q).slots.count (some p) + (if obj = p then 1 else 0) =
      storage.slots.count (some p) := by
  induction storage with
  | nil => cases hpage
  | cons top previous ih =>
    rw [Storage.pageAt] at hpage
    rw [Storage.clearAt]
    split at hpage
    case isTrue hbelow =>
      obtain rfl := Option.some.inj hpage
      rw [if_pos hbelow, Storage.slots, Storage.slots, List.count_append, List.count_append,
        Nat.add_assoc, count_objects_clear hslot]
    case isFalse hbelow =>
      rw [if_neg hbelow, Storage.slots, Storage.slots, List.count_append, List.count_append]
      have := ih hpage
      omega

end Pages

variable {sel : ℕ → Bool} {p : Obj}

theorem pending_releaseEntry (s : State Obj) (opfer : Obj) (dealloc : Bool)
    (frames : List (Frame Obj)) :
    (s.releaseEntry opfer dealloc frames).pending sel p =
      pendingIn sel p s.config.pools + (frames.map (Frame.pending sel p)).sum := by
  cases dealloc <;> simp [State.pending, State.releaseEntry, Frame.pending]

theorem countP_isAdded_map (pool : ℕ) (ps : List Obj) :
    (ps.map (Event.added pool)).countP (Event.isAdded sel p) =
      if sel pool then (ps.map some).count (some p) else 0 := by
  induction ps with
  | nil => simp
  | cons q ps ih =>
    simp only [List.map_cons, List.countP_cons, ih, Event.isAdded, List.count_cons]
    by_cases hq : q = p <;> by_cases hsel : sel pool = true <;> simp [hq, hsel]

theorem countP_isReleased_map (pool : ℕ) (ps : List Obj) :
    (ps.map (Event.added pool)).countP (Event.isReleased sel p) = 0 := by
  rw [List.countP_eq_zero]
  intro e he
  obtain ⟨q, -, rfl⟩ := List.mem_map.mp he
  exact Bool.false_ne_true

/-- The current pool holds nothing when its loop ends, so nothing is lost with it. -/
theorem pendingIn_after {pools : List (NSAutoreleasePool Obj)} {pool : ℕ}
    (hhead : (addresses pools).head? = some pool) (hstorage : storageOf pool pools = []) :
    pendingIn sel p (after NSAutoreleasePool.address pool pools) = pendingIn sel p pools := by
  obtain ⟨q, owner, rfl, hq, hof⟩ := storageOf_head hhead
  rw [after, if_pos hq, pendingIn, ← hof, hstorage]
  simp [entriesIn, Storage.slots]

/-- Every change adds to the pending entries what it reports. -/
theorem Change.balance {s s' : State Obj} {es : List (Event Obj)} (h : Change s es s')
    (hs : s.Sound) :
    es.countP (Event.isAdded sel p) + s.pending sel p =
      es.countP (Event.isReleased sel p) + s'.pending sel p := by
  have hdisc := hs.disciplined
  cases h with
  | push =>
    simp [State.pending, pendingIn, entriesIn, Event.isAdded, Event.isReleased, Storage.slots]
  | @add _ _ pool owner hpools storage ps hslots map =>
    rw [countP_isAdded_map, countP_isReleased_map]
    simp only [State.pending, hpools, pendingIn, entriesIn, hslots, List.count_append]
    split <;> omega
  | idle => rfl
  | pop => simp [State.pending, Frame.pending]
  | releaseAllPoolObjects hframes => simp [State.pending, hframes, Frame.pending]
  | @releasePoolObjects fs rest hframes hfs =>
    have hzero : (fs.map (Frame.pending sel p)).sum = 0 := by
      rw [List.sum_eq_zero_iff_forall_eq_nat]
      intro n hn
      obtain ⟨frame, hframe, rfl⟩ := List.mem_map.mp hn
      obtain ⟨ps, owners, pool, below, q, rfl⟩ := hfs frame hframe
      rfl
    obtain ⟨hframes, rfl⟩ | ⟨frame, ⟨ps, owners, pool, below, q, rfl⟩, hframes⟩ := hframes <;>
      simp [State.pending, hframes, hzero, Frame.pending]
  | leave hframes => simp [State.pending, hframes, Frame.pending]
  | @detach pool popTo rest hframes array previous hstorage =>
    have hmem := mem_addresses_of_storageOf_ne_nil (hstorage ▸ List.cons_ne_nil array previous)
    have hmove := pendingIn_modifyStorage sel p (fun _ => []) hmem
    simp only [hstorage, entriesIn, Storage.slots, List.count_nil, List.count_append] at hmove
    simp only [State.pending, hframes, List.map_cons, List.sum_cons, Frame.pending,
      List.count_reverse, List.countP_nil]
    by_cases hsel : sel pool = true
    · rw [if_pos hsel, if_pos hsel] at hmove
      rw [if_pos hsel]
      omega
    · rw [if_neg hsel, if_neg hsel] at hmove
      rw [if_neg hsel]
      omega
  | emptied hframes => simp [State.pending, hframes, Frame.pending]
  | popLast hframes hstorage =>
    rw [hframes] at hdisc
    simp [State.pending, hframes, Frame.pending, Event.isAdded, Event.isReleased,
      pendingIn_after hdisc.1 hstorage]
  | popNext _ hframes hstorage hafter =>
    rw [hframes] at hdisc
    simp [State.pending, hframes, Frame.pending, Event.isAdded, Event.isReleased,
      ← hafter, pendingIn_after hdisc.1 hstorage]
  | @release pool opfer objects q rest hframes dealloc =>
    rw [pending_releaseEntry]
    simp only [State.pending, hframes, List.map_cons, List.sum_cons, Frame.pending,
      List.countP_singleton, Event.isAdded, Event.isReleased, List.count_cons]
    by_cases hopfer : opfer = p <;> by_cases hsel : sel pool = true <;> simp [hopfer, hsel]
    omega
  | @advance pool objects objects' q q' rest hframes hcount =>
    simp only [State.pending, hframes, List.map_cons, List.sum_cons, Frame.pending, hcount]
    rfl
  | freed hframes => simp [State.pending, hframes, Frame.pending, Storage.slots]
  | @remove ps owners pool below q rest hframes array hpage obj hslot dealloc =>
    rw [pending_releaseEntry]
    have hmem : pool ∈ addresses s.config.pools := by
      refine mem_addresses_of_storageOf_ne_nil fun hnil => ?_
      rw [hnil] at hpage
      cases hpage
    have hmove := pendingIn_modifyStorage sel p (·.clearAt below q) hmem
    have hclear := count_slots_clearAt hpage hslot p
    simp only [entriesIn] at hmove
    simp only [State.pending, hframes, List.map_cons, List.sum_cons, Frame.pending,
      List.countP_singleton, Event.isAdded, Event.isReleased]
    by_cases hobj : obj = p <;> by_cases hsel : sel pool = true <;>
      simp [hobj, hsel] at hmove hclear ⊢ <;> omega

/-- Frames only hold entries of pools that exist. -/
theorem sum_pending_eq_zero {frames : List (Frame Obj)} {ids : List ℕ}
    (hdisc : Disciplined frames ids) (hsel : ∀ a ∈ ids, sel a = false) :
    (frames.map (Frame.pending sel p)).sum = 0 := by
  induction frames generalizing ids with
  | nil => rfl
  | cons frame rest ih =>
    rw [List.map_cons, List.sum_cons]
    cases frame with
    | dealloc floor =>
      rw [ih hdisc.2 fun a ha => hsel a (List.mem_of_mem_drop ha)]
      rfl
    | releaseAll pool popTo =>
      cases popTo with
      | none =>
        rw [ih hdisc.2 hsel]
        rfl
      | some aPool =>
        rw [ih hdisc.2.2 fun a ha => hsel a ((after_suffix id aPool ids).subset ha)]
        rfl
    | releaseAndFree pool objects q =>
      rw [ih hdisc.2 hsel, Frame.pending, hsel pool hdisc.1]
      rfl
    | releaseObjects ps owners pool below q =>
      rw [ih hdisc hsel]
      rfl

/-- Nothing is pending in pools that do not exist. -/
theorem pending_eq_zero {s : State Obj} (hs : s.Sound)
    (hsel : ∀ a ∈ addresses s.config.pools, sel a = false) : s.pending sel p = 0 := by
  rw [State.pending, sum_pending_eq_zero hs.disciplined hsel, Nat.add_zero]
  generalize s.config.pools = pools at hsel
  induction pools with
  | nil => rfl
  | cons pool owner ih =>
    rw [pendingIn, ih fun a ha => hsel a (List.mem_cons_of_mem _ ha), entriesIn,
      hsel pool.address List.mem_cons_self]
    rfl

end MulleObjC.Pool
