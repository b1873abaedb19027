import MulleObjC.Pool.Scan

/-!
# Explicit removal is complete but for detached pages

`+mulleReleasePoolObjects:count:` goes through the pages of all pools. Releases that it makes
run `-dealloc`s, which may change every pool. When it returns, the entries for its objects that
were in a page of a pool are gone. A page that a pop or an emptying has taken from its pool is
never looked at.
-/

namespace MulleObjC.Pool

open Machine

variable {Obj : Type*}

section Storages

theorem storageOf_eq_nil {a : ℕ} {pools : List (NSAutoreleasePool Obj)}
    (h : a ∉ addresses pools) : storageOf a pools = [] := by
  by_contra hne
  exact h (mem_addresses_of_storageOf_ne_nil hne)

theorem storageOf_modifyStorage (a pool : ℕ) (f : Storage Obj → Storage Obj)
    (pools : List (NSAutoreleasePool Obj)) :
    storageOf a (modifyStorage pool f pools) = storageOf a pools ∨
      a = pool ∧ storageOf a (modifyStorage pool f pools) = f (storageOf pool pools) := by
  induction pools with
  | nil => exact .inl rfl
  | cons p owner ih =>
    rw [modifyStorage, storageOf, storageOf]
    by_cases hp : p.address = pool
    · rw [if_pos hp, if_pos hp, storageOf]
      by_cases ha : p.address = a
      · exact .inr ⟨ha.symm.trans hp, if_pos ha⟩
      · exact .inl (by rw [if_neg ha, if_neg ha])
    · rw [if_neg hp, if_neg hp, storageOf]
      by_cases ha : p.address = a
      · exact .inl (by rw [if_pos ha, if_pos ha])
      · rw [if_neg ha, if_neg ha]
        exact ih

theorem storageOf_modifyStorage_self {pool : ℕ} (f : Storage Obj → Storage Obj)
    {pools : List (NSAutoreleasePool Obj)} (hmem : pool ∈ addresses pools) :
    storageOf pool (modifyStorage pool f pools) = f (storageOf pool pools) := by
  induction pools with
  | nil => cases hmem
  | cons p owner ih =>
    rw [modifyStorage, storageOf]
    by_cases hp : p.address = pool
    · rw [if_pos hp, if_pos hp, storageOf]
      exact if_pos hp
    · rw [if_neg hp, if_neg hp, storageOf, if_neg hp]
      exact ih ((List.mem_cons.mp hmem).resolve_left (Ne.symm hp))

theorem storageOf_after (a pool : ℕ) {pools : List (NSAutoreleasePool Obj)}
    (hnodup : (addresses pools).Nodup) :
    storageOf a (after NSAutoreleasePool.address pool pools) = storageOf a pools ∨
      storageOf a (after NSAutoreleasePool.address pool pools) = [] := by
  induction pools with
  | nil => exact .inl rfl
  | cons p owner ih =>
    obtain ⟨hp, hnodup⟩ := List.nodup_cons.mp hnodup
    have hhead : p.address = a → storageOf a owner = [] := by
      rintro rfl
      exact storageOf_eq_nil hp
    rw [after]
    split
    · rw [storageOf]
      split
      · rename_i ha
        exact .inr (hhead ha)
      · exact .inl rfl
    · rw [storageOf]
      split
      · rename_i ha
        rcases ih hnodup with h | h
        · exact .inr (h.trans (hhead ha))
        · exact .inr h
      · exact ih hnodup

/-- A pool of the stack, with the pools behind it. -/
theorem storageOf_of_suffix {pool : NSAutoreleasePool Obj}
    {owner pools : List (NSAutoreleasePool Obj)} (hsuffix : pool :: owner <:+ pools)
    (hnodup : (addresses pools).Nodup) :
    storageOf pool.address pools = pool.storage ∧
      after NSAutoreleasePool.address pool.address pools = owner := by
  obtain ⟨front, rfl⟩ := hsuffix
  induction front with
  | nil =>
    rw [List.nil_append, storageOf, after]
    exact ⟨if_pos rfl, if_pos rfl⟩
  | cons p front ih =>
    obtain ⟨hp, hnodup⟩ := List.nodup_cons.mp hnodup
    have hne : p.address ≠ pool.address := by
      intro heq
      exact hp (by rw [heq]; exact List.mem_map_of_mem (by simp))
    rw [List.cons_append, storageOf, after, if_neg hne, if_neg hne]
    exact ih hnodup

end Storages

variable [DecidableEq Obj]

/-- At most `n` entries for an object are left above the place of a removal, or altogether. -/
def Storage.Passed (storage : Storage Obj) (below q n : ℕ) (p : Obj) : Prop :=
  storage.slots.count (some p) ≤ n ∨
    storage.Reaches below q ∧ (storage.above below q).count (some p) ≤ n

/-- What can happen to the storage of a pool, with the objects that are added to it. -/
inductive Storage.Evolves (storage : Storage Obj) : List Obj → Storage Obj → Prop
  | same : Evolves storage [] storage
  | taken {storage' : Storage Obj} (hslots : storage'.slots = []) : Evolves storage [] storage'
  | addObject (p : Obj) : Evolves storage [p] (storage.addObject p)
  | addObjects (objects : ℕ → Obj) (count step : ℕ) :
    Evolves storage (spaced objects count step) (storage.addObjects objects count step)
  | clearAt (below q : ℕ) : Evolves storage [] (storage.clearAt below q)

theorem count_map_some (ps : List Obj) (p : Obj) : (ps.map some).count (some p) = ps.count p :=
  List.count_map_of_injective _ _ (Option.some_injective Obj) _

/-- Entries come from additions. -/
theorem Storage.Evolves.count_le {storage storage' : Storage Obj} {ps : List Obj}
    (h : storage.Evolves ps storage') {n : ℕ} {p : Obj}
    (hcount : storage.slots.count (some p) ≤ n) :
    storage'.slots.count (some p) ≤ n + ps.count p := by
  cases h with
  | same => exact hcount
  | taken hslots =>
    rw [hslots]
    exact Nat.zero_le _
  | addObject p =>
    rw [slots_addObject, List.count_append, ← count_map_some]
    exact Nat.add_le_add_right hcount _
  | addObjects objects count step =>
    rw [slots_addObjects, List.count_append, count_map_some]
    exact Nat.add_le_add_right hcount _
  | clearAt below q => exact (count_slots_clearAt_le storage below q p).trans hcount

/-- What has been passed stays passed but for additions. -/
theorem Storage.Evolves.passed {storage storage' : Storage Obj} {ps : List Obj}
    (h : storage.Evolves ps storage') {below q n : ℕ} {p : Obj}
    (hpassed : storage.Passed below q n p) : storage'.Passed below q (n + ps.count p) p := by
  rcases hpassed with hcount | ⟨hreaches, hcount⟩
  · exact .inl (h.count_le hcount)
  cases h with
  | same => exact .inr ⟨hreaches, hcount⟩
  | taken hslots =>
    left
    rw [hslots]
    exact Nat.zero_le _
  | addObject p =>
    obtain ⟨hreaches', habove⟩ := above_addObject hreaches p
    refine .inr ⟨hreaches', ?_⟩
    rw [habove, List.count_append, ← count_map_some]
    exact Nat.add_le_add_right hcount _
  | addObjects objects count step =>
    obtain ⟨hreaches', habove⟩ := above_addObjects hreaches objects count step
    refine .inr ⟨hreaches', ?_⟩
    rw [habove, List.count_append, count_map_some]
    exact Nat.add_le_add_right hcount _
  | clearAt below' q' =>
    exact .inr ⟨hreaches.clearAt below' q',
      (count_above_clearAt_le storage below q below' q' p).trans hcount⟩

/-- A slot that is cleared has been passed. -/
theorem Storage.Passed.clearAt {storage : Storage Obj} {below q n : ℕ} {p : Obj}
    (h : storage.Passed below (q + 1) n p) {array : PointerArray Obj}
    (hpage : storage.pageAt below = some array) :
    (storage.clearAt below q).Passed below q n p := by
  rcases h with hcount | ⟨hreaches, hcount⟩
  · exact .inl ((count_slots_clearAt_le storage below q p).trans hcount)
  · have hcleared := hreaches.clearAt below q
    obtain ⟨slot, hslot, habove⟩ := above_eq_cons hcleared
    rw [pageAt_clearAt hpage, if_pos rfl, Option.bind_some, PointerArray.objects_clear] at hslot
    have hnone : slot = none := by
      have hlt := (List.getElem?_eq_some_iff.mp hslot).1
      rw [List.length_set] at hlt
      rw [List.getElem?_set_self hlt] at hslot
      exact (Option.some.inj hslot).symm
    refine .inr ⟨hcleared.mono (Nat.le_succ q), ?_⟩
    rw [habove, hnone, List.count_cons_of_ne (by simp)]
    exact (count_above_clearAt_le storage below (q + 1) below q p).trans hcount

variable {isConstant : Obj → Bool}

/-- What a step does to the storage of a pool. -/
theorem Reconfigures.evolves {act : Act Obj} {es : List (Event Obj)}
    {config config' : PoolConfiguration Obj} (h : Reconfigures isConstant config act es config')
    (hnodup : (addresses config.pools).Nodup) (a : ℕ) :
    ∃ ps, (storageOf a config.pools).Evolves ps (storageOf a config'.pools) ∧
      ∀ p, ps.count p ≤ es.count (.added a p) := by
  have hnothing : ∀ p : Obj, ([] : List Obj).count p ≤ es.count (.added a p) :=
    fun p => Nat.zero_le _
  have hadded : ∀ ps : List Obj, es = ps.map (Event.added a) →
      ∀ p, ps.count p ≤ es.count (.added a p) := by
    rintro ps rfl p
    exact (List.count_map_of_injective _ _ (fun _ _ h => (Event.added.inj h).2) _).ge
  cases h with
  | same => exact ⟨[], .same, hnothing⟩
  | push pool =>
    refine ⟨[], ?_, hnothing⟩
    rw [storageOf]
    split
    · exact .taken rfl
    · exact .same
  | @add pool owner hpools p hp =>
    rw [hpools, PoolConfiguration.autoreleaseObject, hp, hpools]
    simp only [Bool.false_eq_true, if_false, storageOf]
    split
    · rename_i ha
      exact ⟨[p], .addObject p, hadded [p] (by rw [← ha]; rfl)⟩
    · exact ⟨[], .same, hnothing⟩
  | @addObjects pool owner hpools objects count step =>
    rw [hpools]
    cases objects with
    | none =>
      rw [PoolConfiguration.autoreleaseObjects, hpools]
      exact ⟨[], .same, hnothing⟩
    | some objects =>
      by_cases hcount : count = 0
      · rw [PoolConfiguration.autoreleaseObjects, if_pos hcount, hpools]
        exact ⟨[], .same, hnothing⟩
      · rw [PoolConfiguration.autoreleaseObjects, if_neg hcount, hpools]
        simp only [storageOf]
        split
        · rename_i ha
          exact ⟨_, .addObjects objects count step, hadded _ (by rw [← ha]; rfl)⟩
        · exact ⟨[], .same, hnothing⟩
  | detach _ pool =>
    refine ⟨[], ?_, hnothing⟩
    rcases storageOf_modifyStorage a pool (fun _ => []) config.pools with h | ⟨-, h⟩
    · rw [h]
      exact .same
    · rw [h]
      exact .taken rfl
  | pop _ pool =>
    refine ⟨[], ?_, hnothing⟩
    rcases storageOf_after a pool hnodup with h | h
    · rw [h]
      exact .same
    · rw [h]
      exact .taken rfl
  | release => exact ⟨[], .same, hnothing⟩
  | @remove _ pool below q array hpage obj hslot =>
    refine ⟨[], ?_, hnothing⟩
    rcases storageOf_modifyStorage a pool (·.clearAt below q) config.pools with h | ⟨rfl, h⟩
    · rw [h]
      exact .same
    · rw [h]
      exact .clearAt below q

/-- A removal of `ps` from all pools that was called in `s` is at its place or has returned. In
the pools it has passed, only entries that were added since are left for its objects. -/
inductive Removing (s : State Obj) (ps : List Obj) (es : List (Event Obj)) (t : State Obj) : Prop
  | returned (hframes : t.frames = s.frames)
      (hpassed : ∀ p ∈ ps, ∀ a,
        (storageOf a t.config.pools).slots.count (some p) ≤ es.count (.added a p))
  | scanning {inner : List (Frame Obj)} {pool below q : ℕ}
      (hframes : t.frames = inner ++ .releaseObjects ps true pool below q :: s.frames)
      (hids : restored inner (addresses t.config.pools) = addresses s.config.pools)
      (hfront : ∀ p ∈ ps, ∀ a, a ≠ pool → a ∉ after id pool (addresses s.config.pools) →
        (storageOf a t.config.pools).slots.count (some p) ≤ es.count (.added a p))
      (hplace : ∀ p ∈ ps,
        (storageOf pool t.config.pools).Passed below q (es.count (.added pool p)) p)

variable {s t t' : State Obj} {ps : List Obj} {es fs : List (Event Obj)}

/-- The removal goes on in the thread itself. -/
theorem Removing.scan {pool below q : ℕ}
    (hframes : t.frames = .releaseObjects ps true pool below q :: s.frames)
    (hids : addresses t.config.pools = addresses s.config.pools)
    (hfront : ∀ p ∈ ps, ∀ a, a ≠ pool → a ∉ after id pool (addresses s.config.pools) →
      (storageOf a t.config.pools).slots.count (some p) ≤ es.count (.added a p))
    (hplace : ∀ p ∈ ps,
      (storageOf pool t.config.pools).Passed below q (es.count (.added pool p)) p) :
    Removing s ps es t :=
  .scanning (show _ = [] ++ _ from hframes) hids hfront hplace

/-- The removal goes on to the pools `rest`. -/
theorem removing_next (hnodup : (addresses t.config.pools).Nodup)
    (hids : addresses t.config.pools = addresses s.config.pools)
    {rest : List (NSAutoreleasePool Obj)} (hrest : rest <:+ t.config.pools)
    (hframes : t.frames = releaseObjectsFrame ps true rest ++ s.frames)
    (hfront : ∀ p ∈ ps, ∀ a, a ∉ addresses rest →
      (storageOf a t.config.pools).slots.count (some p) ≤ es.count (.added a p)) :
    Removing s ps es t := by
  induction rest with
  | nil => exact .returned hframes fun p hp a => hfront p hp a List.not_mem_nil
  | cons pool owner ih =>
    obtain ⟨hstorage, hafter⟩ := storageOf_of_suffix hrest hnodup
    rw [releaseObjectsFrame] at hframes
    cases hpages : pool.storage with
    | nil =>
      rw [hpages] at hframes
      refine ih ((List.suffix_cons _ _).trans hrest) hframes fun p hp a ha => ?_
      by_cases hhead : a = pool.address
      · rw [hhead, hstorage, hpages]
        exact Nat.zero_le _
      · exact hfront p hp a fun hmem => ha ((List.mem_cons.mp hmem).resolve_left hhead)
    | cons array previous =>
      rw [hpages] at hframes hstorage
      refine .scan hframes hids (fun p hp a hne hnot => ?_) fun p hp => ?_
      · rw [← hids, ← addresses_after, hafter] at hnot
        refine hfront p hp a fun hmem => ?_
        rcases List.mem_cons.mp hmem with h | h
        · exact hne h
        · exact hnot h
      · refine .inr ?_
        rw [hstorage, Storage.above_top]
        exact ⟨Storage.reaches_top array previous, Nat.zero_le _⟩

/-- The removal goes on, alone or under the `-dealloc` of what it has released. -/
theorem removing_releaseEntry {pool below q : ℕ} (obj : Obj) (dealloc : Bool)
    (hids : addresses t.config.pools = addresses s.config.pools)
    (hfront : ∀ p ∈ ps, ∀ a, a ≠ pool → a ∉ after id pool (addresses s.config.pools) →
      (storageOf a t.config.pools).slots.count (some p) ≤ es.count (.added a p))
    (hplace : ∀ p ∈ ps,
      (storageOf pool t.config.pools).Passed below q (es.count (.added pool p)) p) :
    Removing s ps es
      (t.releaseEntry obj dealloc (.releaseObjects ps true pool below q :: s.frames)) := by
  cases dealloc with
  | false => exact .scan rfl hids hfront hplace
  | true =>
    refine .scanning (show _ = [.dealloc t.config.pools.length] ++ _ from rfl) ?_ hfront hplace
    simpa [restored, State.releaseEntry, length_addresses] using hids

/-- The removal itself makes a step. -/
theorem removing_runFrame (hs : t.Sound) {pool below q : ℕ}
    (hids : addresses t.config.pools = addresses s.config.pools)
    (hfront : ∀ p ∈ ps, ∀ a, a ≠ pool → a ∉ after id pool (addresses s.config.pools) →
      (storageOf a t.config.pools).slots.count (some p) ≤ es.count (.added a p))
    (hplace : ∀ p ∈ ps,
      (storageOf pool t.config.pools).Passed below q (es.count (.added pool p)) p)
    {dealloc : Bool} (h : t.runFrame dealloc s.frames (.releaseObjects ps true pool below q) =
      some (fs, t')) :
    Removing s ps (es ++ fs) t' ∧ ∀ e ∈ fs, ∃ a, ∃ p ∈ ps, e = .released a p := by
  cases q with
  | zero =>
    have hdone : ∀ p ∈ ps, ((storageOf pool t.config.pools).above below 0).count (some p) ≤
        es.count (.added pool p) ∨ (storageOf pool t.config.pools).slots.count (some p) ≤
        es.count (.added pool p) := by
      intro p hp
      rcases hplace p hp with hcount | ⟨-, hcount⟩
      · exact .inr hcount
      · exact .inl hcount
    cases below with
    | zero =>
      obtain ⟨rfl, rfl⟩ := Prod.mk.inj (Option.some.inj h)
      rw [List.append_nil]
      refine ⟨removing_next hs.nodup hids (after_suffix _ pool _) rfl fun p hp a hnot => ?_,
        List.forall_mem_nil _⟩
      by_cases ha : a = pool
      · subst ha
        rcases hdone p hp with hcount | hcount
        · rwa [Storage.above_zero] at hcount
        · exact hcount
      · rw [addresses_after, hids] at hnot
        exact hfront p hp a ha hnot
    | succ below =>
      obtain ⟨rfl, rfl⟩ := Prod.mk.inj (Option.some.inj h)
      rw [List.append_nil]
      refine ⟨.scan rfl hids hfront fun p hp => ?_, List.forall_mem_nil _⟩
      rcases hplace p hp with hcount | ⟨hreaches, hcount⟩
      · exact .inl hcount
      · obtain ⟨array, hpage, habove⟩ := Storage.above_next hreaches
        refine .inr ?_
        dsimp only
        rw [hpage, Option.elim_some, habove]
        exact ⟨⟨array, hpage, le_rfl⟩, hcount⟩
  | succ q =>
    -- a slot that holds no object of the removal has been passed
    have hskip : ∀ {slot},
        ((storageOf pool t.config.pools).pageAt below).bind (·.objects[q]?) = slot →
        (∀ p ∈ ps, slot ≠ some (some p)) → ∀ p ∈ ps,
        (storageOf pool t.config.pools).Passed below q (es.count (.added pool p)) p := by
      intro slot hslot hother p hp
      rcases hplace p hp with hcount | ⟨hreaches, hcount⟩
      · exact .inl hcount
      · obtain ⟨slot', hslot', habove⟩ := Storage.above_eq_cons hreaches
        have hne : slot' ≠ some p := by
          rintro rfl
          exact hother p hp (hslot.symm.trans hslot')
        refine .inr ⟨hreaches.mono (Nat.le_succ q), ?_⟩
        rw [habove, List.count_cons_of_ne hne]
        exact hcount
    rw [State.runFrame] at h
    split at h
    · rename_i obj hobj
      dsimp only at h
      split at h
      · rename_i hmem
        obtain ⟨rfl, rfl⟩ := Prod.mk.inj (Option.some.inj h)
        obtain ⟨array, hpage, hslot⟩ := Option.bind_eq_some_iff.mp hobj
        have hcounts : ∀ a p, (es ++ [Event.released pool obj]).count (.added a p) =
            es.count (.added a p) := by
          intro a p
          rw [List.count_append]
          rfl
        have hpool : pool ∈ addresses t.config.pools := by
          refine mem_addresses_of_storageOf_ne_nil fun hnil => ?_
          rw [hnil] at hpage
          cases hpage
        refine ⟨removing_releaseEntry obj dealloc (by rw [addresses_modifyStorage]; exact hids)
          (fun p hp a hne hnot => ?_) fun p hp => ?_,
          List.forall_mem_singleton.mpr ⟨pool, obj, hmem, rfl⟩⟩
        · rw [hcounts]
          rcases storageOf_modifyStorage a pool (·.clearAt below q) t.config.pools with
            hsame | ⟨ha, -⟩
          · dsimp only
            rw [hsame]
            exact hfront p hp a hne hnot
          · exact absurd ha hne
        · rw [hcounts]
          dsimp only
          rw [storageOf_modifyStorage_self _ hpool]
          exact (hplace p hp).clearAt hpage
      · rename_i hmem
        obtain ⟨rfl, rfl⟩ := Prod.mk.inj (Option.some.inj h)
        rw [List.append_nil]
        refine ⟨.scan rfl hids hfront (hskip hobj ?_), List.forall_mem_nil _⟩
        rintro p hp heq
        obtain rfl := Option.some.inj (Option.some.inj heq)
        exact hmem hp
    · rename_i hnone
      obtain ⟨rfl, rfl⟩ := Prod.mk.inj (Option.some.inj h)
      rw [List.append_nil]
      exact ⟨.scan rfl hids hfront (hskip rfl fun p hp heq => hnone p heq),
        List.forall_mem_nil _⟩

/-- A step keeps a removal at its place or ends it. What the removal itself reports is the
release of its objects. -/
theorem Removing.step (h : Removing s ps es t) (hs : t.Sound) (hrunning : t.frames ≠ s.frames)
    {act : Act Obj} (hstep : t.stepNested isConstant act = some (fs, t')) :
    Removing s ps (es ++ fs) t' ∧
      (t.frames.length = s.frames.length + 1 → ∀ e ∈ fs, ∃ a, ∃ p ∈ ps, e = .released a p) := by
  cases h with
  | returned hframes => exact absurd hframes hrunning
  | @scanning inner pool below q hframes hids hfront hplace =>
    cases inner with
    | nil =>
      cases act with
      | run dealloc =>
        rw [List.nil_append] at hframes
        simp only [State.stepNested, State.step, hframes] at hstep
        obtain ⟨hremoving, hevents⟩ := removing_runFrame hs hids hfront hplace hstep
        exact ⟨hremoving, fun _ => hevents⟩
      | _ => simp [State.stepNested, State.step, hframes] at hstep
    | cons f inner =>
      have habove : t.Above (.releaseObjects ps true pool below q :: s.frames)
          (addresses s.config.pools) := ⟨f :: inner, hframes, hids⟩
      have hinside : t.frames ≠ .releaseObjects ps true pool below q :: s.frames := by
        intro heq
        have hlength := congrArg List.length (heq.symm.trans hframes)
        simp only [List.length_append, List.length_cons] at hlength
        omega
      obtain ⟨inner', hframes', hids'⟩ := above_stepNested hstep hs habove hinside
      constructor
      · refine .scanning hframes' hids' (fun p hp a hne hnot => ?_) fun p hp => ?_
        · obtain ⟨added, hevolves, hadded⟩ :=
            (reconfigures_stepNested hstep).evolves hs.nodup a
          rw [List.count_append]
          exact (hevolves.count_le (hfront p hp a hne hnot)).trans
            (Nat.add_le_add_left (hadded p) _)
        · obtain ⟨added, hevolves, hadded⟩ :=
            (reconfigures_stepNested hstep).evolves hs.nodup pool
          have hle := hadded p
          rw [List.count_append]
          rcases hevolves.passed (hplace p hp) with hcount | ⟨hreaches, hcount⟩
          · exact .inl (by omega)
          · exact .inr ⟨hreaches, by omega⟩
      · intro hlength
        rw [hframes, List.length_append, List.length_cons, List.length_cons] at hlength
        omega

/-- One step, with the number of functions that had not returned before it next to what it
reports. -/
def State.stepAtDepth (isConstant : Obj → Bool) :
    State Obj → Act Obj → Option (List (ℕ × Event Obj) × State Obj) :=
  labelled (fun s => s.frames.length) (State.stepNested isConstant)

/-- A removal of `ps` from all pools, called in `s`, has done its work in `s'`. -/
structure Removed (s s' : State Obj) (ps : List Obj) (es : List (ℕ × Event Obj)) : Prop where
  /-- What is pending for its objects was added during the call. -/
  gone : ∀ p ∈ ps, ∀ pool,
    s'.pending (fun a => a == pool) p ≤ (es.map Prod.snd).count (.added pool p)
  /-- All other entries have been released, once each. -/
  balance : ∀ p pool,
    (es.map Prod.snd).count (.added pool p) + s.pending (fun a => a == pool) p =
      (es.map Prod.snd).count (.released pool p) + s'.pending (fun a => a == pool) p
  /-- Other objects are added and released by the `-dealloc`s only that ran in the call. -/
  others : ∀ p, p ∉ ps → ∀ pool, ∀ e ∈ es, e.2 = .added pool p ∨ e.2 = .released pool p →
    s.frames.length + 1 < e.1

omit [DecidableEq Obj] in
theorem addresses_nodup_of_cons {pool : NSAutoreleasePool Obj}
    {owner : List (NSAutoreleasePool Obj)} (h : (addresses (pool :: owner)).Nodup) :
    storageOf pool.address owner = [] ∧ (addresses owner).Nodup :=
  (List.nodup_cons.mp h).imp_left storageOf_eq_nil

/-- The entries of one pool of the stack. -/
theorem pendingIn_eq_count (pool : ℕ) (p : Obj) {pools : List (NSAutoreleasePool Obj)}
    (hnodup : (addresses pools).Nodup) :
    pendingIn (fun a => a == pool) p pools = (storageOf pool pools).slots.count (some p) := by
  induction pools with
  | nil => rfl
  | cons head owner ih =>
    obtain ⟨hnone, hnodup⟩ := addresses_nodup_of_cons hnodup
    rw [pendingIn, entriesIn, ih hnodup, storageOf]
    by_cases hhead : head.address = pool
    · subst hhead
      rw [hnone, if_pos (beq_self_eq_true _), if_pos rfl]
      rfl
    · rw [if_neg (by simpa using hhead), if_neg hhead, Nat.zero_add]

theorem countP_isAdded_eq_count (pool : ℕ) (p : Obj) (es : List (Event Obj)) :
    es.countP (Event.isAdded (fun a => a == pool) p) = es.count (.added pool p) := by
  refine List.countP_congr fun e _ => ?_
  cases e <;> simp [Event.isAdded]

theorem countP_isReleased_eq_count (pool : ℕ) (p : Obj) (es : List (Event Obj)) :
    es.countP (Event.isReleased (fun a => a == pool) p) = es.count (.released pool p) := by
  refine List.countP_congr fun e _ => ?_
  cases e <;> simp [Event.isReleased]

/-- What the frames of all pools hold, they hold of one pool or another. -/
theorem framesPending_eq_zero_iff (frames : List (Frame Obj)) (p : Obj) :
    (frames.map (Frame.pending (fun _ => true) p)).sum = 0 ↔
      ∀ pool, (frames.map (Frame.pending (fun a => a == pool) p)).sum = 0 := by
  have hframe : ∀ frame : Frame Obj, frame.pending (fun _ => true) p = 0 ↔
      ∀ pool, frame.pending (fun a => a == pool) p = 0 := by
    intro frame
    cases frame with
    | releaseAndFree pool objects q =>
      constructor
      · intro h a
        rw [Frame.pending, if_pos rfl] at h
        rw [Frame.pending, h, ite_self]
      · intro h
        have hpool := h pool
        rwa [Frame.pending, if_pos (beq_self_eq_true pool)] at hpool
    | _ => exact iff_of_true rfl fun _ => rfl
  simp only [List.sum_eq_zero_iff_forall_eq_nat, List.forall_mem_map, hframe]
  exact ⟨fun h pool frame hmem => h frame hmem pool, fun h frame hmem pool => h pool frame hmem⟩

/-- What holds while a removal of `ps` from all pools, called in `s`, is at work. -/
structure Calling (s : State Obj) (ps : List Obj) (es : List (ℕ × Event Obj)) (t : State Obj) :
    Prop where
  sound : t.Sound
  removing : Removing s ps (es.map Prod.snd) t
  balance : ∀ p pool,
    (es.map Prod.snd).count (.added pool p) + s.pending (fun a => a == pool) p =
      (es.map Prod.snd).count (.released pool p) + t.pending (fun a => a == pool) p
  own : ∀ e ∈ es, s.frames.length < e.1 ∧
    (e.1 = s.frames.length + 1 → ∃ a, ∃ p ∈ ps, e.2 = .released a p)

theorem Calling.step {es fs : List (ℕ × Event Obj)} (h : Calling s ps es t)
    (hrunning : t.frames ≠ s.frames) {act : Act Obj}
    (hstep : t.stepAtDepth isConstant act = some (fs, t')) : Calling s ps (es ++ fs) t' := by
  obtain ⟨gs, hnested, rfl⟩ := labelled_eq_some.mp hstep
  obtain ⟨hremoving, hevents⟩ := h.removing.step h.sound hrunning hnested
  have hsnd : (gs.map (Prod.mk t.frames.length)).map Prod.snd = gs := by
    rw [List.map_map]
    exact List.map_id gs
  have hlength : s.frames.length < t.frames.length := by
    cases h.removing with
    | returned hframes => exact absurd hframes hrunning
    | scanning hframes =>
      rw [hframes, List.length_append, List.length_cons]
      omega
  refine ⟨sound_stepNested hnested h.sound, ?_, fun p pool => ?_, fun e he => ?_⟩
  · rwa [List.map_append, hsnd]
  · have hbalance := balance_stepNested hnested h.sound (fun a => a == pool) p
    rw [countP_isAdded_eq_count, countP_isReleased_eq_count] at hbalance
    have := h.balance p pool
    rw [List.map_append, hsnd, List.count_append, List.count_append]
    omega
  · rcases List.mem_append.mp he with he | he
    · exact h.own e he
    · obtain ⟨g, hg, rfl⟩ := List.mem_map.mp he
      exact ⟨hlength, fun hdepth => hevents hdepth g hg⟩

/-- The call starts with the newest pool. -/
theorem calling_of_call (hs : s.Sound) {bs : List (Event Obj)}
    (hcall : s.stepNested isConstant (.releasePoolObjects ps true) = some (bs, t)) :
    Calling s ps [] t := by
  have hstart : t =
      { s with frames := releaseObjectsFrame ps true s.config.pools ++ s.frames } := by
    cases hframes : s.frames with
    | nil =>
      simp only [State.stepNested, State.step, hframes] at hcall
      obtain ⟨-, rfl⟩ := Prod.mk.inj (Option.some.inj hcall)
      rw [List.append_nil]
    | cons frame rest =>
      cases frame with
      | dealloc floor =>
        simp only [State.stepNested, hframes] at hcall
        exact (Prod.mk.inj (Option.some.inj hcall)).2.symm
      | _ => simp [State.stepNested, State.step, hframes] at hcall
  have hframes := isReleaseObjects_of_mem ps true s.config.pools
  subst hstart
  refine ⟨⟨(disciplined_append hframes).mpr hs.disciplined, hs.nodup, hs.lt_nextPool⟩,
    removing_next hs.nodup rfl List.suffix_rfl rfl fun p hp a hnot => ?_, fun p pool => ?_,
    List.forall_mem_nil _⟩
  · dsimp only
    rw [storageOf_eq_nil hnot]
    exact Nat.zero_le _
  · have hzero : ((releaseObjectsFrame ps true s.config.pools).map
        (Frame.pending (fun a => a == pool) p)).sum = 0 := by
      rw [List.sum_eq_zero_iff_forall_eq_nat, List.forall_mem_map]
      intro frame hframe
      obtain ⟨qs, owners, a, below, q, rfl⟩ := hframes frame hframe
      rfl
    simp [State.pending, hzero]

/-- When the call has returned, what is left of its objects in the pools was added since. -/
theorem Calling.pending_eq {es : List (ℕ × Event Obj)} (h : Calling s ps es t)
    (hreturned : t.frames = s.frames) (p : Obj) (pool : ℕ) :
    t.pending (fun a => a == pool) p = (storageOf pool t.config.pools).slots.count (some p) +
        (s.frames.map (Frame.pending (fun a => a == pool) p)).sum ∧
      (p ∈ ps → (storageOf pool t.config.pools).slots.count (some p) ≤
        (es.map Prod.snd).count (.added pool p)) := by
  constructor
  · rw [State.pending, pendingIn_eq_count pool p h.sound.nodup, hreturned]
  · intro hp
    cases h.removing with
    | returned _ hpassed => exact hpassed p hp pool
    | scanning hframes =>
      have hlength := congrArg List.length (hreturned.symm.trans hframes)
      rw [List.length_append, List.length_cons] at hlength
      omega

/-- In every state a run can reach, be it in the middle of a pop or of an emptying, a removal
from all pools, by the code of the thread or by a `-dealloc`, is complete when it returns, if no
running function has taken a page with an entry for one of its objects from its pool. If it is
complete without adding an entry for one of them, none of them had such an entry. -/
theorem releasePoolObjects_complete (isConstant : Obj → Bool) (hasMap : Bool)
    {s s₁ s₂ : State Obj} {as bs : List (Event Obj)} {es : List (ℕ × Event Obj)} {ps : List Obj}
    (hrun : Run (State.stepNested isConstant) (.init hasMap) as s)
    (hcall : s.stepNested isConstant (.releasePoolObjects ps true) = some (bs, s₁))
    (hcalled : RunWhile (State.stepAtDepth isConstant) (fun t _ => t.frames ≠ s.frames) s₁ es s₂)
    (hreturned : s₂.frames = s.frames) :
    ((∀ p ∈ ps, (s.frames.map (Frame.pending (fun _ => true) p)).sum = 0) →
      Removed s s₂ ps es) ∧
    (Removed s s₂ ps es → ∀ p ∈ ps, (∀ pool, (es.map Prod.snd).count (.added pool p) = 0) →
      (s.frames.map (Frame.pending (fun _ => true) p)).sum = 0) := by
  have hs : s.Sound :=
    hrun.invariant State.Sound (fun _ hs hstep => sound_stepNested hstep hs) (sound_init hasMap)
  have hcalling : Calling s ps es s₂ :=
    hcalled.invariant_trace (Calling s ps) (fun hrunning h hstep => h.step hrunning hstep)
      (calling_of_call hs hcall)
  constructor
  · intro hdetached
    refine ⟨fun p hp pool => ?_, hcalling.balance, fun p hp pool e he hevent => ?_⟩
    · obtain ⟨hpending, hpassed⟩ := hcalling.pending_eq hreturned p pool
      have hzero := (framesPending_eq_zero_iff s.frames p).mp (hdetached p hp) pool
      rw [hpending, hzero]
      exact hpassed hp
    · obtain ⟨hlt, hlisted⟩ := hcalling.own e he
      by_contra hle
      obtain ⟨a, q, hq, heq⟩ := hlisted (by omega)
      rcases hevent with h | h
      · cases h.symm.trans heq
      · obtain ⟨-, rfl⟩ := Event.released.inj (h.symm.trans heq)
        exact hp hq
  · intro hremoved p hp hnone
    refine (framesPending_eq_zero_iff s.frames p).mpr fun pool => ?_
    have hgone := hremoved.gone p hp pool
    rw [hnone pool, (hcalling.pending_eq hreturned p pool).1] at hgone
    omega

/-- A pop of the upper pool releases the object `7`. Its `-dealloc` removes the object `5` from
the lower pool. -/
theorem removed_in_dealloc : ∃ (s s' : State ℕ) (es : List (ℕ × Event ℕ)),
    s.pending (fun _ => true) 5 = 1 ∧ Removed s s' [5] es ∧
      s'.pending (fun _ => true) 5 = 0 := by
  have hrun : ∃ (s s₁ s₂ : State ℕ) (as : List (Event ℕ)) (es : List (ℕ × Event ℕ)),
      Run (State.stepNested fun _ => false) (.init true) as s ∧
      s.stepNested (fun _ => false) (.releasePoolObjects [5] true) = some ([], s₁) ∧
      RunWhile (State.stepAtDepth fun _ => false) (fun t _ => t.frames ≠ s.frames) s₁ es s₂ ∧
      s₂.frames = s.frames ∧ (s.frames.map (Frame.pending (fun _ => true) 5)).sum = 0 ∧
      s.pending (fun _ => true) 5 = 1 ∧ s₂.pending (fun _ => true) 5 = 0 := by
    refine ⟨_, _, _, _, _, (((((((RunWhile.refl _).tail .push trivial rfl).tail
      (.autorelease 5) trivial rfl).tail .push trivial rfl).tail (.autorelease 7) trivial rfl).tail
      (.pop 1) trivial rfl).tail (.run false) trivial rfl).tail (.run true) trivial rfl, rfl,
      ((RunWhile.refl _).tail (.run false) ?_ rfl).tail (.run false) ?_ rfl,
      ?_, ?_, ?_, ?_⟩
    · exact fun h => absurd (congrArg List.length h) (by decide)
    · exact fun h => absurd (congrArg List.length h) (by decide)
    all_goals rfl
  obtain ⟨s, s₁, s₂, as, es, hrun, hcall, hcalled, hreturned, hdetached, hbefore, hafter⟩ := hrun
  have hcomplete := (releasePoolObjects_complete (fun _ => false) true hrun hcall hcalled
    hreturned).1 (List.forall_mem_singleton.mpr hdetached)
  exact ⟨s, s₂, es, hbefore, hcomplete, hafter⟩

/-- A pop releases the object `6`. Its `-dealloc` removes the object `5`, which is next, and
which nobody finds. -/
theorem removal_misses_detached :
    (∃ (s s' : State ℕ) (as : List (Event ℕ)),
      Run (State.stepNested fun _ => false) (.init true) as s ∧
      s.stepNested (fun _ => false) (.releasePoolObjects [5] true) = some ([], s') ∧
      s'.frames = s.frames ∧ s.pending (fun _ => true) 5 = 1 ∧
      s'.pending (fun _ => true) 5 = 1) ∧
    ¬ ∀ (s s₁ s₂ : State ℕ) (as bs : List (Event ℕ)) (es : List (ℕ × Event ℕ)) (ps : List ℕ),
      Run (State.stepNested fun _ => false) (.init true) as s →
      s.stepNested (fun _ => false) (.releasePoolObjects ps true) = some (bs, s₁) →
      RunWhile (State.stepAtDepth fun _ => false) (fun t _ => t.frames ≠ s.frames) s₁ es s₂ →
      s₂.frames = s.frames → Removed s s₂ ps es := by
  have hrun : ∃ (s s' : State ℕ) (as : List (Event ℕ)),
      Run (State.stepNested fun _ => false) (.init true) as s ∧
      s.stepNested (fun _ => false) (.releasePoolObjects [5] true) = some ([], s') ∧
      s'.frames = s.frames ∧ s.pending (fun _ => true) 5 = 1 ∧
      s'.pending (fun _ => true) 5 = 1 ∧ s'.pending (fun a => a == 0) 5 = 1 :=
    ⟨_, _, _, ((((((RunWhile.refl _).tail .push trivial rfl).tail (.autorelease 5) trivial
      rfl).tail (.autorelease 6) trivial rfl).tail (.pop 0) trivial
      rfl).tail (.run false) trivial rfl).tail (.run true) trivial rfl, rfl, rfl, rfl, rfl, rfl⟩
  obtain ⟨s, s', as, hrun, hcall, hreturned, hbefore, hafter, hpool⟩ := hrun
  refine ⟨⟨s, s', as, hrun, hcall, hreturned, hbefore, hafter⟩, fun h => ?_⟩
  have hgone := (h s s' s' as [] [] [5] hrun hcall (.refl _) hreturned).gone 5
    List.mem_cons_self 0
  rw [hpool] at hgone
  exact absurd hgone (by decide)

end MulleObjC.Pool
