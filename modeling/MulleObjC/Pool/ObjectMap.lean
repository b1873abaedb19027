import MulleObjC.Pool.Nested

/-!
# The object map and the scan

`+mulleContainsObject:` and `+mulleCountObject:` look into the map of the thread if there is
one, and else scan the storage of all pools. The map counts what is pending. The scan misses
the pages that a pop has detached from their pool and is still releasing.
-/

namespace MulleObjC.Pool

open Machine

variable {Obj : Type*} [DecidableEq Obj]

namespace Storage

/-- `_mulle_autoreleasepointerarray_contains` -/
def contains (storage : Storage Obj) (p : Obj) : Bool :=
  storage.any fun array => array.objects.any (· == some p)

/-- `_mulle_autoreleasepointerarray_count_object`. The result is an `unsigned int`. -/
def countObject (storage : Storage Obj) (p : Obj) : BitVec 32 :=
  storage.foldl (fun count array =>
    array.objects.foldr (fun slot count => if slot = some p then count + 1 else count) count) 0

theorem foldr_countObject (objects : List (Option Obj)) (p : Obj) (count : BitVec 32) :
    objects.foldr (fun slot count => if slot = some p then count + 1 else count) count =
      count + BitVec.ofNat 32 (objects.count (some p)) := by
  induction objects with
  | nil => simp
  | cons slot objects ih =>
    rw [List.foldr_cons, ih, List.count_cons]
    by_cases hslot : slot = some p
    · simp [hslot, BitVec.ofNat_add, BitVec.add_assoc]
    · simp [hslot]

/-- The scan counts the entries, as far as an `unsigned int` goes. -/
theorem countObject_eq (storage : Storage Obj) (p : Obj) :
    storage.countObject p = BitVec.ofNat 32 (storage.slots.count (some p)) := by
  have hsum : ∀ count : BitVec 32, storage.foldl (fun count array =>
      array.objects.foldr (fun slot count => if slot = some p then count + 1 else count) count)
      count = count + BitVec.ofNat 32 (storage.slots.count (some p)) := by
    induction storage with
    | nil => simp [slots]
    | cons array previous ih =>
      intro count
      rw [List.foldl_cons, ih, foldr_countObject, slots, List.count_append, BitVec.ofNat_add]
      ac_rfl
  simpa [countObject] using hsum 0

/-- The scan finds an object that has an entry. -/
theorem contains_iff (storage : Storage Obj) (p : Obj) :
    storage.contains p = true ↔ 0 < storage.slots.count (some p) := by
  induction storage with
  | nil => simp [contains, slots]
  | cons array previous ih =>
    rw [contains, List.any_cons, Bool.or_eq_true, ← contains, ih, slots, List.count_append]
    have hpage : array.objects.any (· == some p) = true ↔ 0 < array.objects.count (some p) := by
      rw [List.count_pos_iff]
      simp
    rw [hpage]
    omega

end Storage

namespace PoolConfiguration

/-- `+mulleContainsObject:` -/
def mulleContainsObject (config : PoolConfiguration Obj) (p : Obj) : Bool :=
  match config.objectMap with
  | some map => map p != 0
  | none => config.pools.any fun pool => pool.storage.contains p

/-- `+mulleCountObject:`. The count of each pool goes through an `int`. -/
def mulleCountObject (config : PoolConfiguration Obj) (p : Obj) : BitVec 64 :=
  match config.objectMap with
  | some map => map p
  | none => config.pools.foldl
    (fun count pool => count + (pool.storage.countObject p).signExtend 64) 0

/-- The same pools, without a map. -/
def withoutMap (config : PoolConfiguration Obj) : PoolConfiguration Obj :=
  { config with objectMap := none }

omit [DecidableEq Obj] in
@[simp] theorem withoutMap_pools (config : PoolConfiguration Obj) :
    config.withoutMap.pools = config.pools := rfl

/-- The scan adds up the entries in the storage of all pools. -/
theorem mulleCountObject_withoutMap (config : PoolConfiguration Obj) {p : Obj}
    (hint : ∀ pool ∈ config.pools, pool.storage.slots.count (some p) < 2 ^ 31) :
    config.withoutMap.mulleCountObject p =
      BitVec.ofNat 64 (pendingIn (fun _ => true) p config.pools) := by
  have hsum : ∀ (pools : List (NSAutoreleasePool Obj)) (count : BitVec 64),
      (∀ pool ∈ pools, pool.storage.slots.count (some p) < 2 ^ 31) →
      pools.foldl (fun count pool => count + (pool.storage.countObject p).signExtend 64) count =
        count + BitVec.ofNat 64 (pendingIn (fun _ => true) p pools) := by
    intro pools
    induction pools with
    | nil => simp [pendingIn]
    | cons pool owner ih =>
      intro count hpools
      obtain ⟨hpool, howner⟩ := List.forall_mem_cons.mp hpools
      have hsign : (pool.storage.countObject p).signExtend 64 =
          BitVec.ofNat 64 (pool.storage.slots.count (some p)) := by
        rw [Storage.countObject_eq]
        have hmsb : (BitVec.ofNat 32 (pool.storage.slots.count (some p))).msb = false := by
          rw [BitVec.msb_eq_false_iff_two_mul_lt, BitVec.toNat_ofNat]
          omega
        apply BitVec.eq_of_toNat_eq
        rw [BitVec.signExtend_eq_setWidth_of_msb_false hmsb]
        simp only [BitVec.toNat_setWidth, BitVec.toNat_ofNat]
        omega
      rw [List.foldl_cons, ih _ howner, hsign, pendingIn, entriesIn, if_pos rfl, BitVec.ofNat_add]
      ac_rfl
  simpa [mulleCountObject, withoutMap] using hsum config.pools 0 hint

/-- The scan finds an object that has an entry in the storage of a pool. -/
theorem mulleContainsObject_withoutMap (config : PoolConfiguration Obj) (p : Obj) :
    config.withoutMap.mulleContainsObject p = true ↔
      0 < pendingIn (fun _ => true) p config.pools := by
  change (config.pools.any fun pool => pool.storage.contains p) = true ↔ _
  induction config.pools with
  | nil => simp [pendingIn]
  | cons pool owner ih =>
    rw [List.any_cons, Bool.or_eq_true, ih, Storage.contains_iff, pendingIn, entriesIn, if_pos rfl]
    omega

end PoolConfiguration

/-- The ids that a bulk autorelease adds are, in some order, those that it counts in the map:
the ids at the places `step` bytes apart and those at consecutive places. -/
def Consecutive (s : State Obj) : Act Obj → Prop
  | .autoreleaseObjects objects count step =>
    s.config.pools = [] ∨ (PoolConfiguration.addressed objects count step).Perm
      (PoolConfiguration.addressed objects count 8)
  | _ => True

theorem foldl_mapIncrement (ps : List Obj) (map : Obj → BitVec 64) (p : Obj) :
    ps.foldl mapIncrement map p = map p + BitVec.ofNat 64 (ps.count p) := by
  induction ps generalizing map with
  | nil => simp
  | cons q ps ih =>
    rw [List.foldl_cons, ih, List.count_cons, mapIncrement]
    by_cases hq : q = p
    · subst hq
      simp [BitVec.ofNat_add, BitVec.add_assoc, BitVec.add_comm 1#64]
    · simp [hq, Ne.symm hq]

variable {isConstant : Obj → Bool} {s s' : State Obj}

/-- The map changes by what a step reports. -/
theorem Reconfigures.map {act : Act Obj} {es : List (Event Obj)}
    {config : PoolConfiguration Obj} (h : Reconfigures isConstant s.config act es config)
    (hcond : Consecutive s act) {map : Obj → BitVec 64} (hmap : s.config.objectMap = some map) :
    ∃ map', config.objectMap = some map' ∧ ∀ p,
      map' p + BitVec.ofNat 64 (es.countP (Event.isReleased (fun _ => true) p)) =
        map p + BitVec.ofNat 64 (es.countP (Event.isAdded (fun _ => true) p)) := by
  have hreleased : ∀ (pool : ℕ) (opfer p : Obj), mapReleaseAndFree map opfer p +
      BitVec.ofNat 64 ([Event.released pool opfer].countP (Event.isReleased (fun _ => true) p)) =
      map p +
        BitVec.ofNat 64 ([Event.released pool opfer].countP (Event.isAdded (fun _ => true) p)) := by
    intro pool opfer p
    rw [mapReleaseAndFree]
    by_cases hp : p = opfer
    · subst hp
      simp [Event.isReleased, Event.isAdded]
    · simp [Event.isReleased, Event.isAdded, hp, Ne.symm hp]
  cases h with
  | same => exact ⟨map, hmap, fun p => rfl⟩
  | push => exact ⟨map, hmap, fun p => rfl⟩
  | @add pool owner hpools p hp =>
    refine ⟨mapIncrement map p, ?_, fun q => ?_⟩
    · simp [PoolConfiguration.autoreleaseObject, hp, hpools, hmap]
    · rw [mapIncrement]
      by_cases hq : q = p
      · subst hq
        simp [Event.isReleased, Event.isAdded]
      · simp [Event.isReleased, Event.isAdded, hq, Ne.symm hq]
  | @addObjects pool owner hpools objects count step =>
    have hperm := hcond.resolve_left (by simp [hpools])
    refine ⟨(PoolConfiguration.addressed objects count 8).foldl mapIncrement map, ?_, fun p => ?_⟩
    · cases objects with
      | none => exact hmap
      | some objects =>
        by_cases hcount : count = 0
        · simp [PoolConfiguration.autoreleaseObjects, PoolConfiguration.addressed, hcount, hmap,
            Storage.spaced]
        · simp [PoolConfiguration.autoreleaseObjects, PoolConfiguration.addressed, hcount, hmap,
            hpools]
    · rw [foldl_mapIncrement, ← hperm.count_eq, countP_isReleased_map, countP_isAdded_map,
        if_pos rfl, List.count_map_of_injective _ _ (Option.some_injective Obj)]
      simp
  | detach => exact ⟨map, hmap, fun p => rfl⟩
  | pop => exact ⟨map, hmap, fun p => rfl⟩
  | release _ pool opfer => exact ⟨_, by simp [hmap], hreleased pool opfer⟩
  | remove => exact ⟨_, by simp [hmap], hreleased _ _⟩

/-- The map counts the pending entries of every object. -/
def State.Mapped (s : State Obj) : Prop :=
  ∃ map, s.config.objectMap = some map ∧
    ∀ p, map p = BitVec.ofNat 64 (s.pending (fun _ => true) p)

/-- Every step keeps the map right. -/
theorem State.Mapped.step (h : s.Mapped) (hs : s.Sound) {act : Act Obj} {es : List (Event Obj)}
    (hcond : Consecutive s act) (hstep : s.stepNested isConstant act = some (es, s')) :
    s'.Mapped := by
  obtain ⟨map, hmap, hcounts⟩ := h
  obtain ⟨map', hmap', hchange⟩ := (reconfigures_stepNested hstep).map hcond hmap
  refine ⟨map', hmap', fun p => ?_⟩
  have hbalance := congrArg (BitVec.ofNat 64) (balance_stepNested hstep hs (fun _ => true) p)
  rw [BitVec.ofNat_add, BitVec.ofNat_add] at hbalance
  have hsum : map' p + BitVec.ofNat 64 (es.countP (Event.isReleased (fun _ => true) p)) =
      BitVec.ofNat 64 (s'.pending (fun _ => true) p) +
        BitVec.ofNat 64 (es.countP (Event.isReleased (fun _ => true) p)) := by
    rw [hchange p, hcounts p, BitVec.add_comm, hbalance, BitVec.add_comm]
  exact (BitVec.add_left_inj _).mp hsum

/-- The same thread without a map. -/
def State.withoutMap (s : State Obj) : State Obj := { s with config := s.config.withoutMap }

theorem withoutMap_autoreleaseObject (config : PoolConfiguration Obj) (p : Obj) :
    config.withoutMap.autoreleaseObject isConstant p =
      (config.autoreleaseObject isConstant p).withoutMap := by
  unfold PoolConfiguration.autoreleaseObject
  split
  · rfl
  · rw [PoolConfiguration.withoutMap_pools]
    cases config.pools <;> rfl

theorem withoutMap_autoreleaseObjects (config : PoolConfiguration Obj)
    (objects : Option (ℕ → Obj)) (count step : ℕ) :
    config.withoutMap.autoreleaseObjects objects count step =
      (config.autoreleaseObjects objects count step).withoutMap := by
  cases objects with
  | none => rfl
  | some objects =>
    unfold PoolConfiguration.autoreleaseObjects
    dsimp only
    split
    · rfl
    · rw [PoolConfiguration.withoutMap_pools]
      cases config.pools <;> rfl

/-- What code calls does the same to the pools without a map. -/
theorem call_withoutMap {floor : ℕ} {act : Act Obj} {es : List (Event Obj)}
    (h : s.call isConstant floor act = some (es, s')) :
    s.withoutMap.call isConstant floor act = some (es, s'.withoutMap) := by
  cases act with
  | push =>
    obtain ⟨rfl, rfl⟩ := Prod.mk.inj (Option.some.inj h)
    rfl
  | autorelease p =>
    obtain ⟨rfl, rfl⟩ := Prod.mk.inj (Option.some.inj h)
    simp only [State.call, State.withoutMap, withoutMap_autoreleaseObject]
    rfl
  | autoreleaseObjects objects count step =>
    obtain ⟨rfl, rfl⟩ := Prod.mk.inj (Option.some.inj h)
    simp only [State.call, State.withoutMap, withoutMap_autoreleaseObjects]
    rfl
  | pop aPool =>
    simp only [State.call] at h
    split at h
    · cases h
    · rename_i tail owner hpools
      split at h
      · rename_i hmem
        obtain ⟨rfl, rfl⟩ := Prod.mk.inj (Option.some.inj h)
        simp only [State.call, State.withoutMap, PoolConfiguration.withoutMap_pools, hpools]
          at hmem ⊢
        rw [if_pos hmem]
      · cases h
  | releasePoolObjects ps owners => cases h
  | releaseAllPoolObjects pool => cases h
  | leave => cases h
  | run dealloc => cases h

/-- The pool functions do the same to the pools without a map. -/
theorem runFrame_withoutMap {frame : Frame Obj} {rest : List (Frame Obj)} {dealloc : Bool}
    {es : List (Event Obj)} (h : s.runFrame dealloc rest frame = some (es, s')) :
    s.withoutMap.runFrame dealloc rest frame = some (es, s'.withoutMap) := by
  cases frame with
  | dealloc floor => cases h
  | releaseAll pool popTo =>
    simp only [State.runFrame] at h
    simp only [State.runFrame, State.withoutMap, PoolConfiguration.withoutMap_pools]
    split at h
    · obtain ⟨rfl, rfl⟩ := Prod.mk.inj (Option.some.inj h)
      rfl
    · cases popTo with
      | none =>
        obtain ⟨rfl, rfl⟩ := Prod.mk.inj (Option.some.inj h)
        rfl
      | some aPool =>
        simp only [State.popTail] at h
        simp only [State.popTail, PoolConfiguration.withoutMap_pools]
        split at h
        · rename_i heq
          obtain ⟨rfl, rfl⟩ := Prod.mk.inj (Option.some.inj h)
          rw [if_pos heq]
          rfl
        · rename_i hne
          rw [if_neg hne]
          split at h
          · cases h
          · rename_i hafter
            obtain ⟨rfl, rfl⟩ := Prod.mk.inj (Option.some.inj h)
            rw [hafter]
            rfl
  | releaseAndFree pool objects q =>
    rcases objects with - | ⟨- | opfer, objects⟩
    · cases q <;> obtain ⟨rfl, rfl⟩ := Prod.mk.inj (Option.some.inj h) <;> rfl
    · obtain ⟨rfl, rfl⟩ := Prod.mk.inj (Option.some.inj h)
      rfl
    · obtain ⟨rfl, rfl⟩ := Prod.mk.inj (Option.some.inj h)
      rfl
  | releaseObjects ps owners pool below q =>
    cases q with
    | zero =>
      cases below <;> obtain ⟨rfl, rfl⟩ := Prod.mk.inj (Option.some.inj h) <;> rfl
    | succ q =>
      rw [State.runFrame] at h
      rw [State.runFrame, State.withoutMap, PoolConfiguration.withoutMap_pools]
      split at h
      · dsimp only at h ⊢
        split at h
        · rename_i hmem
          obtain ⟨rfl, rfl⟩ := Prod.mk.inj (Option.some.inj h)
          rw [if_pos hmem]
          rfl
        · rename_i hmem
          obtain ⟨rfl, rfl⟩ := Prod.mk.inj (Option.some.inj h)
          rw [if_neg hmem]
          rfl
      · obtain ⟨rfl, rfl⟩ := Prod.mk.inj (Option.some.inj h)
        rfl

/-- A thread without a map takes the same steps. -/
theorem step_withoutMap {act : Act Obj} {es : List (Event Obj)}
    (h : s.step isConstant act = some (es, s')) :
    s.withoutMap.step isConstant act = some (es, s'.withoutMap) := by
  refine step_of_takes ?_
  cases takes_of_step h with
  | releasePoolObjects hframes ps owners =>
    exact .releasePoolObjects (s := s.withoutMap) hframes ps owners
  | releaseAllPoolObjects hframes hmem =>
    exact .releaseAllPoolObjects (s := s.withoutMap) hframes hmem
  | call hcode h => exact .call (s := s.withoutMap) hcode (call_withoutMap h)
  | leave hframes => exact .leave (s := s.withoutMap) hframes
  | run hframes h => exact .run (s := s.withoutMap) hframes (runFrame_withoutMap h)

theorem stepNested_withoutMap {act : Act Obj} {es : List (Event Obj)}
    (h : s.stepNested isConstant act = some (es, s')) :
    s.withoutMap.stepNested isConstant act = some (es, s'.withoutMap) := by
  unfold State.stepNested at h
  split at h
  · rename_i floor rest ps owners hframes
    obtain ⟨rfl, rfl⟩ := Prod.mk.inj (Option.some.inj h)
    have hcons : s.withoutMap.frames = .dealloc floor :: rest := hframes
    simp only [State.stepNested, hcons]
    rw [← hframes]
    rfl
  · rename_i floor rest pool hframes
    have hcons : s.withoutMap.frames = .dealloc floor :: rest := hframes
    split at h
    · rename_i hguard
      obtain ⟨rfl, rfl⟩ := Prod.mk.inj (Option.some.inj h)
      simp only [State.stepNested, hcons]
      rw [← hframes]
      exact if_pos hguard
    · cases h
  · rename_i hremove hempty
    unfold State.stepNested
    split
    · rename_i hframes
      exact (hremove _ _ _ _ hframes rfl).elim
    · rename_i hframes
      exact (hempty _ _ _ hframes rfl).elim
    · exact step_withoutMap h

/-- The run of the same thread without a map. -/
theorem run_withoutMap {es : List (Event Obj)}
    (hrun : RunWhile (State.stepNested isConstant) Consecutive (.init true) es s) :
    RunWhile (State.stepNested isConstant) Consecutive (.init false) es s.withoutMap := by
  induction hrun with
  | refl => exact .refl _
  | tail act _ hcond hstep ih =>
    refine ih.tail act ?_ (stepNested_withoutMap hstep)
    cases act <;> exact hcond

/-- In every run in which bulk autoreleases add the ids that they count, whatever the
`-dealloc`s do, a thread with a map takes the same steps as a thread without one. The map counts
for every object the entries that are pending in all pools. The scan of the thread without a map
gives the same answers for an object none of whose entries is in a page that is being released,
if an `int` can hold its number of entries in each pool. -/
theorem objectMap_agrees (isConstant : Obj → Bool) {s : State Obj} {es : List (Event Obj)}
    (hrun : RunWhile (State.stepNested isConstant) Consecutive (.init true) es s) :
    RunWhile (State.stepNested isConstant) Consecutive (.init false) es s.withoutMap ∧
    ∀ p, s.pending (fun _ => true) p < 2 ^ 64 →
      (s.config.mulleCountObject p).toNat = s.pending (fun _ => true) p ∧
      (s.config.mulleContainsObject p = true ↔ 0 < s.pending (fun _ => true) p) ∧
      ((s.frames.map (Frame.pending (fun _ => true) p)).sum = 0 →
        (s.withoutMap.config.mulleContainsObject p = s.config.mulleContainsObject p) ∧
        ((∀ pool ∈ s.config.pools, pool.storage.slots.count (some p) < 2 ^ 31) →
          s.withoutMap.config.mulleCountObject p = s.config.mulleCountObject p)) := by
  have hmapped : s.Sound ∧ s.Mapped := by
    refine hrun.invariant (fun s => s.Sound ∧ s.Mapped) ?_ ⟨sound_init true, _, rfl, fun p => rfl⟩
    intro s act es s' hcond hs hstep
    exact ⟨sound_stepNested hstep hs.1, hs.2.step hs.1 hcond hstep⟩
  obtain ⟨map, hmap, hcounts⟩ := hmapped.2
  refine ⟨run_withoutMap hrun, fun p hlt => ?_⟩
  have hcount : s.config.mulleCountObject p = BitVec.ofNat 64 (s.pending (fun _ => true) p) := by
    rw [PoolConfiguration.mulleCountObject, hmap]
    exact hcounts p
  have hcontains : s.config.mulleContainsObject p = true ↔ 0 < s.pending (fun _ => true) p := by
    rw [PoolConfiguration.mulleContainsObject, hmap]
    have hzero : (0 : BitVec 64).toNat = 0 := rfl
    simp only [hcounts p, bne_iff_ne, ne_eq, ← BitVec.toNat_inj, BitVec.toNat_ofNat, hzero,
      Nat.mod_eq_of_lt hlt]
    omega
  refine ⟨by rw [hcount, BitVec.toNat_ofNat, Nat.mod_eq_of_lt hlt], hcontains, fun hdetached => ?_⟩
  have hpending : s.pending (fun _ => true) p = pendingIn (fun _ => true) p s.config.pools := by
    rw [State.pending, hdetached, Nat.add_zero]
  refine ⟨?_, fun hint => ?_⟩
  · rw [Bool.eq_iff_iff, hcontains, hpending]
    exact PoolConfiguration.mulleContainsObject_withoutMap s.config p
  · rw [hcount, hpending]
    exact PoolConfiguration.mulleCountObject_withoutMap s.config hint

/-- Two entries of an object, one of them removed again. -/
theorem objectMap_agrees_after_removal : ∃ s : State ℕ,
    (s.config.mulleCountObject 5).toNat = 1 ∧
      s.withoutMap.config.mulleCountObject 5 = s.config.mulleCountObject 5 := by
  have hrun : ∃ (s : State ℕ) (es : List (Event ℕ)),
      RunWhile (State.stepNested fun _ => false) Consecutive (.init true) es s ∧
        s.pending (fun _ => true) 5 = 1 ∧
        (s.frames.map (Frame.pending (fun _ => true) 5)).sum = 0 ∧
        ∀ pool ∈ s.config.pools, pool.storage.slots.count (some 5) < 2 ^ 31 :=
    ⟨_, _, (((((RunWhile.refl _).tail .push trivial rfl).tail (.autorelease 6) trivial
      rfl).tail (.autorelease 5) trivial rfl).tail (.releasePoolObjects [6] false) trivial
      rfl).tail (.run false) trivial rfl, rfl, rfl, by decide⟩
  obtain ⟨s, es, hrun, hpending, hdetached, hint⟩ := hrun
  obtain ⟨hcount, -, hscan⟩ := (objectMap_agrees (fun _ => false) hrun).2 5 (by omega)
  exact ⟨s, hcount.trans hpending, (hscan hdetached).2 hint⟩

/-- A pop releases the object `6`, and its `-dealloc` asks for the object `5`, which is next. -/
theorem scan_misses_detached : ∃ (s : State ℕ) (es : List (Event ℕ)),
    Run (State.stepNested fun _ => false) (.init true) es s ∧
    s.pending (fun _ => true) 5 = 1 ∧
    s.config.mulleContainsObject 5 = true ∧ s.config.mulleCountObject 5 = 1 ∧
    s.withoutMap.config.mulleContainsObject 5 = false ∧
    s.withoutMap.config.mulleCountObject 5 = 0 :=
  ⟨_, _, (((((RunWhile.refl _).tail .push trivial rfl).tail (.autorelease 5) trivial
    rfl).tail (.autorelease 6) trivial rfl).tail (.pop 0) trivial
    rfl).tail (.run false) trivial rfl |>.tail (.run true) trivial rfl, rfl, rfl, rfl, rfl, rfl⟩

end MulleObjC.Pool
