import MulleObjC.Pool.Nested

/-!
# The counts of pages and pools

A page keeps the number of its entries in `count`. Single autoreleases and removals maintain
it. A bulk autorelease advances `used` only, so it is right in the runs without one, and then
a pool that is not being emptied counts what is left to release.
-/

namespace MulleObjC.Pool

open Machine

variable {Obj : Type*}

namespace PointerArray

/-- The slots below `used` that are not NULL. -/
def entries (array : PointerArray Obj) : ℕ := array.objects.countP Option.isSome

/-- The `count` field is right. -/
def Counted (array : PointerArray Obj) : Prop := array.count = BitVec.ofNat 64 array.entries

theorem entries_le (array : PointerArray Obj) : array.entries ≤ nObjects :=
  List.countP_le_length.trans array.used_le

theorem counted_init : (init : PointerArray Obj).Counted := rfl

/-- A single object is counted. -/
theorem Counted.add {array : PointerArray Obj} (h : array.Counted) (p : Obj)
    (hroom : array.used < nObjects) : (array.add p hroom).Counted := by
  rw [Counted] at h
  rw [Counted, count_add, h, entries, entries, objects_add, List.countP_append]
  simp [BitVec.ofNat_add]

/-- Clearing an entry is counted. -/
theorem Counted.clear {array : PointerArray Obj} (h : array.Counted) {q : ℕ} {obj : Obj}
    (hslot : array.objects[q]? = some (some obj)) : (array.clear q).Counted := by
  obtain ⟨hq, hget⟩ := List.getElem?_eq_some_iff.mp hslot
  have hpos : 0 < array.objects.countP Option.isSome :=
    List.countP_pos_iff.mpr ⟨some obj, hget ▸ List.getElem_mem hq, rfl⟩
  have hset := List.countP_set (p := Option.isSome) (a := none) hq
  simp only [hget, Option.isSome_some, if_true, Option.isSome_none, Bool.false_eq_true, if_false,
    Nat.add_zero] at hset
  rw [Counted, entries] at h
  rw [Counted, entries, objects_clear, hset, PointerArray.clear, h]
  have hsplit : array.objects.countP Option.isSome =
      (array.objects.countP Option.isSome - 1) + 1 := by omega
  rw [hsplit, BitVec.ofNat_add, Nat.add_sub_cancel]
  exact BitVec.add_sub_cancel _ _

end PointerArray

namespace Storage

/-- All pages count their entries. -/
def Counted (storage : Storage Obj) : Prop := ∀ array ∈ storage, array.Counted

/-- `_mulle_autoreleasepointerarray_count`. The sum is an `unsigned int`. -/
def count (storage : Storage Obj) : BitVec 32 :=
  storage.foldl (fun count array => count + array.count.setWidth 32) 0

/-- The entries of a chain. -/
def entries (storage : Storage Obj) : ℕ := storage.slots.countP Option.isSome

theorem Counted.writable {storage : Storage Obj} (h : Counted storage) :
    Counted (storage.writable.1.1 :: storage.writable.2) := by
  cases storage with
  | nil => exact List.forall_mem_singleton.mpr PointerArray.counted_init
  | cons array previous =>
    rw [Storage.writable]
    split
    · exact h
    · exact List.forall_mem_cons.mpr ⟨PointerArray.counted_init, h⟩

theorem Counted.addObject {storage : Storage Obj} (h : Counted storage) (p : Obj) :
    Counted (storage.addObject p) := by
  obtain ⟨harray, hprevious⟩ := List.forall_mem_cons.mp h.writable
  exact List.forall_mem_cons.mpr ⟨harray.add p storage.writable.1.2, hprevious⟩

theorem Counted.clearAt {storage : Storage Obj} (h : Counted storage) {below q : ℕ}
    {array : PointerArray Obj} (hpage : storage.pageAt below = some array) {obj : Obj}
    (hslot : array.objects[q]? = some (some obj)) : Counted (storage.clearAt below q) := by
  induction storage with
  | nil => exact h
  | cons page previous ih =>
    obtain ⟨hfirst, hprevious⟩ := List.forall_mem_cons.mp h
    rw [Storage.pageAt] at hpage
    rw [Storage.clearAt]
    split
    · rename_i hbelow
      rw [if_pos hbelow] at hpage
      obtain rfl := Option.some.inj hpage
      exact List.forall_mem_cons.mpr ⟨hfirst.clear hslot, hprevious⟩
    · rename_i hbelow
      rw [if_neg hbelow] at hpage
      exact List.forall_mem_cons.mpr ⟨hfirst, ih hprevious hpage⟩

/-- The sum of right counts is the number of entries, as far as an `unsigned int` goes. -/
theorem count_eq {storage : Storage Obj} (h : Counted storage) :
    count storage = BitVec.ofNat 32 (entries storage) := by
  have hsum : ∀ acc : BitVec 32, storage.foldl (fun count array => count + array.count.setWidth 32)
      acc = acc + BitVec.ofNat 32 (entries storage) := by
    induction storage with
    | nil => simp [entries, slots]
    | cons array previous ih =>
      obtain ⟨harray, hprevious⟩ := List.forall_mem_cons.mp h
      intro acc
      rw [List.foldl_cons, ih hprevious, harray]
      simp only [entries, slots, List.countP_append, PointerArray.entries, BitVec.ofNat_add,
        BitVec.setWidth_ofNat_of_le (show 32 ≤ 64 by decide)]
      ac_rfl
  simpa [count] using hsum 0

end Storage

/-- `mulleCount`, the function. -/
def NSAutoreleasePool.mulleCount (pool : NSAutoreleasePool Obj) : BitVec 32 := pool.storage.count

namespace PoolConfiguration

/-- `-mulleCount`, which counts the current pool. -/
def mulleCountOfTail (config : PoolConfiguration Obj) : BitVec 64 :=
  match config.pools with
  | [] => 0
  | pool :: _ => pool.mulleCount.setWidth 64

/-- `+mulleCount` -/
def mulleCount (config : PoolConfiguration Obj) : BitVec 64 :=
  config.pools.foldl (fun count pool => count + pool.mulleCount.setWidth 64) 0

/-- All pages of all pools count their entries. -/
def Counted (config : PoolConfiguration Obj) : Prop :=
  ∀ pool ∈ config.pools, pool.storage.Counted

/-- The sum of exact pool counts. -/
theorem mulleCount_toNat {config : PoolConfiguration Obj}
    (h : ∀ pool ∈ config.pools, pool.mulleCount.toNat = pool.storage.entries)
    (hlt : (config.pools.map fun pool => pool.storage.entries).sum < 2 ^ 64) :
    config.mulleCount.toNat = (config.pools.map fun pool => pool.storage.entries).sum := by
  have hsum : ∀ (pools : List (NSAutoreleasePool Obj)) (acc : BitVec 64),
      (∀ pool ∈ pools, pool.mulleCount.toNat = pool.storage.entries) →
      acc.toNat + (pools.map fun pool => pool.storage.entries).sum < 2 ^ 64 →
      (pools.foldl (fun count pool => count + pool.mulleCount.setWidth 64) acc).toNat =
        acc.toNat + (pools.map fun pool => pool.storage.entries).sum := by
    intro pools
    induction pools with
    | nil => simp
    | cons pool owner ih =>
      intro acc hpools hacc
      obtain ⟨hpool, howner⟩ := List.forall_mem_cons.mp hpools
      rw [List.map_cons, List.sum_cons] at hacc ⊢
      have hwidth : (pool.mulleCount.setWidth 64).toNat = pool.storage.entries := by
        rw [BitVec.toNat_setWidth, hpool]
        omega
      have hadd : (acc + pool.mulleCount.setWidth 64).toNat = acc.toNat + pool.storage.entries := by
        rw [BitVec.toNat_add, hwidth]
        omega
      rw [List.foldl_cons, ih _ howner (by omega), hadd]
      omega
  simpa [mulleCount] using hsum config.pools 0 h (by simpa using hlt)

end PoolConfiguration

/-- The entries that a frame has detached from the pool and not released yet. -/
def Frame.detached (pool : ℕ) : Frame Obj → ℕ
  | .releaseAndFree p objects q =>
    if p = pool then objects.countP Option.isSome + q.entries else 0
  | _ => 0

/-- The entries of the pool that are detached from it. -/
def State.detached (s : State Obj) (pool : ℕ) : ℕ := (s.frames.map (Frame.detached pool)).sum

/-- The entries of the pool that are still to be released. -/
def State.entries (s : State Obj) (pool : NSAutoreleasePool Obj) : ℕ :=
  pool.storage.entries + s.detached pool.address

/-- A bulk autorelease has nothing to add. -/
def NoBulk (s : State Obj) : Act Obj → Prop
  | .autoreleaseObjects objects count step =>
    s.config.pools = [] ∨ PoolConfiguration.addressed objects count step = []
  | _ => True

theorem counted_modifyStorage {f : Storage Obj → Storage Obj} {pool : ℕ}
    {pools : List (NSAutoreleasePool Obj)} (h : ∀ p ∈ pools, p.storage.Counted)
    (hf : (storageOf pool pools).Counted → (f (storageOf pool pools)).Counted) :
    ∀ p ∈ modifyStorage pool f pools, p.storage.Counted := by
  induction pools with
  | nil => exact h
  | cons p owner ih =>
    obtain ⟨hp, howner⟩ := List.forall_mem_cons.mp h
    rw [storageOf] at hf
    rw [modifyStorage]
    split
    · rename_i heq
      rw [if_pos heq] at hf
      exact List.forall_mem_cons.mpr ⟨hf hp, howner⟩
    · rename_i hne
      rw [if_neg hne] at hf
      exact List.forall_mem_cons.mpr ⟨hp, ih howner hf⟩

variable [DecidableEq Obj] {isConstant : Obj → Bool} {s s' : State Obj}

/-- Everything but a bulk autorelease keeps the counts right. -/
theorem Reconfigures.counted {act : Act Obj} {es : List (Event Obj)}
    {config : PoolConfiguration Obj} (h : Reconfigures isConstant s.config act es config)
    (hbulk : NoBulk s act) (hcounted : s.config.Counted) : config.Counted := by
  cases h with
  | same => exact hcounted
  | push => exact List.forall_mem_cons.mpr ⟨List.forall_mem_singleton.mpr rfl, hcounted⟩
  | @add pool owner hpools p hp =>
    rw [PoolConfiguration.Counted, hpools] at hcounted
    obtain ⟨hpool, howner⟩ := List.forall_mem_cons.mp hcounted
    rw [PoolConfiguration.Counted, PoolConfiguration.autoreleaseObject, hp, hpools]
    exact List.forall_mem_cons.mpr ⟨hpool.addObject p, howner⟩
  | addObjects hpools objects count step =>
    rcases hbulk with hnil | hnil
    · rw [hpools] at hnil
      cases hnil
    · cases objects with
      | none => exact hcounted
      | some objects =>
        have hcount : count = 0 := by
          simpa [PoolConfiguration.addressed, Storage.spaced] using hnil
        rwa [PoolConfiguration.autoreleaseObjects, if_pos hcount]
  | detach => exact counted_modifyStorage hcounted fun _ => List.forall_mem_nil _
  | pop _ pool => exact fun p hp => hcounted p ((after_suffix _ _ _).subset hp)
  | release => exact hcounted
  | remove _ hpage hslot =>
    exact counted_modifyStorage hcounted fun hstorage => hstorage.clearAt hpage hslot

/-- In every run without bulk autoreleases that add something, whatever the `-dealloc`s do,
every page counts its entries, and a pool none of whose entries are being released counts what
is left to release, if an `unsigned int` can hold it; so does the stack of pools. -/
theorem mulleCount_eq_entries (isConstant : Obj → Bool) (hasMap : Bool) {s : State Obj}
    {es : List (Event Obj)}
    (hrun : RunWhile (State.stepNested isConstant) NoBulk (.init hasMap) es s) :
    (∀ pool ∈ s.config.pools, ∀ array ∈ pool.storage,
      array.used ≤ nObjects ∧ array.count.toNat = array.entries) ∧
    (∀ pool ∈ s.config.pools, s.detached pool.address = 0 → s.entries pool < 2 ^ 32 →
      pool.mulleCount.toNat = s.entries pool) ∧
    (∀ pool owner, s.config.pools = pool :: owner → s.detached pool.address = 0 →
      s.entries pool < 2 ^ 32 → s.config.mulleCountOfTail.toNat = s.entries pool) ∧
    ((∀ pool ∈ s.config.pools, s.detached pool.address = 0 ∧ s.entries pool < 2 ^ 32) →
      (s.config.pools.map s.entries).sum < 2 ^ 64 →
      s.config.mulleCount.toNat = (s.config.pools.map s.entries).sum) := by
  have hcounted : s.config.Counted := by
    refine hrun.invariant (fun s => s.config.Counted) ?_ (List.forall_mem_nil _)
    intro s act es s' hbulk hcounted hstep
    exact (reconfigures_stepNested hstep).counted hbulk hcounted
  have hpool : ∀ pool ∈ s.config.pools, s.detached pool.address = 0 → s.entries pool < 2 ^ 32 →
      pool.mulleCount.toNat = s.entries pool := by
    intro pool hmem hdetached hlt
    rw [State.entries, hdetached, Nat.add_zero] at hlt ⊢
    rw [NSAutoreleasePool.mulleCount, Storage.count_eq (hcounted pool hmem), BitVec.toNat_ofNat,
      Nat.mod_eq_of_lt hlt]
  refine ⟨fun pool hmem array harray => ⟨array.used_le, ?_⟩, hpool, ?_, fun hall hlt => ?_⟩
  · have hle := array.entries_le
    have hsmall : nObjects < 2 ^ 64 := by decide
    rw [hcounted pool hmem array harray, BitVec.toNat_ofNat, Nat.mod_eq_of_lt (by omega)]
  · intro pool owner hpools hdetached hlt
    have htail := hpool pool (hpools ▸ List.mem_cons_self) hdetached hlt
    rw [PoolConfiguration.mulleCountOfTail, hpools]
    simp only [BitVec.toNat_setWidth, htail]
    omega
  · have hentries : s.config.pools.map s.entries =
        s.config.pools.map fun pool => pool.storage.entries := by
      refine List.map_congr_left fun pool hmem => ?_
      rw [State.entries, (hall pool hmem).1, Nat.add_zero]
    rw [hentries] at hlt ⊢
    refine PoolConfiguration.mulleCount_toNat (fun pool hmem => ?_) hlt
    have h := hpool pool hmem (hall pool hmem).1 (hall pool hmem).2
    rwa [State.entries, (hall pool hmem).1, Nat.add_zero] at h

/-- One of two objects is removed again. -/
theorem mulleCount_after_removal : ∃ (s : State ℕ) (pool : NSAutoreleasePool ℕ)
    (owner : List (NSAutoreleasePool ℕ)), s.config.pools = pool :: owner ∧ s.entries pool = 1 ∧
      s.config.mulleCountOfTail.toNat = s.entries pool := by
  have hrun : ∃ (s : State ℕ) (es : List (Event ℕ)) (pool : NSAutoreleasePool ℕ),
      RunWhile (State.stepNested fun _ => false) NoBulk (.init true) es s ∧
        s.config.pools = [pool] ∧ s.detached pool.address = 0 ∧ s.entries pool = 1 :=
    ⟨_, _, _, ((((((RunWhile.refl _).tail .push trivial rfl).tail (.autorelease 5) trivial
      rfl).tail (.autorelease 6) trivial rfl).tail (.releasePoolObjects [6] false) trivial
      rfl).tail (.run false) trivial rfl).tail (.run false) trivial rfl, rfl, rfl, rfl⟩
  obtain ⟨s, es, pool, hrun, hpools, hdetached, hentries⟩ := hrun
  refine ⟨s, pool, [], hpools, hentries, ?_⟩
  exact (mulleCount_eq_entries (fun _ => false) true hrun).2.2.1 pool [] hpools hdetached
    (by omega)

/-- An object is added in bulk and removed. The page has no entry left, and its `count` has
wrapped. -/
theorem count_wraps : ∃ (s : State ℕ) (es : List (Event ℕ)) (array : PointerArray ℕ),
    Run (State.stepNested fun _ => false) (.init false) es s ∧
    s.config.pools = [⟨0, [array]⟩] ∧ array.entries = 0 ∧ array.count = -1 ∧
    s.config.mulleCountOfTail.toNat = 2 ^ 32 - 1 := by
  have hbulk : (State.stepNested (fun _ => false) ⟨⟨[⟨0, [.init]⟩], none⟩, [], 1⟩
      (.autoreleaseObjects (some fun _ => 5) 1 8)) =
      some ([.added 0 5], ⟨⟨[⟨0, [⟨[some 5], 0, by decide⟩]⟩], none⟩, [], 1⟩) := by
    have hstorage : Storage.addObjects [.init] (fun _ => (5 : ℕ)) 1 8 =
        [⟨[some 5], 0, by decide⟩] := by
      rw [Storage.addObjects, dif_neg (by decide), Storage.addObjects]
      rfl
    simp only [State.stepNested, State.step, State.call, State.addedEvents,
      PoolConfiguration.addressed, PoolConfiguration.autoreleaseObjects, hstorage]
    rfl
  have hpushed : Run (State.stepNested fun _ => false) (.init false) [.pushed 0]
      ⟨⟨[⟨0, [.init]⟩], none⟩, [], 1⟩ :=
    (RunWhile.refl (State.init false : State ℕ)).tail .push trivial rfl
  exact ⟨_, _, _, (((hpushed.tail _ trivial hbulk).tail (.releasePoolObjects [5] false) trivial
    rfl).tail (.run false) trivial rfl), rfl, rfl, rfl, rfl⟩

end MulleObjC.Pool
