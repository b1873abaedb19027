import MulleObjC.Pool.Conservation

/-!
# Explicit removal as one call

While the removed objects are retained elsewhere, no `-dealloc` interrupts
`mulleReleasePoolObjects:count:`, and the call is a function of the stack of pools.
-/

namespace MulleObjC.Pool

variable {Obj : Type*} [DecidableEq Obj]

/-- `while( q > q_sentinel)` of `_mulle_autoreleasepointerarray_release_objects`, with the
released objects. -/
def PointerArray.releaseObjects (ps : List Obj) :
    ℕ → PointerArray Obj → PointerArray Obj × List Obj
  | 0, array => (array, [])
  | q + 1, array =>
    match array.objects[q]? with
    | some (some obj) =>
      if obj ∈ ps then
        let (array, released) := releaseObjects ps q (array.clear q)
        (array, obj :: released)
      else releaseObjects ps q array
    | _ => releaseObjects ps q array

/-- `do { … } while( array = array->previous)` -/
def Storage.releaseObjects (ps : List Obj) : Storage Obj → Storage Obj × List Obj
  | [] => ([], [])
  | array :: previous =>
    let (array, released) := array.releaseObjects ps array.used
    let (previous, more) := releaseObjects ps previous
    (array :: previous, released ++ more)

/-- `releaseObjects` for the current pool or, with `owners`, for all pools; with the
releases. -/
def releaseObjects (ps : List Obj) (owners : Bool) :
    List (NSAutoreleasePool Obj) → List (NSAutoreleasePool Obj) × List (Event Obj)
  | [] => ([], [])
  | pool :: owner =>
    let (storage, released) := Storage.releaseObjects ps pool.storage
    let (owner, more) := if owners then releaseObjects ps owners owner else (owner, [])
    ({ pool with storage := storage } :: owner, released.map (Event.released pool.address) ++ more)

/-- `mulleReleasePoolObjects:count:` of objects that are retained elsewhere. -/
def State.releaseObjects (s : State Obj) (ps : List Obj) (owners : Bool) :
    List (Event Obj) × State Obj :=
  let (pools, es) := Pool.releaseObjects ps owners s.config.pools
  let released := es.filterMap fun e => match e with | .released _ p => some p | _ => none
  (es,
    { s with
      config.pools := pools
      config.objectMap := s.config.objectMap.map fun map => released.foldl mapReleaseAndFree map })

variable {sel : ℕ → Bool} {p : Obj}

/-- The loop over a page takes out what it releases. -/
theorem PointerArray.count_releaseObjects (ps : List Obj) (q : ℕ) (array : PointerArray Obj)
    (p : Obj) :
    (array.releaseObjects ps q).1.objects.count (some p) +
        (array.releaseObjects ps q).2.count p = array.objects.count (some p) := by
  induction q generalizing array with
  | zero => rfl
  | succ q ih =>
    rw [releaseObjects]
    split
    · rename_i obj hslot
      split
      · have := ih (array.clear q)
        have hclear := count_objects_clear hslot p
        rw [List.count_cons]
        simp only [beq_iff_eq]
        omega
      · exact ih array
    · exact ih array

/-- The loop over a chain takes out what it releases. -/
theorem Storage.count_releaseObjects (ps : List Obj) (storage : Storage Obj) (p : Obj) :
    (Storage.releaseObjects ps storage).1.slots.count (some p) +
        (Storage.releaseObjects ps storage).2.count p = storage.slots.count (some p) := by
  induction storage with
  | nil => rfl
  | cons array previous ih =>
    have hpage := array.count_releaseObjects ps array.used p
    simp only [Storage.releaseObjects, Storage.slots, List.count_append]
    omega

/-- The loop over a page releases nothing but what it is called for. -/
theorem PointerArray.mem_of_released (ps : List Obj) (q : ℕ) (array : PointerArray Obj)
    (hp : p ∈ (array.releaseObjects ps q).2) : p ∈ ps := by
  induction q generalizing array with
  | zero => cases hp
  | succ q ih =>
    rw [releaseObjects] at hp
    split at hp
    · split at hp
      · next hobj =>
        rcases List.mem_cons.mp hp with rfl | hmem
        · exact hobj
        · exact ih _ hmem
      · exact ih _ hp
    · exact ih _ hp

/-- The same for the loop over a chain. -/
theorem Storage.mem_of_released (ps : List Obj) (storage : Storage Obj)
    (hp : p ∈ (Storage.releaseObjects ps storage).2) : p ∈ ps := by
  induction storage with
  | nil => cases hp
  | cons array previous ih =>
    rcases List.mem_append.mp hp with hmem | hmem
    · exact array.mem_of_released ps array.used hmem
    · exact ih hmem

/-- The addresses of the pools stay. -/
theorem addresses_releaseObjects (ps : List Obj) (owners : Bool)
    (pools : List (NSAutoreleasePool Obj)) :
    addresses (releaseObjects ps owners pools).1 = addresses pools := by
  induction pools with
  | nil => rfl
  | cons pool owner ih =>
    cases owners with
    | false => rfl
    | true => simpa [releaseObjects] using ih

theorem countP_isReleased_released (pool : ℕ) (xs : List Obj) :
    (xs.map (Event.released pool)).countP (Event.isReleased sel p) =
      if sel pool then xs.count p else 0 := by
  induction xs with
  | nil => simp
  | cons x xs ih =>
    simp only [List.map_cons, List.countP_cons, ih, Event.isReleased, List.count_cons]
    by_cases hx : x = p <;> by_cases hsel : sel pool = true <;> simp [hx, hsel]

/-- The pools release nothing but what they are called for. -/
theorem countP_isReleased_releaseObjects {ps : List Obj} (hp : p ∉ ps) (owners : Bool)
    (pools : List (NSAutoreleasePool Obj)) :
    (releaseObjects ps owners pools).2.countP (Event.isReleased sel p) = 0 := by
  induction pools with
  | nil => rfl
  | cons pool owner ih =>
    have hpool : (Storage.releaseObjects ps pool.storage).2.count p = 0 :=
      List.count_eq_zero.mpr (mt (Storage.mem_of_released ps pool.storage) hp)
    simp only [releaseObjects, List.countP_append, countP_isReleased_released, hpool, ite_self,
      Nat.zero_add]
    cases owners with
    | false => rfl
    | true => exact ih

/-- The pools lose what they release. -/
theorem pendingIn_releaseObjects (sel : ℕ → Bool) (p : Obj) (ps : List Obj) (owners : Bool)
    (pools : List (NSAutoreleasePool Obj)) :
    pendingIn sel p (releaseObjects ps owners pools).1 +
        (releaseObjects ps owners pools).2.countP (Event.isReleased sel p) =
      pendingIn sel p pools := by
  induction pools with
  | nil => rfl
  | cons pool owner ih =>
    have hstorage := Storage.count_releaseObjects ps pool.storage p
    simp only [releaseObjects, pendingIn, entriesIn, List.countP_append,
      countP_isReleased_released]
    cases owners with
    | false =>
      by_cases hsel : sel pool.address = true <;> simp [hsel]
      omega
    | true =>
      simp only [if_true]
      by_cases hsel : sel pool.address = true <;> simp [hsel] <;> omega

theorem pending_releaseObjects (s : State Obj) (ps : List Obj) (owners : Bool) :
    (s.releaseObjects ps owners).2.pending sel p +
        (s.releaseObjects ps owners).1.countP (Event.isReleased sel p) = s.pending sel p := by
  have := pendingIn_releaseObjects sel p ps owners s.config.pools
  simp only [State.releaseObjects, State.pending]
  omega

theorem sound_releaseObjects {s : State Obj} (hs : s.Sound) (ps : List Obj) (owners : Bool) :
    (s.releaseObjects ps owners).2.Sound := by
  have haddresses := addresses_releaseObjects ps owners s.config.pools
  constructor
  · simpa [State.releaseObjects, haddresses] using hs.disciplined
  · simpa [State.releaseObjects, haddresses] using hs.nodup
  · simpa [State.releaseObjects, haddresses] using hs.lt_nextPool

end MulleObjC.Pool
