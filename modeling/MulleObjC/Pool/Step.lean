import MulleObjC.Pool.Machine

/-!
# What a step can do

Every step of the thread is one of a few changes of the stack of pools and of the
frames. The invariants are proved for these changes and do not look into the pool
functions again.
-/

namespace MulleObjC.Pool

variable {Obj : Type*}

/-- Code runs that leaves the lowest `floor` pools alone. -/
def State.Code (s : State Obj) (floor : ℕ) : Prop :=
  (s.frames = [] ∧ floor = 0) ∨ ∃ rest, s.frames = .dealloc floor :: rest

/-- A frame of an explicit removal. -/
def Frame.IsReleaseObjects (frame : Frame Obj) : Prop :=
  ∃ ps owners pool below q, frame = .releaseObjects ps owners pool below q

theorem isReleaseObjects_of_mem (ps : List Obj) (owners : Bool)
    (pools : List (NSAutoreleasePool Obj)) :
    ∀ frame ∈ releaseObjectsFrame ps owners pools, Frame.IsReleaseObjects frame := by
  induction pools with
  | nil => simp [releaseObjectsFrame]
  | cons pool owner ih =>
    rw [releaseObjectsFrame]
    split
    · split
      · exact ih
      · simp
    · intro frame hframe
      exact ⟨ps, owners, _, _, _, List.mem_singleton.mp hframe⟩

variable [DecidableEq Obj]

/-- Who takes a step: code that calls a function or returns from a `-dealloc`, or the innermost
pool function. -/
inductive State.Takes (isConstant : Obj → Bool) (s : State Obj) :
    Act Obj → List (Event Obj) → State Obj → Prop
  | releasePoolObjects (hframes : s.frames = []) (ps : List Obj) (owners : Bool) :
      Takes isConstant s (.releasePoolObjects ps owners) []
        { s with frames := releaseObjectsFrame ps owners s.config.pools }
  | releaseAllPoolObjects (hframes : s.frames = []) {pool : ℕ}
      (hmem : pool ∈ addresses s.config.pools) :
      Takes isConstant s (.releaseAllPoolObjects pool) []
        { s with frames := [.releaseAll pool none] }
  | call {floor : ℕ} (hcode : s.Code floor) {act : Act Obj} {es : List (Event Obj)}
      {s' : State Obj} (h : s.call isConstant floor act = some (es, s')) :
      Takes isConstant s act es s'
  | leave {rest : List (Frame Obj)}
      (hframes : s.frames = .dealloc s.config.pools.length :: rest) :
      Takes isConstant s .leave [] { s with frames := rest }
  | run {frame : Frame Obj} {rest : List (Frame Obj)} (hframes : s.frames = frame :: rest)
      {dealloc : Bool} {es : List (Event Obj)} {s' : State Obj}
      (h : s.runFrame dealloc rest frame = some (es, s')) :
      Takes isConstant s (.run dealloc) es s'

variable {isConstant : Obj → Bool}

theorem takes_of_step {s s' : State Obj} {act : Act Obj} {es : List (Event Obj)}
    (h : s.step isConstant act = some (es, s')) : s.Takes isConstant act es s' := by
  cases hframes : s.frames with
  | nil =>
    cases act with
    | releasePoolObjects ps owners =>
      simp only [State.step, hframes] at h
      obtain ⟨rfl, rfl⟩ := Prod.mk.inj (Option.some.inj h)
      exact .releasePoolObjects hframes ps owners
    | releaseAllPoolObjects pool =>
      simp only [State.step, hframes] at h
      split at h
      case isFalse => cases h
      case isTrue hmem =>
        obtain ⟨rfl, rfl⟩ := Prod.mk.inj (Option.some.inj h)
        exact .releaseAllPoolObjects hframes hmem
    | _ =>
      simp only [State.step, hframes] at h
      exact .call (.inl ⟨hframes, rfl⟩) h
  | cons frame rest =>
    cases frame with
    | dealloc floor =>
      cases act with
      | leave =>
        simp only [State.step, hframes] at h
        split at h
        case isFalse => cases h
        case isTrue hlength =>
          obtain ⟨rfl, rfl⟩ := Prod.mk.inj (Option.some.inj h)
          exact .leave (by rw [hlength, hframes])
      | _ =>
        simp only [State.step, hframes] at h
        exact .call (.inr ⟨rest, hframes⟩) h
    | _ =>
      cases act with
      | run dealloc =>
        simp only [State.step, hframes] at h
        exact .run hframes h
      | _ => simp [State.step, hframes] at h

theorem step_of_takes {s s' : State Obj} {act : Act Obj} {es : List (Event Obj)}
    (h : s.Takes isConstant act es s') : s.step isConstant act = some (es, s') := by
  cases h with
  | releasePoolObjects hframes ps owners => simp only [State.step, hframes]
  | releaseAllPoolObjects hframes hmem => simp only [State.step, hframes, hmem, if_true]
  | call hcode h =>
    rcases hcode with ⟨hframes, rfl⟩ | ⟨rest, hframes⟩
    · cases act with
      | releasePoolObjects | releaseAllPoolObjects => cases h
      | _ => simpa only [State.step, hframes] using h
    · cases act with
      | leave => cases h
      | _ => simpa only [State.step, hframes] using h
  | leave hframes => simp only [State.step, hframes, if_true]
  | @run frame rest hframes dealloc es s' h =>
    cases frame with
    | dealloc floor => cases h
    | _ => simpa only [State.step, hframes] using h

/-- The changes a step can make, with the reported events. -/
inductive Change (s : State Obj) : List (Event Obj) → State Obj → Prop
  | push {floor : ℕ} (hcode : s.Code floor) :
      Change s [.pushed s.nextPool]
        { s with
          config.pools := ⟨s.nextPool, [.init]⟩ :: s.config.pools
          nextPool := s.nextPool + 1 }
  | add {floor : ℕ} (hcode : s.Code floor) {pool : NSAutoreleasePool Obj}
      {owner : List (NSAutoreleasePool Obj)} (hpools : s.config.pools = pool :: owner)
      {storage : Storage Obj} {ps : List Obj}
      (hslots : storage.slots = pool.storage.slots ++ ps.map some)
      (map : Option (Obj → BitVec 64)) :
      Change s (ps.map (Event.added pool.address))
        { s with config := ⟨{ pool with storage := storage } :: owner, map⟩ }
  | idle : Change s [] s
  | pop {floor : ℕ} (hcode : s.Code floor) {tail : NSAutoreleasePool Obj}
      {owner : List (NSAutoreleasePool Obj)} (hpools : s.config.pools = tail :: owner)
      {aPool : ℕ}
      (hmem : aPool ∈ (addresses s.config.pools).take (s.config.pools.length - floor)) :
      Change s [] { s with frames := .releaseAll tail.address (some aPool) :: s.frames }
  | releaseAllPoolObjects (hframes : s.frames = []) {pool : ℕ}
      (hmem : pool ∈ addresses s.config.pools) :
      Change s [] { s with frames := [.releaseAll pool none] }
  | releasePoolObjects {fs rest : List (Frame Obj)}
      (hframes : s.frames = rest ∧ rest = [] ∨
        ∃ frame : Frame Obj, frame.IsReleaseObjects ∧ s.frames = frame :: rest)
      (hfs : ∀ frame ∈ fs, Frame.IsReleaseObjects frame) :
      Change s [] { s with frames := fs ++ rest }
  | leave {rest : List (Frame Obj)}
      (hframes : s.frames = .dealloc s.config.pools.length :: rest) :
      Change s [] { s with frames := rest }
  | detach {pool : ℕ} {popTo : Option ℕ} {rest : List (Frame Obj)}
      (hframes : s.frames = .releaseAll pool popTo :: rest) {array : PointerArray Obj}
      {previous : Storage Obj} (hstorage : storageOf pool s.config.pools = array :: previous) :
      Change s []
        { s with
          config.pools := modifyStorage pool (fun _ => []) s.config.pools
          frames := .releaseAndFree pool array.objects.reverse previous ::
            .releaseAll pool popTo :: rest }
  | emptied {pool : ℕ} {rest : List (Frame Obj)}
      (hframes : s.frames = .releaseAll pool none :: rest) :
      Change s [] { s with frames := rest }
  | popLast {pool : ℕ} {rest : List (Frame Obj)}
      (hframes : s.frames = .releaseAll pool (some pool) :: rest)
      (hstorage : storageOf pool s.config.pools = []) :
      Change s [.popped pool]
        { s with
          config.pools := after NSAutoreleasePool.address pool s.config.pools
          frames := rest }
  | popNext {pool aPool : ℕ} (hne : pool ≠ aPool) {rest : List (Frame Obj)}
      (hframes : s.frames = .releaseAll pool (some aPool) :: rest)
      (hstorage : storageOf pool s.config.pools = []) {tail : NSAutoreleasePool Obj}
      {owner : List (NSAutoreleasePool Obj)}
      (hafter : after NSAutoreleasePool.address pool s.config.pools = tail :: owner) :
      Change s [.popped pool]
        { s with
          config.pools := tail :: owner
          frames := .releaseAll tail.address (some aPool) :: rest }
  | release {pool : ℕ} {opfer : Obj} {objects : List (Option Obj)} {q : Storage Obj}
      {rest : List (Frame Obj)}
      (hframes : s.frames = .releaseAndFree pool (some opfer :: objects) q :: rest)
      (dealloc : Bool) :
      Change s [.released pool opfer]
        (s.releaseEntry opfer dealloc (.releaseAndFree pool objects q :: rest))
  | advance {pool : ℕ} {objects objects' : List (Option Obj)} {q q' : Storage Obj}
      {rest : List (Frame Obj)} (hframes : s.frames = .releaseAndFree pool objects q :: rest)
      (hcount : ∀ p, objects.count (some p) + q.slots.count (some p) =
        objects'.count (some p) + q'.slots.count (some p)) :
      Change s [] { s with frames := .releaseAndFree pool objects' q' :: rest }
  | freed {pool : ℕ} {rest : List (Frame Obj)}
      (hframes : s.frames = .releaseAndFree pool [] [] :: rest) :
      Change s [] { s with frames := rest }
  | remove {ps : List Obj} {owners : Bool} {pool below q : ℕ} {rest : List (Frame Obj)}
      (hframes : s.frames = .releaseObjects ps owners pool below (q + 1) :: rest)
      {array : PointerArray Obj}
      (hpage : (storageOf pool s.config.pools).pageAt below = some array) {obj : Obj}
      (hslot : array.objects[q]? = some (some obj)) (dealloc : Bool) :
      Change s [.released pool obj]
        ({ s with
            config.pools := modifyStorage pool (·.clearAt below q) s.config.pools }.releaseEntry
          obj dealloc (.releaseObjects ps owners pool below q :: rest))

/-- An addition changes the current pool only. -/
theorem change_of_add {s s' : State Obj} {floor : ℕ} (hcode : s.Code floor) {ps : List Obj}
    {storage : Storage Obj} (map : Option (Obj → BitVec 64))
    (hslots : storage.slots = s.config.tailStorage.slots ++ ps.map some)
    (hs' : s' = match s.config.pools with
      | [] => s
      | pool :: owner => { s with config := ⟨{ pool with storage := storage } :: owner, map⟩ }) :
    Change s (s.addedEvents ps) s' := by
  subst hs'
  cases hpools : s.config.pools with
  | nil =>
    simp only [State.addedEvents, hpools]
    exact .idle
  | cons pool owner =>
    simp only [State.addedEvents, hpools]
    simp only [PoolConfiguration.tailStorage, hpools] at hslots
    exact .add hcode hpools hslots map

/-- What code can call. -/
theorem call_change {s s' : State Obj} {floor : ℕ} (hcode : s.Code floor) {act : Act Obj}
    {es : List (Event Obj)} (h : s.call isConstant floor act = some (es, s')) :
    Change s es s' := by
  cases act with
  | push =>
    obtain ⟨rfl, rfl⟩ := Prod.mk.inj (Option.some.inj h)
    exact .push hcode
  | autorelease p =>
    obtain ⟨rfl, rfl⟩ := Prod.mk.inj (Option.some.inj h)
    cases hp : isConstant p with
    | true =>
      simp only [PoolConfiguration.autoreleaseObject, hp, State.addedEvents, if_true]
      cases s.config.pools <;> exact .idle
    | false =>
      rw [if_neg Bool.false_ne_true]
      refine change_of_add hcode (s.config.objectMap.map fun map => mapIncrement map p)
        (Storage.slots_addObject s.config.tailStorage p) ?_
      cases hpools : s.config.pools <;>
        simp [PoolConfiguration.autoreleaseObject, hp, hpools, PoolConfiguration.tailStorage]
  | autoreleaseObjects objects count step =>
    obtain ⟨rfl, rfl⟩ := Prod.mk.inj (Option.some.inj h)
    have hidle : s.addedEvents [] = [] := by
      rw [State.addedEvents]
      cases s.config.pools <;> rfl
    cases objects with
    | none =>
      rw [PoolConfiguration.addressed, hidle]
      exact .idle
    | some objects =>
      by_cases hcount : count = 0
      · simp only [PoolConfiguration.autoreleaseObjects, PoolConfiguration.addressed, hcount,
          Storage.spaced, List.range_zero, List.map_nil, hidle, if_true]
        exact .idle
      · refine change_of_add hcode
          (s.config.objectMap.map fun map => (Storage.spaced objects count 8).foldl mapIncrement map)
          (Storage.slots_addObjects s.config.tailStorage objects count step) ?_
        cases hpools : s.config.pools <;>
          simp [PoolConfiguration.autoreleaseObjects, hcount, hpools, PoolConfiguration.tailStorage]
  | pop aPool =>
    rw [State.call] at h
    cases hpools : s.config.pools with
    | nil => simp [hpools] at h
    | cons tail owner =>
      simp only [hpools] at h
      rw [← hpools] at h
      split at h
      case isFalse => cases h
      case isTrue hmem =>
        obtain ⟨rfl, rfl⟩ := Prod.mk.inj (Option.some.inj h)
        exact .pop hcode hpools hmem
  | releasePoolObjects ps owners => cases h
  | releaseAllPoolObjects pool => cases h
  | leave => cases h
  | run dealloc => cases h

/-- What `popAutoreleasePool` does when all objects of a pool are released. -/
theorem popTail_change {s s' : State Obj} {pool aPool : ℕ} {rest : List (Frame Obj)}
    (hframes : s.frames = .releaseAll pool (some aPool) :: rest)
    (hstorage : storageOf pool s.config.pools = []) {es : List (Event Obj)}
    (h : s.popTail pool aPool rest = some (es, s')) : Change s es s' := by
  rw [State.popTail] at h
  by_cases hpool : pool = aPool
  · subst hpool
    rw [if_pos rfl] at h
    obtain ⟨rfl, rfl⟩ := Prod.mk.inj (Option.some.inj h)
    exact .popLast hframes hstorage
  · rw [if_neg hpool] at h
    cases hafter : after NSAutoreleasePool.address pool s.config.pools with
    | nil => simp [hafter] at h
    | cons tail owner =>
      simp only [hafter] at h
      obtain ⟨rfl, rfl⟩ := Prod.mk.inj (Option.some.inj h)
      exact .popNext hpool hframes hstorage hafter

/-- What the innermost pool function can do. -/
theorem runFrame_change {s s' : State Obj} {frame : Frame Obj} {rest : List (Frame Obj)}
    (hframes : s.frames = frame :: rest) {dealloc : Bool} {es : List (Event Obj)}
    (h : s.runFrame dealloc rest frame = some (es, s')) : Change s es s' := by
  cases frame with
  | dealloc floor => cases h
  | releaseAll pool popTo =>
    unfold State.runFrame at h
    cases hstorage : storageOf pool s.config.pools with
    | cons array previous =>
      simp only [hstorage] at h
      obtain ⟨rfl, rfl⟩ := Prod.mk.inj (Option.some.inj h)
      exact .detach hframes hstorage
    | nil =>
      simp only [hstorage] at h
      cases popTo with
      | none =>
        obtain ⟨rfl, rfl⟩ := Prod.mk.inj (Option.some.inj h)
        exact .emptied hframes
      | some aPool => exact popTail_change hframes hstorage h
  | releaseAndFree pool objects q =>
    cases objects with
    | nil =>
      cases q with
      | nil =>
        obtain ⟨rfl, rfl⟩ := Prod.mk.inj (Option.some.inj h)
        exact .freed hframes
      | cons array previous =>
        obtain ⟨rfl, rfl⟩ := Prod.mk.inj (Option.some.inj h)
        refine .advance hframes fun p => ?_
        rw [Storage.slots, List.count_append, List.count_reverse, List.count_nil]
        omega
    | cons slot objects =>
      cases slot with
      | none =>
        obtain ⟨rfl, rfl⟩ := Prod.mk.inj (Option.some.inj h)
        exact .advance hframes fun p => by simp
      | some opfer =>
        obtain ⟨rfl, rfl⟩ := Prod.mk.inj (Option.some.inj h)
        exact .release hframes dealloc
  | releaseObjects ps owners pool below q =>
    have hscan : Frame.IsReleaseObjects (.releaseObjects ps owners pool below q) :=
      ⟨ps, owners, pool, below, q, rfl⟩
    have hcall : s.frames = rest ∧ rest = [] ∨
        ∃ frame : Frame Obj, frame.IsReleaseObjects ∧ s.frames = frame :: rest :=
      .inr ⟨_, hscan, hframes⟩
    have hgoOn : ∀ below q,
        Change s [] { s with frames := [.releaseObjects ps owners pool below q] ++ rest } :=
      fun below q => .releasePoolObjects hcall fun frame hframe => by
        rw [List.mem_singleton.mp hframe]
        exact ⟨ps, owners, pool, below, q, rfl⟩
    cases q with
    | zero =>
      cases below with
      | zero =>
        obtain ⟨rfl, rfl⟩ := Prod.mk.inj (Option.some.inj h)
        exact .releasePoolObjects hcall (isReleaseObjects_of_mem _ _ _)
      | succ below =>
        obtain ⟨rfl, rfl⟩ := Prod.mk.inj (Option.some.inj h)
        exact hgoOn _ _
    | succ q =>
      rw [State.runFrame] at h
      split at h
      · rename_i obj hobj
        obtain ⟨array, hpage, hslot⟩ := Option.bind_eq_some_iff.mp hobj
        dsimp only at h
        split at h
        · obtain ⟨rfl, rfl⟩ := Prod.mk.inj (Option.some.inj h)
          exact .remove hframes hpage hslot dealloc
        · obtain ⟨rfl, rfl⟩ := Prod.mk.inj (Option.some.inj h)
          exact hgoOn below q
      · obtain ⟨rfl, rfl⟩ := Prod.mk.inj (Option.some.inj h)
        exact hgoOn below q

/-- Every step is one of the changes. -/
theorem step_change {s s' : State Obj} {act : Act Obj} {es : List (Event Obj)}
    (h : s.step isConstant act = some (es, s')) : Change s es s' := by
  cases takes_of_step h with
  | releasePoolObjects hframes ps owners =>
    rw [← List.append_nil (releaseObjectsFrame _ _ _)]
    exact .releasePoolObjects (.inl ⟨hframes, rfl⟩) (isReleaseObjects_of_mem _ _ _)
  | releaseAllPoolObjects hframes hmem => exact .releaseAllPoolObjects hframes hmem
  | call hcode h => exact call_change hcode h
  | leave hframes => exact .leave hframes
  | run hframes h => exact runFrame_change hframes h

end MulleObjC.Pool
