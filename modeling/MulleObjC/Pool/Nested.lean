import MulleObjC.Pool.Conservation

/-!
# Removals inside of a dealloc

A `-dealloc` or `-finalize` may itself remove objects from pools and empty pools, while the
functions that led to it are still at work. That can take entries away from the pools below,
but every step still reconfigures the pools in one of a few ways, and entries are conserved.
-/

namespace MulleObjC.Pool

open Machine

variable {Obj : Type*}

/-- The frame still reads the pages of the pool. -/
def Frame.reads (pool : ℕ) : Frame Obj → Bool
  | .releaseObjects _ _ read _ _ => read == pool
  | _ => false

variable [DecidableEq Obj]

/-- One step of a thread whose `-dealloc` code calls what the code of the thread itself calls. There
is one exception: it does not empty a pool under a removal that reads its pages. The removal would
go on over pages that the pool has given up, and release what it finds there once more. -/
def State.stepNested (isConstant : Obj → Bool) (s : State Obj) (act : Act Obj) :
    Option (List (Event Obj) × State Obj) :=
  match s.frames, act with
  | .dealloc _ :: _, .releasePoolObjects ps owners =>
    some ([], { s with frames := releaseObjectsFrame ps owners s.config.pools ++ s.frames })
  | .dealloc _ :: _, .releaseAllPoolObjects pool =>
    if pool ∈ addresses s.config.pools ∧ s.frames.all (fun frame => !frame.reads pool) then
      some ([], { s with frames := .releaseAll pool none :: s.frames })
    else none
  | _, _ => s.step isConstant act

/-- A `-dealloc` calls a removal or empties a pool. -/
def State.Calls (s s' : State Obj) : Prop :=
  ∃ fs, s' = { s with frames := fs ++ s.frames } ∧
    ((∀ frame ∈ fs, frame.IsReleaseObjects) ∨
      ∃ pool ∈ addresses s.config.pools, fs = [.releaseAll pool none])

variable {isConstant : Obj → Bool} {s s' : State Obj} {act : Act Obj} {es : List (Event Obj)}

/-- A step is one of the thread without nested removals, or a call by a `-dealloc`. -/
theorem stepNested_cases (h : s.stepNested isConstant act = some (es, s')) :
    s.step isConstant act = some (es, s') ∨ (es = [] ∧ s.Calls s') := by
  unfold State.stepNested at h
  split at h
  · obtain ⟨rfl, rfl⟩ := Prod.mk.inj (Option.some.inj h)
    exact .inr ⟨rfl, _, rfl, .inl (isReleaseObjects_of_mem _ _ _)⟩
  · rename_i pool hframes
    split at h
    · rename_i hguard
      obtain ⟨rfl, rfl⟩ := Prod.mk.inj (Option.some.inj h)
      exact .inr ⟨rfl, [.releaseAll pool none], rfl, .inr ⟨pool, hguard.1, rfl⟩⟩
    · cases h
  · exact .inl h

omit [DecidableEq Obj] in
/-- A call by a `-dealloc` finds its pools. -/
theorem State.Calls.sound (h : s.Calls s') (hs : s.Sound) : s'.Sound := by
  obtain ⟨fs, rfl, hfs⟩ := h
  refine ⟨?_, hs.nodup, hs.lt_nextPool⟩
  rcases hfs with hfs | ⟨pool, hmem, rfl⟩
  · exact (disciplined_append hfs).mpr hs.disciplined
  · exact ⟨hmem, hs.disciplined⟩

/-- A call by a `-dealloc` detaches nothing. -/
theorem State.Calls.pending_eq (h : s.Calls s') (sel : ℕ → Bool) (p : Obj) :
    s'.pending sel p = s.pending sel p := by
  obtain ⟨fs, rfl, hfs⟩ := h
  have hzero : (fs.map (Frame.pending sel p)).sum = 0 := by
    rw [List.sum_eq_zero_iff_forall_eq_nat]
    intro n hn
    obtain ⟨frame, hframe, rfl⟩ := List.mem_map.mp hn
    rcases hfs with hfs | ⟨pool, -, rfl⟩
    · obtain ⟨ps, owners, pool, below, q, rfl⟩ := hfs frame hframe
      rfl
    · obtain rfl := List.mem_singleton.mp hframe
      rfl
  simp [State.pending, hzero]

theorem sound_stepNested (h : s.stepNested isConstant act = some (es, s')) (hs : s.Sound) :
    s'.Sound := by
  rcases stepNested_cases h with hstep | ⟨-, hcalls⟩
  · exact (step_change hstep).sound hs
  · exact hcalls.sound hs

/-- Every step adds to the pending entries what it reports. -/
theorem balance_stepNested (h : s.stepNested isConstant act = some (es, s')) (hs : s.Sound)
    (sel : ℕ → Bool) (p : Obj) :
    es.countP (Event.isAdded sel p) + s.pending sel p =
      es.countP (Event.isReleased sel p) + s'.pending sel p := by
  rcases stepNested_cases h with hstep | ⟨rfl, hcalls⟩
  · exact (step_change hstep).balance hs
  · rw [hcalls.pending_eq]
    rfl

/-- What a step can do to the pools and to the map, with what it reports. -/
inductive Reconfigures (isConstant : Obj → Bool) (config : PoolConfiguration Obj) :
    Act Obj → List (Event Obj) → PoolConfiguration Obj → Prop
  | same (act : Act Obj) : Reconfigures isConstant config act [] config
  | push (pool : ℕ) : Reconfigures isConstant config .push [.pushed pool]
      { config with pools := ⟨pool, [.init]⟩ :: config.pools }
  | add {pool : NSAutoreleasePool Obj} {owner : List (NSAutoreleasePool Obj)}
      (hpools : config.pools = pool :: owner) {p : Obj} (hp : isConstant p = false) :
      Reconfigures isConstant config (.autorelease p) [.added pool.address p]
        (config.autoreleaseObject isConstant p)
  | addObjects {pool : NSAutoreleasePool Obj} {owner : List (NSAutoreleasePool Obj)}
      (hpools : config.pools = pool :: owner) (objects : Option (ℕ → Obj)) (count step : ℕ) :
      Reconfigures isConstant config (.autoreleaseObjects objects count step)
        ((PoolConfiguration.addressed objects count step).map (Event.added pool.address))
        (config.autoreleaseObjects objects count step)
  | detach (act : Act Obj) (pool : ℕ) : Reconfigures isConstant config act []
      { config with pools := modifyStorage pool (fun _ => []) config.pools }
  | pop (act : Act Obj) (pool : ℕ) : Reconfigures isConstant config act [.popped pool]
      { config with pools := after NSAutoreleasePool.address pool config.pools }
  | release (act : Act Obj) (pool : ℕ) (opfer : Obj) :
      Reconfigures isConstant config act [.released pool opfer]
        { config with objectMap := config.objectMap.map fun map => mapReleaseAndFree map opfer }
  | remove (act : Act Obj) {pool below q : ℕ} {array : PointerArray Obj}
      (hpage : (storageOf pool config.pools).pageAt below = some array) {obj : Obj}
      (hslot : array.objects[q]? = some (some obj)) :
      Reconfigures isConstant config act [.released pool obj]
        { pools := modifyStorage pool (·.clearAt below q) config.pools
          objectMap := config.objectMap.map fun map => mapReleaseAndFree map obj }

/-- What the calls of code do. -/
theorem reconfigures_call {floor : ℕ} (h : s.call isConstant floor act = some (es, s')) :
    Reconfigures isConstant s.config act es s'.config := by
  cases act with
  | push =>
    obtain ⟨rfl, rfl⟩ := Prod.mk.inj (Option.some.inj h)
    exact .push _
  | autorelease p =>
    obtain ⟨rfl, rfl⟩ := Prod.mk.inj (Option.some.inj h)
    cases hp : isConstant p with
    | true =>
      simp only [PoolConfiguration.autoreleaseObject, hp, State.addedEvents, if_true]
      cases s.config.pools <;> exact .same _
    | false =>
      cases hpools : s.config.pools with
      | nil =>
        simp only [PoolConfiguration.autoreleaseObject, hp, State.addedEvents, hpools,
          Bool.false_eq_true, if_false]
        exact .same _
      | cons pool owner =>
        simp only [State.addedEvents, hpools, Bool.false_eq_true, if_false, List.map_cons,
          List.map_nil]
        exact .add hpools hp
  | autoreleaseObjects objects count step =>
    obtain ⟨rfl, rfl⟩ := Prod.mk.inj (Option.some.inj h)
    cases hpools : s.config.pools with
    | nil =>
      have hsame : s.config.autoreleaseObjects objects count step = s.config := by
        cases objects <;> simp [PoolConfiguration.autoreleaseObjects, hpools]
      simp only [State.addedEvents, hpools, hsame]
      exact .same _
    | cons pool owner =>
      simp only [State.addedEvents, hpools]
      exact .addObjects hpools objects count step
  | pop aPool =>
    rw [State.call] at h
    split at h
    · cases h
    · split at h
      · obtain ⟨rfl, rfl⟩ := Prod.mk.inj (Option.some.inj h)
        exact .same _
      · cases h
  | releasePoolObjects ps owners => cases h
  | releaseAllPoolObjects pool => cases h
  | leave => cases h
  | run dealloc => cases h

/-- What the innermost pool function does. -/
theorem reconfigures_runFrame {frame : Frame Obj} {rest : List (Frame Obj)} {dealloc : Bool}
    (h : s.runFrame dealloc rest frame = some (es, s')) :
    Reconfigures isConstant s.config act es s'.config := by
  cases frame with
  | dealloc floor => cases h
  | releaseAll pool popTo =>
    simp only [State.runFrame] at h
    split at h
    · obtain ⟨rfl, rfl⟩ := Prod.mk.inj (Option.some.inj h)
      exact .detach act pool
    · cases popTo with
      | none =>
        obtain ⟨rfl, rfl⟩ := Prod.mk.inj (Option.some.inj h)
        exact .same _
      | some aPool =>
        simp only [State.popTail] at h
        split at h
        · obtain ⟨rfl, rfl⟩ := Prod.mk.inj (Option.some.inj h)
          exact .pop act pool
        · split at h
          · cases h
          · obtain ⟨rfl, rfl⟩ := Prod.mk.inj (Option.some.inj h)
            exact .pop act pool
  | releaseAndFree pool objects q =>
    rcases objects with - | ⟨- | opfer, objects⟩
    · cases q <;> obtain ⟨rfl, rfl⟩ := Prod.mk.inj (Option.some.inj h) <;> exact .same _
    · obtain ⟨rfl, rfl⟩ := Prod.mk.inj (Option.some.inj h)
      exact .same _
    · obtain ⟨rfl, rfl⟩ := Prod.mk.inj (Option.some.inj h)
      exact .release act pool opfer
  | releaseObjects ps owners pool below q =>
    cases q with
    | zero =>
      cases below <;> obtain ⟨rfl, rfl⟩ := Prod.mk.inj (Option.some.inj h) <;> exact .same _
    | succ q =>
      rw [State.runFrame] at h
      split at h
      · rename_i obj hobj
        obtain ⟨array, hpage, hslot⟩ := Option.bind_eq_some_iff.mp hobj
        dsimp only at h
        split at h
        · obtain ⟨rfl, rfl⟩ := Prod.mk.inj (Option.some.inj h)
          exact .remove act hpage hslot
        · obtain ⟨rfl, rfl⟩ := Prod.mk.inj (Option.some.inj h)
          exact .same _
      · obtain ⟨rfl, rfl⟩ := Prod.mk.inj (Option.some.inj h)
        exact .same _

/-- What a step does. -/
theorem reconfigures_step (h : s.step isConstant act = some (es, s')) :
    Reconfigures isConstant s.config act es s'.config := by
  cases takes_of_step h with
  | releasePoolObjects | releaseAllPoolObjects | leave => exact .same _
  | call _ h => exact reconfigures_call h
  | run _ h => exact reconfigures_runFrame h

theorem reconfigures_stepNested (h : s.stepNested isConstant act = some (es, s')) :
    Reconfigures isConstant s.config act es s'.config := by
  rcases stepNested_cases h with hstep | ⟨rfl, fs, rfl, -⟩
  · exact reconfigures_step hstep
  · exact .same act

end MulleObjC.Pool
